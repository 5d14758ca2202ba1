import LedgerVcs.Oci.Layout
import LedgerVcs.Oci.Source

set_option autoImplicit false

/-! Turning an image into ordinary content. -/

namespace LedgerVcs

open Text (PyStr lit)
open Wire (Bytes)

namespace Oci

def COMPRESSED_DIGEST : PyStr := lit "dev.ledger.oci.compressed.digest"

def COMPRESSED_SIZE : PyStr := lit "dev.ledger.oci.compressed.size"

def COMPRESSED_MEDIA_TYPE : PyStr := lit "dev.ledger.oci.compressed.mediaType"

/-- An image, now stored as content. -/
structure IngestedImage where
  image : PyStr
  descriptor : Descriptor
  manifest_bytes : Bytes
  blob_entries : List TreeEntry
  digest_entries : List (PyStr × DigestRow)
  stats : IngestStats
  layers : Nat
  layers_reused : Nat
  bytes_compressed : Int
  bytes_uncompressed : Int
  platform : Option Platform

/-- `_StoredBlob` -/
structure StoredBlob where
  descriptor : Descriptor
  entry : TreeEntry
  stats : IngestStats

/-- `_StoredLayer` -/
structure StoredLayer extends StoredBlob where
  digest_entry : PyStr × DigestRow
  reused : Bool

/-- What the decompressors make of all the bytes of a stream. -/
structure ImageIngester where
  ingester : Ingester
  python : Python
  sha256 : Sha256
  gzip : Bytes → Except PyError Bytes
  zstd : Bytes → Except PyError Bytes

namespace ImageIngester

variable (images : ImageIngester)

def decompressed (raw : Bytes) : Compression → Except PyError Bytes
  | .none => .ok raw
  | .gzip => images.gzip raw
  | .zstd => images.zstd raw

/-- `_diff_ids` -/
def diff_ids (config_bytes : Bytes) : Except PyError (List Digest) := do
  match ← images.python.loads config_bytes (.valueError "Expecting value") with
  | .object document =>
    match document.lookup (lit "rootfs") with
    | some (.object rootfs) =>
      match rootfs.lookup (lit "diff_ids") with
      | some (.array entries) => entries.mapM fun entry => Digest.parse (images.python.text_of entry)
      | _ => throw (.invalidRequest "an image config must have rootfs.diff_ids")
    | _ => throw (.invalidRequest "an image config must have rootfs.diff_ids")
  | _ => throw (.invalidRequest "an image config must be a JSON object")

/-- `_config_media_type` -/
def config_media_type (source_type : PyStr) : PyStr := if source_type = MEDIA_DOCKER_CONFIG then MEDIA_IMAGE_CONFIG else source_type

/-- `_store_config` -/
def store_config (selected : SourceImage) (config_bytes : Bytes) : Importing StoredBlob := do
  let digest := Digest.of images.sha256 config_bytes
  liftExcept (ensure (∀ claimed ∈ selected.config.digest, claimed = digest)
    (.invalidRequest "this image's config does not hash to the digest its manifest gives; the archive is damaged"))
  let (name, stats) ← ledger images.ingester (images.ingester.ingest_bytes config_bytes)
  return {
    descriptor := ⟨config_media_type selected.config.media_type, digest, config_bytes.length, [], none⟩
    entry := blob_entry digest name config_bytes.length
    stats }

/-- `_reuse` -/
def reuse (diff_id : Digest) : Importing (Option DigestRow) := do
  match ← GitImporter.lookup diff_id.encoded with
  | none => return none
  | some hit =>
    -- the row is a hint: what it names can have been swept since
    let absent ← ledger images.ingester (missing [hit.name])
    return if absent = ∅ then some hit else none

/-- How the layer was compressed, where it was. -/
def compressed_annotations (layer : SourceBlob) (diff_id : Digest) : List (PyStr × PyStr) :=
  match layer.digest with
  | none => []
  | some digest =>
    if digest = diff_id then []
    else sorted_pairs [(COMPRESSED_DIGEST, digest.str), (COMPRESSED_SIZE, Text.ofInt layer.size), (COMPRESSED_MEDIA_TYPE, layer.media_type)]

/-- `_describe_layer` -/
def describe_layer (layer : SourceBlob) (diff_id : Digest) (name : ObjectName) (size : Nat) (stats : IngestStats) (reused : Bool) :
    Except PyError StoredLayer := do
  let media_type ← uncompressed_layer_type layer.media_type
  return {
    descriptor := ⟨media_type, diff_id, size, compressed_annotations layer diff_id, none⟩
    entry := blob_entry diff_id name size
    digest_entry := (diff_id.encoded, ⟨name, size⟩)
    stats
    reused }

/-- `_store_layer` -/
def store_layer (source : ImageSource) (layer : SourceBlob) (diff_id : Digest) : Importing StoredLayer := do
  match ← images.reuse diff_id with
  -- stored before, whatever it was compressed with then
  | some hit => liftExcept (describe_layer layer diff_id hit.name hit.size .none true)
  | none =>
    let raw ← liftExcept (source.opened layer)
    let compression ← liftExcept (compression_of layer.media_type)
    let content ← liftExcept (images.decompressed raw compression)
    let window := max (images.ingester.chunk_params.max_size * 4) (1 <<< 20)
    let (name, stats) ← ledger images.ingester (images.ingester.ingest_stream (file_reads window content.length content))
    -- the config has said what the layer hashes to
    liftExcept (ensure (Digest.of images.sha256 content = diff_id)
      (.invalidRequest "a layer's uncompressed content does not match the diff_id its config declares; the image is damaged"))
    liftExcept (describe_layer layer diff_id name content.length stats false)

/-- `_rewrite_manifest` -/
def rewrite_manifest (selected : SourceImage) (config : Descriptor) (layers : List Descriptor) : Except PyError Bytes :=
  match selected.manifest_bytes with
  | none => canonical_json (.object [(lit "schemaVersion", .int 2), (lit "mediaType", .string MEDIA_IMAGE_MANIFEST),
      (lit "config", config.to_json), (lit "layers", .array (layers.map Descriptor.to_json))])
  | some manifest_bytes => do
    -- fields that are not known here stay
    let document ← images.python.parse_document manifest_bytes
    let document := Json.set_field (lit "mediaType") (.string MEDIA_IMAGE_MANIFEST) document
    let document := Json.set_field (lit "config") config.to_json document
    let document := Json.set_field (lit "layers") (.array (layers.map Descriptor.to_json)) document
    canonical_json (.object document)

def ingest (source : ImageSource) (image : PyStr) (platform : Platform) (from_image : Option PyStr) : Importing IngestedImage := do
  let selected ← liftExcept (source.select from_image platform)
  let config_bytes ← liftExcept (source.read selected.config)
  let config ← images.store_config selected config_bytes
  let diff_ids ← liftExcept (images.diff_ids config_bytes)
  liftExcept (ensure (diff_ids.length = selected.layers.length)
    (.invalidRequest ("this image's config lists a different number of layers than its manifest; " ++
      "it is internally inconsistent and cannot be trusted")))
  let outcomes ← (selected.layers.zip diff_ids).mapM fun pair => images.store_layer source pair.1 pair.2
  let layers := outcomes.map fun outcome => outcome.descriptor
  let manifest_bytes ← liftExcept (images.rewrite_manifest selected config.descriptor layers)
  -- stored last, so it names nothing that is not stored
  let (manifest_name, manifest_stats) ← ledger images.ingester (images.ingester.ingest_bytes manifest_bytes)
  let manifest_digest := Digest.of images.sha256 manifest_bytes
  return {
    image
    descriptor := ⟨MEDIA_IMAGE_MANIFEST, manifest_digest, manifest_bytes.length, [], selected.platform⟩
    manifest_bytes
    blob_entries := config.entry :: outcomes.map (fun outcome => outcome.entry) ++
      [blob_entry manifest_digest manifest_name manifest_bytes.length]
    digest_entries := outcomes.map fun outcome => outcome.digest_entry
    stats := (outcomes.foldl (fun stats outcome => stats.add outcome.stats) config.stats).add manifest_stats
    layers := layers.length
    layers_reused := (outcomes.filter fun outcome => outcome.reused).length
    bytes_compressed := (selected.layers.map SourceBlob.size).sum
    bytes_uncompressed := (layers.map Descriptor.size).sum
    platform := selected.platform }

end ImageIngester

/-! ## Digests of bytes -/

theorem digest_valid (sha256 : Sha256) (data : Bytes) : Digest.Valid (Digest.of sha256 data) := by
  refine ⟨rfl, Text.Pattern.matchLine_iff.mpr (.inl ⟨Text.hex (sha256.digest data), [], (List.append_nil _).symm, ?_, rfl⟩)⟩
  have length : (Text.hex (sha256.digest data)).length = 64 := by rw [Text.length_hex, sha256.size]
  exact ⟨length.ge, length.le, Text.hex_lower _⟩

theorem parsed_valid {text : PyStr} {digest : Digest} (parsed : Digest.parse text = .ok digest) : Digest.Valid digest := by
  obtain ⟨algorithm, encoded, -⟩ := parse_digest.mp parsed
  exact ⟨algorithm, encoded⟩

/-! ## The stored manifest -/

section Manifests

variable {images : ImageIngester} {selected : SourceImage} {config : Descriptor} {layers : List Descriptor} {data : Bytes}

/-- The stored manifest says what was stored, whatever else the source's manifest had to say. -/
theorem manifest_rewritten (read : ∀ original, selected.manifest_bytes = some original →
      ∃ manifest, parse_manifest images.python original = .ok manifest)
    (tidy : ∀ descriptor ∈ config :: layers, descriptor.Tidy ∧ descriptor.normal = descriptor)
    (written : images.rewrite_manifest selected config layers = .ok data) :
    ∃ annotations, parse_manifest images.python data = .ok ⟨MEDIA_IMAGE_MANIFEST, config, layers, annotations⟩ := by
  obtain ⟨config_tidy, layers_tidy⟩ := List.forall_mem_cons.mp tidy
  have config_read : Descriptor.from_json images.python config.to_json = .ok config := by
    rw [descriptor_read config_tidy.1, config_tidy.2]
  have layers_read : (layers.map Descriptor.to_json).mapM (Descriptor.from_json images.python) = .ok layers := by
    rw [descriptors_read fun layer member => (layers_tidy layer member).1]
    exact congrArg Except.ok ((List.map_congr_left fun layer member => (layers_tidy layer member).2).trans (List.map_id' layers))
  have parses {fields : List (PyStr × Json)} {annotations : List (PyStr × PyStr)} (fits : Json.Fits images.python.float_repr (.object fields))
      (nonempty : fields ≠ []) (canonical : canonical_json (.object fields) = .ok data)
      (media : fields.lookup (lit "mediaType") = some (.string MEDIA_IMAGE_MANIFEST))
      (has_config : fields.lookup (lit "config") = some config.to_json)
      (has_layers : fields.lookup (lit "layers") = some (.array (layers.map Descriptor.to_json)))
      (noted : annotations_of images.python (fields.lookup (lit "annotations")) = .ok annotations) :
      parse_manifest images.python data = .ok ⟨MEDIA_IMAGE_MANIFEST, config, layers, annotations⟩ := by
    rw [parse_manifest, loads_canonical fits nonempty canonical]
    rw [Descriptor.to_json] at has_config config_read
    simp only [bind, Except.bind, has_config, has_layers, config_read, layers_read, noted, media, Option.map_some, Option.getD_some,
      Python.text_of_string, pure, Except.pure]
  have config_fits : Json.Fits images.python.float_repr config.to_json := descriptor_fits config
  have layers_fit : Json.Fits images.python.float_repr (.array (layers.map Descriptor.to_json)) := descriptors_fit layers
  rw [ImageIngester.rewrite_manifest] at written
  -- an archive of the old kind has no manifest, and gets a minimal one
  cases original : selected.manifest_bytes with
  | none =>
    rw [original] at written
    have fits : Json.Fits images.python.float_repr (.object [(lit "schemaVersion", .int 2), (lit "mediaType", .string MEDIA_IMAGE_MANIFEST),
        (lit "config", config.to_json), (lit "layers", .array (layers.map Descriptor.to_json))]) :=
      ⟨by simp only [List.map_cons, List.map_nil]; decide, trivial, trivial, config_fits, layers_fit, trivial⟩
    exact ⟨[], parses fits (by simp) written rfl rfl rfl rfl⟩
  | some manifest_bytes =>
    rw [original] at written
    obtain ⟨document, loaded, canonical⟩ := Monads.except_bind_ok.mp written
    obtain ⟨manifest, parsed⟩ := read manifest_bytes original
    obtain ⟨again, loaded', noted⟩ := manifest_annotations parsed
    obtain ⟨text, decoded, document_read⟩ := load_ok.mp loaded
    obtain ⟨text', decoded', again_read⟩ := load_ok.mp loaded'
    cases decoded.symm.trans decoded'
    cases document_read.symm.trans again_read
    have media_fits : Json.Fits images.python.float_repr (.string MEDIA_IMAGE_MANIFEST) := trivial
    have first := @Json.object_set _ (lit "mediaType") _ _ media_fits (load_fits loaded)
    have second := @Json.object_set _ (lit "config") _ _ config_fits first
    have fits := @Json.object_set _ (lit "layers") _ _ layers_fit second
    refine ⟨manifest.annotations, parses fits ?_ canonical ?_ ?_ ?_ ?_⟩
    next => exact List.ne_nil_of_mem (Json.set_field_member _ _ _)
    all_goals simp only [Json.lookup_set_field]
    next => rfl
    next => rfl
    next => rfl
    next => exact noted

end Manifests

/-! ## What is stored -/

/-- The entry is for a file of this content, called by the digest, which is the content's. -/
def FileOf {blake3 : Blake3} (sha256 : Sha256) (store : Objects blake3) (digest : Digest) (content : Bytes) (entry : TreeEntry) : Prop :=
  Digest.Valid digest ∧ Text.fromhex digest.encoded = some (sha256.digest content) ∧
    ∃ target, entry = blob_entry digest target content.length ∧ Filed store target content

theorem FileOf.within {blake3 : Blake3} {sha256 : Sha256} {store later : Objects blake3} {digest : Digest} {content : Bytes}
    {entry : TreeEntry} (file : FileOf sha256 store digest content entry) (within : store.Within later) :
    FileOf sha256 later digest content entry := by
  obtain ⟨valid, spells, target, same, filed⟩ := file
  exact ⟨valid, spells, target, same, filed.within within⟩

/-- Of the files there are, the manifest names a config and the layers that the config lists, and their sizes. -/
def Pullable (images : ImageIngester) (has : Digest → Bytes → Prop) (manifest_bytes : Bytes) : Prop :=
  ∃ manifest config_bytes, parse_manifest images.python manifest_bytes = .ok manifest ∧
    images.diff_ids config_bytes = .ok (manifest.layers.map Descriptor.digest) ∧
    (has manifest.config.digest config_bytes ∧ manifest.config.size = config_bytes.length) ∧
    ∀ layer ∈ manifest.layers, ∃ content, has layer.digest content ∧ layer.size = content.length

theorem Pullable.mono {images : ImageIngester} {has holds : Digest → Bytes → Prop} {manifest_bytes : Bytes}
    (pullable : Pullable images has manifest_bytes) (more : ∀ digest content, has digest content → holds digest content) :
    Pullable images holds manifest_bytes := by
  obtain ⟨manifest, config_bytes, parsed, listed, config, layers⟩ := pullable
  refine ⟨manifest, config_bytes, parsed, listed, ⟨more _ _ config.1, config.2⟩, fun layer member => ?_⟩
  obtain ⟨content, there, size⟩ := layers layer member
  exact ⟨content, more _ _ there, size⟩

section Stored

variable {images : ImageIngester} (spelled : images.ingester.corpus.Spelled images.ingester.blake3) {state after : ImportState}

/-- The row is for content of the digest that it has. -/
def RowOf (state : ImportState) (key : Bytes) (row : DigestRow) : Prop :=
  ∃ content, images.sha256.digest content = key ∧ row.size = content.length ∧ Filed (state.world.objects spelled) row.name content

theorem RowOf.within {key : Bytes} {row : DigestRow} (held : RowOf spelled state key row)
    (within : (state.world.objects spelled).Within (after.world.objects spelled)) : RowOf spelled after key row := by
  obtain ⟨content, digest, size, filed⟩ := held
  exact ⟨content, digest, size, filed.within within⟩

/-- Every row of the digest index is. -/
def Indexed (state : ImportState) : Prop := ∀ key row, state.digests[key]? = some row → RowOf spelled state key row

theorem Indexed.extends_ (indexed : Indexed spelled state) (extends_ : Extends state after) : Indexed spelled after := by
  intro key row found
  rw [extends_.digests] at found
  exact (indexed key row found).within spelled (extends_.within spelled)

theorem ingest_stream_adds (source : List Bytes) : Adds images.ingester.corpus (images.ingester.ingest_stream source) := by
  intro world
  rw [Ingester.ingest_stream]
  obtain ⟨names, ⟨error, ran⟩ | ⟨value, ran⟩⟩ := @write_stream_bills images.ingester source
  next =>
    rw [ran]
    exact puts_keep names
  next =>
    obtain ⟨counted, ran, -⟩ := ran .none world
    rw [ran]
    exact puts_keep names

theorem missing_adds (names : List ObjectName) : Adds images.ingester.corpus (missing names) := by
  refine .reads fun world => ?_
  obtain ⟨reported, ran, -⟩ := @runs_missing images.ingester.corpus world names
  rw [ran]

theorem adding_lookup (encoded : PyStr) : Adding (GitImporter.lookup encoded) := fun _ => Failing.triple_step fun _ extends_ => extends_

theorem adding_config (selected : SourceImage) (config_bytes : Bytes) : Adding (images.store_config selected config_bytes) :=
  (adding_except _).bind fun _ => (adding_bytes _).bind fun _ => adding_pure _

theorem adding_reuse (diff_id : Digest) : Adding (images.reuse diff_id) := by
  refine (adding_lookup _).bind fun hit => ?_
  cases hit with
  | none => exact adding_pure _
  | some hit => exact (adding_ledger (missing_adds _)).bind fun _ => adding_pure _

theorem adding_layer (source : ImageSource) (layer : SourceBlob) (diff_id : Digest) :
    Adding (images.store_layer source layer diff_id) := by
  refine (adding_reuse diff_id).bind fun hit => ?_
  cases hit with
  | some hit => exact adding_except _
  | none =>
    exact (adding_except _).bind fun raw => (adding_except _).bind fun compression => (adding_except _).bind fun content =>
      (adding_ledger (ingest_stream_adds _)).bind fun stored => (adding_except _).bind fun _ => adding_except _

theorem adding_ingest (source : ImageSource) (image : PyStr) (platform : Platform) (from_image : Option PyStr) :
    Adding (images.ingest source image platform from_image) := by
  have layers (pairs : List (SourceBlob × Digest)) : Adding (pairs.mapM fun pair => images.store_layer source pair.1 pair.2) :=
    Adding.mapM fun pair => adding_layer source pair.1 pair.2
  rw [ImageIngester.ingest]
  refine (adding_except _).bind fun selected => (adding_except _).bind fun config_bytes => (adding_config _ _).bind fun config => ?_
  refine (adding_except _).bind fun diff_ids => (adding_except _).bind fun _ => (layers _).bind fun outcomes => ?_
  exact (adding_except _).bind fun manifest_bytes => (adding_bytes _).bind fun stored => adding_pure _

/-! ### The config -/

theorem bytes_file {data : Bytes} {name : ObjectName} {stats : IngestStats}
    (ran : (ledger images.ingester (images.ingester.ingest_bytes data)).exec state = (.ok (name, stats), after)) :
    FileOf images.sha256 (after.world.objects spelled) (Digest.of images.sha256 data) data
      (blob_entry (Digest.of images.sha256 data) name data.length) :=
  ⟨digest_valid _ _, Text.fromhex_hex _, name, rfl, bytes_filed spelled ran⟩

theorem config_stored {selected : SourceImage} {config_bytes : Bytes} {stored : StoredBlob}
    (ran : (images.store_config selected config_bytes).exec state = (.ok stored, after)) :
    stored.descriptor = ⟨ImageIngester.config_media_type selected.config.media_type, Digest.of images.sha256 config_bytes, config_bytes.length, [], none⟩ ∧
      FileOf images.sha256 (after.world.objects spelled) (Digest.of images.sha256 config_bytes) config_bytes stored.entry := by
  obtain ⟨_, state₁, checks, rest⟩ := Failing.exec_bind_ok.mp ran
  obtain ⟨-, rfl⟩ := except_ran.mp checks
  obtain ⟨⟨name, stats⟩, state₂, stores, rest₂⟩ := Failing.exec_bind_ok.mp rest
  cases rest₂
  exact ⟨rfl, bytes_file spelled stores⟩

/-! ### The layers -/

/-- What is known of a layer that is stored. -/
structure LayerStored (state : ImportState) (diff_id : Digest) (stored : StoredLayer) : Prop where
  digest : stored.descriptor.digest = diff_id
  tidy : stored.descriptor.Tidy ∧ stored.descriptor.normal = stored.descriptor
  file : ∃ content, FileOf images.sha256 (state.world.objects spelled) diff_id content stored.entry ∧
    stored.descriptor.size = content.length
  row : stored.digest_entry.1 = diff_id.encoded ∧
    ∃ key, Text.fromhex diff_id.encoded = some key ∧ RowOf spelled state key stored.digest_entry.2

theorem LayerStored.within {diff_id : Digest} {stored : StoredLayer} (layer : LayerStored spelled state diff_id stored)
    (within : (state.world.objects spelled).Within (after.world.objects spelled)) : LayerStored spelled after diff_id stored := by
  obtain ⟨digest, tidy, ⟨content, file, size⟩, named, key, spells, held⟩ := layer
  exact ⟨digest, tidy, ⟨content, file.within within, size⟩, named, key, spells, held.within spelled within⟩

theorem annotations_tidy (layer : SourceBlob) (diff_id : Digest) : Tidy (ImageIngester.compressed_annotations layer diff_id) := by
  rw [ImageIngester.compressed_annotations]
  split
  next => exact ⟨List.nodup_nil, .nil⟩
  next digest =>
    split_ifs
    next => exact ⟨List.nodup_nil, .nil⟩
    next =>
      refine ⟨((List.perm_insertionSort _ _).map Prod.fst).nodup_iff.mpr ?_, sorted_by id _⟩
      simp only [List.map_cons, List.map_nil]
      decide

/-- A layer is described as what is stored of it. -/
theorem layer_described {layer : SourceBlob} {diff_id : Digest} {name : ObjectName} {content : Bytes} {stats : IngestStats}
    {reused : Bool}
    {stored : StoredLayer} (described : ImageIngester.describe_layer layer diff_id name content.length stats reused = .ok stored)
    (valid : Digest.Valid diff_id) (spells : Text.fromhex diff_id.encoded = some (images.sha256.digest content))
    (filed : Filed (state.world.objects spelled) name content) : LayerStored spelled state diff_id stored := by
  obtain ⟨media_type, -, made⟩ := Monads.except_bind_ok.mp described
  obtain rfl := Except.ok.inj made
  exact ⟨rfl, ⟨⟨valid, annotations_tidy layer diff_id⟩, rfl⟩, ⟨content, ⟨valid, spells, name, rfl, filed⟩, rfl⟩, rfl,
    _, spells, content, rfl, rfl, filed⟩

/-- A row is only used for the digest that it is for. -/
theorem reuse_found {diff_id : Digest} {hit : DigestRow} (ran : (images.reuse diff_id).exec state = (.ok (some hit), after)) :
    ∃ key, Text.fromhex diff_id.encoded = some key ∧ state.digests[key]? = some hit := by
  obtain ⟨found, state₁, looks, rest⟩ := Failing.exec_bind_ok.mp ran
  obtain ⟨same, rfl⟩ := Prod.mk.inj looks
  cases found with
  | none => cases rest
  | some row =>
    obtain ⟨absent, state₂, checked, rest₂⟩ := Failing.exec_bind_ok.mp rest
    obtain ⟨returned, -⟩ := Prod.mk.inj rest₂
    have kept : (if absent = ∅ then some row else none) = some hit := Except.ok.inj returned
    split_ifs at kept
    obtain rfl := Option.some.inj kept
    exact Option.bind_eq_some_iff.mp (Except.ok.inj same)

theorem layer_stored {source : ImageSource} {layer : SourceBlob} {diff_id : Digest} {stored : StoredLayer}
    (indexed : Indexed spelled state)
    (valid : Digest.Valid diff_id) (ran : (images.store_layer source layer diff_id).exec state = (.ok stored, after)) :
    LayerStored spelled after diff_id stored := by
  obtain ⟨hit, state₁, reuses, rest⟩ := Failing.exec_bind_ok.mp ran
  cases hit with
  | some hit =>
    -- nothing was read: the row says what the content is
    obtain ⟨key, spells, found⟩ := reuse_found reuses
    obtain ⟨described, rfl⟩ := except_ran.mp rest
    obtain ⟨content, digest, size, filed⟩ := indexed key hit found
    rw [size] at described
    have later := filed.within (((adding_reuse diff_id).ran reuses).within spelled)
    exact layer_described spelled described valid (spells.trans (congrArg some digest.symm)) later
  | none =>
    obtain ⟨raw, state₂, opens, rest₂⟩ := Failing.exec_bind_ok.mp rest
    obtain ⟨-, rfl⟩ := except_ran.mp opens
    obtain ⟨compression, state₃, typed, rest₃⟩ := Failing.exec_bind_ok.mp rest₂
    obtain ⟨-, rfl⟩ := except_ran.mp typed
    obtain ⟨content, state₄, unwraps, rest₄⟩ := Failing.exec_bind_ok.mp rest₃
    obtain ⟨-, rfl⟩ := except_ran.mp unwraps
    obtain ⟨⟨name, stats⟩, state₅, stores, rest₅⟩ := Failing.exec_bind_ok.mp rest₄
    obtain ⟨_, state₆, checks, rest₆⟩ := Failing.exec_bind_ok.mp rest₅
    obtain ⟨checked, rfl⟩ := except_ran.mp checks
    obtain ⟨described, rfl⟩ := except_ran.mp rest₆
    -- the check is on what was read, and that is what was stored
    have digest : Digest.of images.sha256 content = diff_id := ensure_ok.mp checked
    have spells : Text.fromhex diff_id.encoded = some (images.sha256.digest content) := digest ▸ Text.fromhex_hex _
    have filed := (@write_file_filed images.ingester spelled content (.none, state₄.world) (stats, after.world) name (ledger_ran stores).1).2
    exact layer_described spelled described valid spells filed

theorem layers_stored {source : ImageSource} {pairs : List (SourceBlob × Digest)} {outcomes : List StoredLayer}
    (indexed : Indexed spelled state) (valid : ∀ pair ∈ pairs, Digest.Valid pair.2)
    (ran : (pairs.mapM fun pair => images.store_layer source pair.1 pair.2).exec state = (.ok outcomes, after)) :
    List.Forall₂ (fun pair stored => LayerStored spelled after pair.2 stored) pairs outcomes := by
  induction pairs generalizing state outcomes with
  | nil =>
    cases ran
    exact .nil
  | cons pair pairs ih =>
    obtain ⟨own, others⟩ := List.forall_mem_cons.mp valid
    rw [List.mapM_cons] at ran
    obtain ⟨stored, state₁, first, rest⟩ := Failing.exec_bind_ok.mp ran
    obtain ⟨later, state₂, round, rest₂⟩ := Failing.exec_bind_ok.mp rest
    cases rest₂
    have step := (adding_layer source pair.1 pair.2).ran first
    have steps := (Adding.mapM fun pair : SourceBlob × Digest => adding_layer source pair.1 pair.2).ran round
    exact .cons ((layer_stored spelled indexed own first).within spelled (steps.within spelled))
      (ih (indexed.extends_ spelled step) others round)

theorem layers_digests {pairs : List (SourceBlob × Digest)} {outcomes : List StoredLayer}
    (layers : List.Forall₂ (fun pair stored => LayerStored spelled state pair.2 stored) pairs outcomes) :
    outcomes.map (fun outcome => outcome.descriptor.digest) = pairs.map Prod.snd := by
  induction layers with
  | nil => rfl
  | cons layer _ ih => rw [List.map_cons, List.map_cons, ih, layer.digest]

end Stored

/-! ### The image -/

section Whole

variable {images : ImageIngester} (spelled : images.ingester.corpus.Spelled images.ingester.blake3) {state after : ImportState}

/-- What is known of an image that is stored. -/
structure Ingested (state : ImportState) (ingested : IngestedImage) : Prop where
  tidy : ingested.descriptor.Tidy
  digest : ingested.descriptor.digest = Digest.of images.sha256 ingested.manifest_bytes
  size : ingested.descriptor.size = ingested.manifest_bytes.length
  honest : ∀ entry ∈ ingested.blob_entries, ∃ digest content, FileOf images.sha256 (state.world.objects spelled) digest content entry
  manifest : ∃ entry ∈ ingested.blob_entries,
    FileOf images.sha256 (state.world.objects spelled) ingested.descriptor.digest ingested.manifest_bytes entry
  pullable : Pullable images (fun digest content => ∃ entry ∈ ingested.blob_entries,
    FileOf images.sha256 (state.world.objects spelled) digest content entry) ingested.manifest_bytes
  rows : ∀ row ∈ ingested.digest_entries, ∃ key, Text.fromhex row.1 = some key ∧ RowOf spelled state key row.2

theorem parsed_all {α : Type} {parse : α → Except PyError Digest} (valid : ∀ item digest, parse item = .ok digest → Digest.Valid digest)
    {items : List α} {digests : List Digest} (parsed : items.mapM parse = .ok digests) : ∀ digest ∈ digests, Digest.Valid digest := by
  induction items generalizing digests with
  | nil =>
    cases parsed
    exact fun _ impossible => by cases impossible
  | cons item items ih =>
    rw [List.mapM_cons] at parsed
    obtain ⟨digest, first, rest⟩ := Monads.except_bind_ok.mp parsed
    obtain ⟨others, later, returned⟩ := Monads.except_bind_ok.mp rest
    obtain rfl := Except.ok.inj returned
    exact List.forall_mem_cons.mpr ⟨valid item digest first, ih later⟩

theorem diff_ids_valid {config_bytes : Bytes} {digests : List Digest} (listed : images.diff_ids config_bytes = .ok digests) :
    ∀ digest ∈ digests, Digest.Valid digest := by
  obtain ⟨document, -, listed⟩ := Monads.except_bind_ok.mp listed
  split at listed
  next =>
    split at listed
    next =>
      split at listed
      next => exact parsed_all (fun _ _ parsed => parsed_valid parsed) listed
      next => cases listed
    next => cases listed
  next => cases listed

/-- An image that is ingested is all there. -/
theorem image_ingested {source : ImageSource} {image : PyStr} {platform : Platform} {from_image : Option PyStr} {ingested : IngestedImage}
    (indexed : Indexed spelled state) (parses : ∀ selected, source.select from_image platform = .ok selected →
      ∀ data, selected.manifest_bytes = some data → ∃ manifest, parse_manifest images.python data = .ok manifest)
    (ran : (images.ingest source image platform from_image).exec state = (.ok ingested, after)) : Ingested spelled after ingested := by
  obtain ⟨selected, state₁, selects, rest₁⟩ := Failing.exec_bind_ok.mp ran
  obtain ⟨selected_so, rfl⟩ := except_ran.mp selects
  obtain ⟨config_bytes, state₂, reads, rest₂⟩ := Failing.exec_bind_ok.mp rest₁
  obtain ⟨-, rfl⟩ := except_ran.mp reads
  obtain ⟨config, state₃, configs, rest₃⟩ := Failing.exec_bind_ok.mp rest₂
  obtain ⟨diff_ids, state₄, lists, rest₄⟩ := Failing.exec_bind_ok.mp rest₃
  obtain ⟨listed, rfl⟩ := except_ran.mp lists
  obtain ⟨_, state₅, counts, rest₅⟩ := Failing.exec_bind_ok.mp rest₄
  obtain ⟨counted, rfl⟩ := except_ran.mp counts
  obtain ⟨outcomes, state₆, rounds, rest₆⟩ := Failing.exec_bind_ok.mp rest₅
  obtain ⟨manifest_bytes, state₇, rewrites, rest₇⟩ := Failing.exec_bind_ok.mp rest₆
  obtain ⟨written, rfl⟩ := except_ran.mp rewrites
  obtain ⟨⟨name, stats⟩, state₈, stores, rest₈⟩ := Failing.exec_bind_ok.mp rest₇
  cases rest₈
  -- each step only adds, so what it stored is there at the end
  have first := (adding_config _ _).ran configs
  have second := (Adding.mapM fun pair : SourceBlob × Digest => adding_layer source pair.1 pair.2).ran rounds
  have third := (adding_bytes _).ran stores
  have valid := diff_ids_valid listed
  obtain ⟨described, config_file⟩ := config_stored spelled configs
  have layers := layers_stored spelled (indexed.extends_ spelled first)
    (fun pair member => valid pair.2 (List.of_mem_zip (show (pair.1, pair.2) ∈ _ from member)).2) rounds
  have stored (outcome : StoredLayer) (member : outcome ∈ outcomes) : ∃ diff_id, LayerStored spelled after diff_id outcome := by
    obtain ⟨pair, -, layer⟩ := exists_left layers member
    exact ⟨pair.2, layer.within spelled (third.within spelled)⟩
  have digests : outcomes.map (fun outcome => outcome.descriptor.digest) = diff_ids := by
    rw [layers_digests spelled layers, List.map_snd_zip (ensure_ok.mp counted).le]
  have config_there := config_file.within ((second.trans third).within spelled)
  have manifest_there := bytes_file spelled stores
  have tidy : ∀ descriptor ∈ config.descriptor :: outcomes.map (fun outcome => outcome.descriptor),
      descriptor.Tidy ∧ descriptor.normal = descriptor := by
    refine List.forall_mem_cons.mpr ⟨?_, fun descriptor member => ?_⟩
    next =>
      rw [described]
      exact ⟨⟨digest_valid _ _, List.nodup_nil, .nil⟩, rfl⟩
    next =>
      obtain ⟨outcome, there, rfl⟩ := List.mem_map.mp member
      obtain ⟨diff_id, layer⟩ := stored outcome there
      exact layer.tidy
  obtain ⟨annotations, parsed⟩ := manifest_rewritten (parses selected selected_so) tidy written
  have blobs (entry : TreeEntry) : entry ∈ config.entry :: outcomes.map (fun outcome => outcome.entry) ++
      [blob_entry (Digest.of images.sha256 manifest_bytes) name manifest_bytes.length] ↔
      entry = config.entry ∨ (∃ outcome ∈ outcomes, outcome.entry = entry) ∨
        entry = blob_entry (Digest.of images.sha256 manifest_bytes) name manifest_bytes.length := by
    simp only [List.cons_append, List.mem_cons, List.mem_append, List.mem_map, List.not_mem_nil, or_false]
  refine ⟨⟨digest_valid _ _, List.nodup_nil, .nil⟩, rfl, rfl, fun entry member => ?_, ?_, ?_, fun row member => ?_⟩
  next =>
    rcases (blobs entry).mp member with rfl | ⟨outcome, there, rfl⟩ | rfl
    next => exact ⟨_, _, config_there⟩
    next =>
      obtain ⟨diff_id, layer⟩ := stored outcome there
      obtain ⟨content, file, -⟩ := layer.file
      exact ⟨diff_id, content, file⟩
    next => exact ⟨_, _, manifest_there⟩
  next => exact ⟨_, (blobs _).mpr (.inr (.inr rfl)), manifest_there⟩
  next =>
    refine ⟨_, config_bytes, parsed, ?_, ⟨⟨config.entry, (blobs _).mpr (.inl rfl), ?_⟩, ?_⟩, fun layer member => ?_⟩
    next =>
      rw [listed, List.map_map]
      exact congrArg Except.ok digests.symm
    next =>
      rw [described]
      exact config_there
    next => rw [described]
    next =>
      obtain ⟨outcome, there, rfl⟩ := List.mem_map.mp member
      obtain ⟨diff_id, known⟩ := stored outcome there
      obtain ⟨content, file, size⟩ := known.file
      rw [known.digest]
      exact ⟨content, ⟨outcome.entry, (blobs _).mpr (.inr (.inl ⟨outcome, there, rfl⟩)), file⟩, size⟩
  next =>
    obtain ⟨outcome, there, rfl⟩ := List.mem_map.mp member
    obtain ⟨diff_id, known⟩ := stored outcome there
    rw [known.row.1]
    exact known.row.2

end Whole

end Oci

end LedgerVcs
