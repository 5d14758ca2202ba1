import LedgerVcs.Oci.Images

set_option autoImplicit false

/-! Images are pulled from any version that has them. -/

namespace LedgerVcs

open Align (named)
open Text (PyStr lit)
open Wire (Bytes)

namespace Oci

/-! ## Versions -/

/-- A tree, and the images that were added on the way to it. -/
structure Version where
  tree : ObjectName
  images : PyStr → Option IngestedImage

/-- What there is before anything is added to it. -/
def tree_of (base : Option Version) : Option ObjectName := base.map Version.tree

def images_of (base : Option Version) : PyStr → Option IngestedImage := base.elim (fun _ => none) Version.images

section Versions

variable (images : ImageIngester) (spelled : images.ingester.corpus.Spelled images.ingester.blake3)

/-- The states that there can be, with the versions so far. The recursion in `add_image` goes as deep as it has to. -/
inductive Run : ImportState → List Version → Prop
  | start {state : ImportState} (bare : state.digests = ∅) : Run state []
  /-- An image is added to a version, or to nothing. -/
  | added {state after : ImportState} {versions : List Version} {base : Option Version} {files : Files} {image : PyStr}
    {wanted : Platform} {from_image : Option PyStr} {tree : ObjectName} {stats : IngestStats} {ingested : IngestedImage}
    (run : Run state versions) (known : ∀ version ∈ base, version ∈ versions)
    (ran : ∃ enough, ∀ depth, enough ≤ depth →
      (add_image images spelled depth files image wanted from_image (tree_of base)).exec state = (.ok (tree, stats, ingested), after)) :
    Run after (⟨tree, Function.update (images_of base) image (some ingested)⟩ :: versions)
  /-- Adding an image fails. -/
  | failed {state after : ImportState} {versions : List Version} {base : Option ObjectName} {files : Files} {image : PyStr}
    {wanted : Platform} {from_image : Option PyStr} {error : PyError} {depth : Nat} (run : Run state versions)
    (ran : (add_image images spelled depth files image wanted from_image base).exec state = (.error error, after)) : Run after versions
  /-- Something else is stored, and rows are forgotten. -/
  | meanwhile {state after : ImportState} {versions : List Version} (run : Run state versions)
    (grows : (state.world.objects spelled).Within (after.world.objects spelled))
    (rows : ∀ (key : Bytes) (row : DigestRow), after.digests[key]? = some row → state.digests[key]? = some row) : Run after versions
  /-- There is a version with the images of another. -/
  | edited {state : ImportState} {versions : List Version} {version : Version} {tree : ObjectName} {entry : Option TreeEntry}
    (run : Run state versions) (known : version ∈ versions)
    (before : Rooting (state.world.objects spelled) images.ingester.shape_params version.tree entry)
    (now : Rooting (state.world.objects spelled) images.ingester.shape_params tree entry) : Run state (⟨tree, version.images⟩ :: versions)
  /-- There is a version without images. -/
  | plain {state : ImportState} {versions : List Version} {tree : ObjectName} (run : Run state versions)
    (now : Rooting (state.world.objects spelled) images.ingester.shape_params tree none) : Run state (⟨tree, fun _ => none⟩ :: versions)

end Versions

/-! ## What a version holds -/

section Holding

variable {blake3 : Blake3} {python : Python} {store later : Objects blake3} {params : ShapeParams} {root : ObjectName}
  {index : ImageIndex}
  {blobs : List TreeEntry}

/-- The tree has the index and the blobs of its layout, or there are none. -/
inductive Holding (python : Python) (store : Objects blake3) (params : ShapeParams) (root : ObjectName) : ImageIndex → List TreeEntry → Prop
  | bare (rooting : Rooting store params root none) : Holding python store params root .empty []
  | laid {images : ObjectName} {index_bytes : Bytes} {index : ImageIndex} {blobs : List TreeEntry}
    (rooting : Rooting store params root (some (tree_entry IMAGES_DIR images))) (laid : Laid store params images index_bytes blobs)
    (parsed : parse_index python index_bytes = .ok index) : Holding python store params root index blobs

theorem Holding.within (holding : Holding python store params root index blobs) (within : store.Within later) :
    Holding python later params root index blobs := by
  cases holding with
  | bare rooting => exact .bare (rooting.within within)
  | laid rooting laid parsed => exact .laid (rooting.within within) (laid.within within) parsed

theorem Holding.rooting (holding : Holding python store params root index blobs) : ∃ entry, Rooting store params root entry := by
  cases holding with
  | bare rooting => exact ⟨none, rooting⟩
  | laid rooting => exact ⟨_, rooting⟩

/-- Only the entry for the images matters. -/
theorem Holding.moved {other : ObjectName} {entry : Option TreeEntry} (holding : Holding python store params root index blobs)
    (before : Rooting store params root entry) (now : Rooting store params other entry) :
    Holding python store params other index blobs := by
  cases holding with
  | bare rooting =>
    -- a root has one entry of the name
    rw [before.unique rooting] at now
    exact .bare now
  | laid rooting laid parsed =>
    rw [before.unique rooting] at now
    exact .laid now laid parsed

theorem Holding.read (holding : Holding python store params root index blobs) :
    ∃ enough, ∀ depth, enough ≤ depth → read_layout python store depth root = .ok ⟨index, blobs⟩ := by
  cases holding with
  | bare rooting =>
    refine ⟨LEVELS, fun depth deep => ?_⟩
    obtain ⟨reads, lists⟩ := @empty_read _ _ _ _ python rooting depth deep
    simp only [read_layout, reads, lists, bind, Except.bind]
    rfl
  | laid rooting laid parsed =>
    obtain ⟨enough, layout⟩ := layout_read rooting laid parsed
    refine ⟨enough, fun depth deep => ?_⟩
    simp only [read_layout, (layout depth deep).1, (layout depth deep).2, bind, Except.bind]
    rfl

theorem Holding.index_read (holding : Holding python store params root index blobs) :
    ∃ enough, ∀ depth, enough ≤ depth → read_index python store depth root = .ok index := by
  obtain ⟨enough, reads⟩ := holding.read
  refine ⟨enough, fun depth deep => ?_⟩
  obtain ⟨found, read, rest⟩ := Monads.except_bind_ok.mp (reads depth deep)
  obtain ⟨entries, -, made⟩ := Monads.except_bind_ok.mp rest
  exact read.trans (congrArg Except.ok (congrArg ImageLayout.index (Except.ok.inj made)))

theorem Holding.blob (holding : Holding python store params root index blobs) {depth : Nat} (deep : LEVELS ≤ depth) {digest : Digest}
    (valid : Digest.Valid digest) :
    resolved store depth root (blob_path digest) = .ok (named TreeEntry.name blobs (ascii digest.encoded)) := by
  cases holding with
  | bare rooting =>
    obtain ⟨encoded, parsed⟩ := blob_path_parsed valid
    exact nothing_resolved rooting deep encoded parsed
  | laid rooting laid parsed => exact blob_resolved rooting laid deep valid

/-- A pull of the blob is answered with its size and its content, which has the digest. -/
def Served (sha256 : Sha256) (store : Objects blake3) (root : ObjectName) (digest : Digest) (content : Bytes) : Prop :=
  Text.fromhex digest.encoded = some (sha256.digest content) ∧ ∃ entry : TreeEntry, entry.size = content.length ∧
    ∃ enough, ∀ depth, enough ≤ depth → find_blob store depth root digest = .ok (some entry) ∧
      read_file store depth root (blob_path digest) = .ok (some content)

theorem Holding.serves {sha256 : Sha256} {digest : Digest} {content : Bytes} (holding : Holding python store params root index blobs)
    (listed : Listed sha256 store blobs digest content) : Served sha256 store root digest content := by
  obtain ⟨entry, found, valid, spells, target, rfl, filed⟩ := listed
  obtain ⟨enough, reads⟩ := @read_file_filed _ store root (blob_path digest) (blob_entry digest target content.length) content rfl filed
  refine ⟨spells, blob_entry digest target content.length, rfl, max enough LEVELS, fun depth deep => ?_⟩
  have there := holding.blob (le_trans (le_max_right _ _) deep) valid
  rw [found] at there
  refine ⟨?_, reads depth (le_trans (le_max_left _ _) deep) there⟩
  simp only [find_blob, there, bind, Except.bind]
  rfl

end Holding

section Pinning

variable {images : ImageIngester} (spelled : images.ingester.corpus.Spelled images.ingester.blake3) {state after : ImportState}

/-- What a pull of the image is answered with. -/
def shown (image : PyStr) (ingested : IngestedImage) : Descriptor := (ingested.descriptor.annotated REF_NAME_ANNOTATION image).normal

/-- The image is among the blobs. -/
structure Kept (state : ImportState) (blobs : List TreeEntry) (ingested : IngestedImage) : Prop where
  digest : ingested.descriptor.digest = Digest.of images.sha256 ingested.manifest_bytes
  manifest : Listed images.sha256 (state.world.objects spelled) blobs ingested.descriptor.digest ingested.manifest_bytes
  pullable : Pullable images (Listed images.sha256 (state.world.objects spelled) blobs) ingested.manifest_bytes

/-- The version has its images in the index, and what these need in the blobs. -/
structure Pinned (state : ImportState) (version : Version) (index : ImageIndex) (blobs : List TreeEntry) : Prop where
  holding : Holding images.python (state.world.objects spelled) images.ingester.shape_params version.tree index blobs
  sound : index.Sound
  honest : ∀ entry ∈ blobs, ∃ digest content, FileOf images.sha256 (state.world.objects spelled) digest content entry
  names : ∀ image, index.named image = (version.images image).map (shown image)
  kept : ∀ image ingested, version.images image = some ingested → Kept spelled state blobs ingested

variable {version : Version} {index : ImageIndex} {blobs : List TreeEntry} {spelled}

theorem Pinned.within (pinned : Pinned spelled state version index blobs)
    (within : (state.world.objects spelled).Within (after.world.objects spelled)) : Pinned spelled after version index blobs := by
  refine ⟨pinned.holding.within within, pinned.sound, fun entry member => ?_, pinned.names, fun image ingested held => ?_⟩
  next =>
    obtain ⟨digest, content, file⟩ := pinned.honest entry member
    exact ⟨digest, content, file.within within⟩
  next =>
    obtain ⟨digest, manifest, pullable⟩ := pinned.kept image ingested held
    exact ⟨digest, manifest.within within, pullable.mono fun _ _ listed => listed.within within⟩

theorem bare_pinned {tree : ObjectName} (rooting : Rooting (state.world.objects spelled) images.ingester.shape_params tree none) :
    Pinned spelled state ⟨tree, fun _ => none⟩ .empty [] where
  holding := .bare rooting
  sound := ⟨⟨fun _ impossible => (List.not_mem_nil impossible).elim, List.nodup_nil, .nil⟩, fun _ impossible => (List.not_mem_nil impossible).elim,
    List.nodup_nil⟩
  honest _ impossible := (List.not_mem_nil impossible).elim
  names _ := rfl
  kept _ _ impossible := by cases impossible

/-- The blobs of the version are still there, and the image's are there too. -/
theorem Pinned.listed (pinned : Pinned spelled state version index blobs) {ingested : IngestedImage}
    (stored : Ingested spelled state ingested) (unconfused : Unconfused images.sha256 (state.world.objects spelled)) :
    (∀ entry ∈ blobs ++ ingested.blob_entries, ∃ digest content, FileOf images.sha256 (state.world.objects spelled) digest content entry) ∧
    (∀ digest content, Listed images.sha256 (state.world.objects spelled) blobs digest content →
      Listed images.sha256 (state.world.objects spelled) (by_name (blobs ++ ingested.blob_entries)) digest content) ∧
    ∀ digest content, (∃ entry ∈ ingested.blob_entries, FileOf images.sha256 (state.world.objects spelled) digest content entry) →
      Listed images.sha256 (state.world.objects spelled) (by_name (blobs ++ ingested.blob_entries)) digest content := by
  have honest : ∀ entry ∈ blobs ++ ingested.blob_entries, ∃ digest content,
      FileOf images.sha256 (state.world.objects spelled) digest content entry :=
    fun entry member => (List.mem_append.mp member).elim (pinned.honest entry) (stored.honest entry)
  refine ⟨honest, fun digest content listed => ?_, fun digest content there => ?_⟩
  next =>
    obtain ⟨entry, found, file⟩ := listed
    exact listed_by_name unconfused honest (List.mem_append_left _ (named_some found).1) file
  next =>
    obtain ⟨entry, member, file⟩ := there
    exact listed_by_name unconfused honest (List.mem_append_right _ member) file

/-- A version with an image more is pinned where the version that it was added to is. -/
theorem image_pinned {base : Option Version} {files : Files} {image : PyStr} {wanted : Platform} {from_image : Option PyStr}
    {tree : ObjectName} {stats : IngestStats} {ingested : IngestedImage} (indexed : Indexed spelled state)
    (pinned : ∀ version ∈ base, ∃ index blobs, Pinned spelled state version index blobs)
    (unconfused : Unconfused images.sha256 (after.world.objects spelled))
    (ran : ∃ enough, ∀ depth, enough ≤ depth →
      (add_image images spelled depth files image wanted from_image (tree_of base)).exec state = (.ok (tree, stats, ingested), after)) :
    ∃ index blobs, Pinned spelled after ⟨tree, Function.update (images_of base) image (some ingested)⟩ index blobs := by
  obtain ⟨enough, runs⟩ := ran
  obtain ⟨root, middle, ingests, -⟩ := image_added spelled (runs enough le_rfl)
  obtain ⟨fine, stored⟩ : Fine spelled state middle ∧ Ingested spelled middle ingested := by
    have met := ingested_fine spelled files image wanted from_image (tree_of base) state (Fine.refl spelled indexed)
    rwa [ingests] at met
  -- the version that it is added to, as it stands once the image is stored
  have known : ∃ index blobs, Pinned spelled middle ⟨root, images_of base⟩ index blobs := by
    rcases root_made spelled ingests with same | ⟨same, empty⟩
    next =>
      cases base with
      | none => cases same
      | some version =>
        obtain rfl := Option.some.inj same
        obtain ⟨index, blobs, held⟩ := pinned version rfl
        exact ⟨index, blobs, held.within fine.within⟩
    next =>
      cases base with
      | none => exact ⟨.empty, [], bare_pinned ⟨[], empty, rfl⟩⟩
      | some version => cases same
  obtain ⟨index, blobs, known⟩ := known
  -- deep enough for what is read of the layout too
  obtain ⟨deep, reads⟩ := known.holding.read
  obtain ⟨root', middle', ingests', existing, entry, layout_stats, written, later, edited, read, builds, sets⟩ :=
    image_added spelled (runs (max enough (max deep LEVELS)) (le_max_left _ _))
  cases ingests.symm.trans ingests'
  cases (reads _ (le_trans (le_max_left _ _) (le_max_right _ _))).symm.trans read
  have laying := (adding_images_entry _ _).ran builds
  have editing := (adding_set _ _ _).ran sets
  have within := (laying.trans editing).within spelled
  obtain ⟨layout, index_bytes, rfl, encoded, laid⟩ := images_entry_laid spelled builds
  obtain ⟨old, rooting⟩ := (known.holding.within (laying.within spelled)).rooting
  have rooted := set_images (le_trans (le_max_right _ _) (le_max_right _ _)) rooting sets
  have tidy := with_image_tidy image ingested.descriptor known.sound.toTidy stored.tidy
  have parsed : parse_index images.python index_bytes = .ok (index.with_image image ingested.descriptor).normal := index_read tidy encoded
  obtain ⟨honest, old_listed, new_listed⟩ := known.listed stored (unconfused.within within)
  refine ⟨_, _, .laid rooted (laid.within (editing.within spelled)) parsed, tidy.sound (with_image_distinct image _ known.sound.distinct),
    fun entry member => ?_, fun other => ?_, fun other held there => ?_⟩
  next =>
    obtain ⟨digest, content, file⟩ := honest entry (mem_by_name member)
    exact ⟨digest, content, file.within within⟩
  next =>
    rw [normal_named, with_image_named image _ known.sound.distinct]
    simp only [Function.update_apply]
    split_ifs
    next same => rw [same]; rfl
    next =>
      rw [← known.names other]
      cases found : index.named other with
      | none => rfl
      | some descriptor => exact congrArg some (known.sound.plain descriptor (List.mem_of_find?_eq_some found))
  next =>
    simp only [Function.update_apply] at there
    split_ifs at there
    next =>
      -- the name is the new image's
      obtain rfl := Option.some.inj there
      exact ⟨stored.digest, (new_listed _ _ stored.manifest).within within,
        stored.pullable.mono fun _ _ file => (new_listed _ _ file).within within⟩
    next =>
      -- any other image has its own name, and its blobs are still listed
      obtain ⟨digest, manifest, pullable⟩ := known.kept other held there
      exact ⟨digest, (old_listed _ _ manifest).within within, pullable.mono fun _ _ listed => (old_listed _ _ listed).within within⟩

/-! ## Over a run -/

/-- Every version is pinned. -/
def AllPinned (spelled : images.ingester.corpus.Spelled images.ingester.blake3) (state : ImportState) (versions : List Version) : Prop :=
  ∀ version ∈ versions, ∃ index blobs, Pinned spelled state version index blobs

theorem AllPinned.within {versions : List Version} (pinned : AllPinned spelled state versions)
    (within : (state.world.objects spelled).Within (after.world.objects spelled)) : AllPinned spelled after versions := by
  intro version member
  obtain ⟨index, blobs, held⟩ := pinned version member
  exact ⟨index, blobs, held.within within⟩

theorem run_pinned {versions : List Version} (run : Run images spelled state versions) :
    Indexed spelled state ∧ (Unconfused images.sha256 (state.world.objects spelled) → AllPinned spelled state versions) := by
  induction run with
  | start bare =>
    refine ⟨fun key row found => ?_, fun _ _ impossible => by cases impossible⟩
    rw [bare] at found
    simp at found
  | added run known ran ih =>
    obtain ⟨indexed, pinned⟩ := ih
    obtain ⟨enough, runs⟩ := id ran
    have fine := add_ran spelled indexed (runs enough le_rfl)
    refine ⟨fine.indexed, fun unconfused => ?_⟩
    -- there were fewer contents before, so none were confused
    have before := pinned (unconfused.within fine.within)
    exact List.forall_mem_cons.mpr ⟨image_pinned indexed (fun version there => before version (known version there)) unconfused ran,
      before.within fine.within⟩
  | failed run ran ih =>
    have fine := add_ran spelled ih.1 ran
    exact ⟨fine.indexed, fun unconfused => (ih.2 (unconfused.within fine.within)).within fine.within⟩
  | meanwhile run grows rows ih =>
    -- rows that are left are rows there were
    exact ⟨fun key row found => (ih.1 key row (rows key row found)).within spelled grows,
      fun unconfused => (ih.2 (unconfused.within grows)).within grows⟩
  | edited run known before now ih =>
    refine ⟨ih.1, fun unconfused => List.forall_mem_cons.mpr ⟨?_, ih.2 unconfused⟩⟩
    obtain ⟨index, blobs, held⟩ := ih.2 unconfused _ known
    exact ⟨index, blobs, held.holding.moved before now, held.sound, held.honest, held.names, held.kept⟩
  | plain run now ih => exact ⟨ih.1, fun unconfused => List.forall_mem_cons.mpr ⟨⟨.empty, [], bare_pinned now⟩, ih.2 unconfused⟩⟩

end Pinning

/-- An image stays pullable from every version that it was added to, or that came of one: its manifest, its config and its layers. -/
theorem images_stay_pullable {images : ImageIngester} (spelled : images.ingester.corpus.Spelled images.ingester.blake3)
    {state : ImportState} {versions : List Version} (run : Run images spelled state versions)
    (unconfused : Unconfused images.sha256 (state.world.objects spelled)) {version : Version} (member : version ∈ versions)
    (image : PyStr) :
    (∃ enough, ∀ depth, enough ≤ depth → find_manifest images.python (state.world.objects spelled) depth version.tree image =
      .ok ((version.images image).map fun ingested => (shown image ingested, ingested.manifest_bytes))) ∧
    ∀ ingested, version.images image = some ingested →
      ingested.descriptor.digest = Digest.of images.sha256 ingested.manifest_bytes ∧
        Pullable images (Served images.sha256 (state.world.objects spelled) version.tree) ingested.manifest_bytes := by
  obtain ⟨index, blobs, pinned⟩ := (run_pinned run).2 unconfused version member
  obtain ⟨enough, reads⟩ := pinned.holding.index_read
  constructor
  next =>
    cases held : version.images image with
    | none =>
      refine ⟨enough, fun depth deep => ?_⟩
      simp only [find_manifest, reads depth deep, bind, Except.bind, pinned.names, held, Option.map_none]
      rfl
    | some ingested =>
      obtain ⟨-, entry, -, further, serves⟩ := pinned.holding.serves (pinned.kept image ingested held).manifest
      refine ⟨max enough further, fun depth deep => ?_⟩
      have read := (serves depth (le_trans (le_max_right _ _) deep)).2
      have same : (shown image ingested).digest = ingested.descriptor.digest := rfl
      simp only [find_manifest, reads depth (le_trans (le_max_left _ _) deep), bind, Except.bind, pinned.names, held, Option.map_some, same, read]
      rfl
  next =>
    intro ingested held
    obtain ⟨digest, -, pullable⟩ := pinned.kept image ingested held
    exact ⟨digest, pullable.mono fun _ _ listed => pinned.holding.serves listed⟩

/-! ### An image of one layer -/

def soloLayer : Bytes := [0x61, 0x62]

def soloLayerDigest : Bytes := [
  0xfb, 0x8e, 0x20, 0xfc, 0x2e, 0x4c, 0x3f, 0x24, 0x8c, 0x60, 0xc3, 0x9b, 0xd6, 0x52, 0xf3, 0xc1, 0x34,
  0x72, 0x98, 0xbb, 0x97, 0x7b, 0x8b, 0x4d, 0x59, 0x03, 0xb8, 0x50, 0x55, 0x62, 0x06, 0x03]

def soloConfig : Bytes := ascii (Json.dumps (.object [(lit "rootfs",
  .object [(lit "diff_ids", .array [.string (lit "sha256:" ++ Text.hex soloLayerDigest)])])]))

def soloConfigDigest : Bytes := [
  0xac, 0xf8, 0xe3, 0x92, 0x4a, 0xd2, 0x2a, 0xcd, 0xe4, 0xa0, 0x85, 0xa4, 0x7f, 0x88, 0x8b, 0x71, 0x22,
  0x40, 0xe8, 0xfe, 0x80, 0x94, 0xea, 0x8e, 0x40, 0x36, 0x3a, 0xc3, 0x04, 0xe6, 0x30, 0xad]

def soloManifest : Bytes := ascii (Json.dumps (.object [(lit "schemaVersion", .int 2), (lit "mediaType", .string MEDIA_IMAGE_MANIFEST),
  (lit "config", .object [(lit "mediaType", .string MEDIA_IMAGE_CONFIG), (lit "digest", .string (lit "sha256:" ++ Text.hex soloConfigDigest)),
    (lit "size", .int 99)]),
  (lit "layers", .array [.object [(lit "mediaType", .string MEDIA_LAYER_TAR),
    (lit "digest", .string (lit "sha256:" ++ Text.hex soloLayerDigest)), (lit "size", .int 2)]])]))

def soloManifestDigest : Bytes := [
  0x2a, 0x81, 0xb7, 0x15, 0x9e, 0x7b, 0x83, 0xdc, 0xf2, 0xa0, 0x33, 0x88, 0x82, 0x6e, 0xef, 0x0b, 0x4f,
  0x02, 0x5f, 0xa4, 0xbc, 0x78, 0x5a, 0x5a, 0x55, 0xb2, 0xeb, 0x2e, 0x7e, 0xd8, 0xf4, 0xff]

def soloIndex : Bytes := ascii (Json.dumps (.object [(lit "schemaVersion", .int 2), (lit "mediaType", .string MEDIA_IMAGE_INDEX),
  (lit "manifests", .array [.object [(lit "mediaType", .string MEDIA_IMAGE_MANIFEST),
    (lit "digest", .string (lit "sha256:" ++ Text.hex soloManifestDigest)), (lit "size", .int 393),
    (lit "annotations", .object [(REF_NAME_ANNOTATION, .string (lit "solo"))])]])]))

def soloIndexDigest : Bytes := [
  0x2a, 0x90, 0x44, 0x17, 0xa2, 0x29, 0x9b, 0xdc, 0x21, 0x15, 0xdd, 0x39, 0xc0, 0x89, 0x98, 0xea, 0xa7,
  0xd6, 0xd3, 0x0a, 0x9e, 0xd2, 0xe4, 0x69, 0xb0, 0x52, 0xf1, 0xeb, 0xb9, 0xef, 0xc4, 0x36]

def layoutDigest : Bytes := [
  0x18, 0xf0, 0x79, 0x7e, 0xab, 0x35, 0xa4, 0x59, 0x7c, 0x1e, 0x96, 0x24, 0xaa, 0x4f, 0x15, 0xfd, 0x91,
  0xf6, 0x25, 0x4e, 0x55, 0x38, 0xc1, 0xe0, 0xd1, 0x93, 0xb2, 0xa9, 0x5d, 0xd4, 0xac, 0xc6]

/-- The digests are those of SHA-256. -/
def soloSha256 : Sha256 := .ofTable [(soloLayer, soloLayerDigest), (soloConfig, soloConfigDigest), (soloManifest, soloManifestDigest),
  (soloIndex, soloIndexDigest), (LAYOUT_BYTES, layoutDigest)]

def soloConfigChunkName : ObjectName where
  digest := [
    0x26, 0x56, 0xc5, 0x55, 0x5c, 0x04, 0x30, 0xb7, 0xb4, 0xd0, 0xa2, 0x6f, 0x72, 0x8b, 0x66, 0x6a, 0xbf,
    0x66, 0xe6, 0x87, 0xae, 0x51, 0xb5, 0x2b, 0xb8, 0x17, 0x6c, 0xc6, 0x40, 0xe0, 0xb8, 0x1e]
  sized := rfl

def soloConfigLeafName : ObjectName where
  digest := [
    0xd4, 0x81, 0xd0, 0x35, 0x6e, 0x9e, 0x82, 0x4d, 0x67, 0x6b, 0xd3, 0x06, 0xc9, 0xf1, 0x15, 0x9d, 0xc7,
    0x4f, 0x1e, 0xce, 0x21, 0x22, 0x5a, 0xf5, 0x0c, 0xdd, 0x14, 0x9f, 0xca, 0x8e, 0x3e, 0x8d]
  sized := rfl

def soloManifestChunkName : ObjectName where
  digest := [
    0xd5, 0x66, 0x6c, 0x69, 0xff, 0x67, 0x7d, 0x47, 0xbc, 0x97, 0xd1, 0xae, 0x90, 0x4d, 0xf9, 0x73, 0x2f,
    0x37, 0xc2, 0xbe, 0x9b, 0x7c, 0xfc, 0x52, 0x90, 0x08, 0x5e, 0xfd, 0xa7, 0xf4, 0x99, 0x0b]
  sized := rfl

def soloManifestLeafName : ObjectName where
  digest := [
    0x85, 0x46, 0x57, 0xb0, 0xc2, 0xbb, 0xcc, 0x1b, 0x5e, 0x6a, 0x9f, 0x7d, 0x7a, 0x5a, 0xa6, 0xf3, 0x5e,
    0xb5, 0x16, 0x74, 0x6c, 0xcd, 0xa6, 0x32, 0xe8, 0xd2, 0x3b, 0x31, 0x88, 0xd9, 0xeb, 0xb3]
  sized := rfl

def soloIndexChunkName : ObjectName where
  digest := [
    0xbe, 0x2e, 0x99, 0x32, 0x09, 0x01, 0x23, 0x43, 0xb8, 0x0c, 0xad, 0x94, 0x03, 0x0e, 0xf6, 0x9a, 0xf8,
    0x52, 0x89, 0xcc, 0xbc, 0x82, 0xe3, 0xe5, 0xd6, 0x9f, 0x9b, 0x43, 0x76, 0x86, 0x09, 0xc3]
  sized := rfl

def soloIndexLeafName : ObjectName where
  digest := [
    0x5e, 0x99, 0x80, 0x1b, 0x69, 0x9e, 0x03, 0xf1, 0xad, 0xd4, 0x6f, 0xe1, 0xff, 0xea, 0x85, 0x1d, 0x0a,
    0xa5, 0x21, 0x14, 0x25, 0x9e, 0x55, 0xc5, 0x5c, 0x4f, 0x41, 0xf6, 0x04, 0x32, 0x6b, 0x4a]
  sized := rfl

def layoutChunkName : ObjectName where
  digest := [
    0x23, 0xa2, 0xf5, 0x3c, 0xd4, 0x6e, 0x0f, 0xfd, 0x7c, 0x0b, 0x23, 0xe9, 0xed, 0xe5, 0x31, 0x1c, 0xc9,
    0x5a, 0xfe, 0x42, 0xd9, 0x50, 0xef, 0xae, 0x32, 0xa4, 0x03, 0xd8, 0x98, 0x3e, 0x64, 0x55]
  sized := rfl

def layoutLeafName : ObjectName where
  digest := [
    0x96, 0x5d, 0x1f, 0xa2, 0x7c, 0x4e, 0x0a, 0x1f, 0xa5, 0x35, 0xfd, 0xb8, 0xbb, 0x00, 0x26, 0xc5, 0x66,
    0x86, 0x02, 0xa3, 0x23, 0x80, 0x6a, 0xd5, 0x59, 0x5a, 0x56, 0x9f, 0x8c, 0x66, 0x7c, 0x74]
  sized := rfl

def soloBlobs : LedgerObject := .tree ⟨0, [⟨ascii (Text.hex soloManifestDigest), .blob, soloManifestLeafName, MODE_REGULAR, 393⟩,
  ⟨ascii (Text.hex soloConfigDigest), .blob, soloConfigLeafName, MODE_REGULAR, 99⟩,
  ⟨ascii (Text.hex soloLayerDigest), .blob, pairLeafName, MODE_REGULAR, 2⟩]⟩

def soloBlobsName : ObjectName where
  digest := [
    0x9e, 0x47, 0x22, 0x83, 0x62, 0x3e, 0xa9, 0xd6, 0x86, 0xef, 0x5d, 0xec, 0x4f, 0xc3, 0xeb, 0x2e, 0x04,
    0x9a, 0xd6, 0x27, 0x61, 0x7d, 0xc5, 0xf1, 0x46, 0x5a, 0x33, 0x38, 0x27, 0x41, 0x95, 0x10]
  sized := rfl

def soloAlgorithms : LedgerObject := .tree ⟨0, [tree_entry SHA256 soloBlobsName]⟩

def soloAlgorithmsName : ObjectName where
  digest := [
    0x17, 0x49, 0xff, 0x30, 0x6f, 0x69, 0x37, 0xe3, 0xc2, 0xb3, 0x83, 0x17, 0xa5, 0x61, 0x9d, 0x7c, 0x5e,
    0x69, 0x43, 0x48, 0xa2, 0xe5, 0x49, 0x22, 0xa1, 0xb9, 0x72, 0x6b, 0x3f, 0xf4, 0x49, 0xf1]
  sized := rfl

def soloImages : LedgerObject := .tree ⟨0, [tree_entry BLOBS_DIR soloAlgorithmsName, file_entry INDEX_FILE soloIndexLeafName 299,
  file_entry LAYOUT_FILE layoutLeafName 30]⟩

def soloImagesName : ObjectName where
  digest := [
    0x6b, 0x33, 0xdc, 0xfc, 0x39, 0x78, 0x93, 0x56, 0x62, 0x91, 0xbc, 0x8d, 0xee, 0x27, 0x22, 0x7f, 0x1d,
    0x02, 0xc7, 0x02, 0xb2, 0xff, 0xcb, 0x84, 0x9b, 0x5b, 0x50, 0x89, 0x84, 0x7a, 0x71, 0x55]
  sized := rfl

def soloRoot : LedgerObject := .tree ⟨0, [tree_entry IMAGES_DIR soloImagesName]⟩

def soloRootName : ObjectName where
  digest := [
    0xe3, 0x02, 0x63, 0x8c, 0xfd, 0xc6, 0x6e, 0x75, 0xa7, 0x6f, 0xdd, 0xce, 0x14, 0x0d, 0xf7, 0x7e, 0x75,
    0x36, 0x54, 0xe0, 0xe2, 0x2a, 0x48, 0x51, 0x92, 0x62, 0x3c, 0x88, 0x8c, 0xdf, 0xf2, 0x04]
  sized := rfl

def leafOf (chunk : ObjectName) (size : Int) : LedgerObject := .blob ⟨0, [⟨chunk, size⟩]⟩

def soloPlay : List (Bytes × ObjectName) := [
  (Layout.object pairChunk, pairChunkName), (Layout.object pairLeaf, pairLeafName),
  (Layout.object (.chunk ⟨soloConfig⟩), soloConfigChunkName), (Layout.object (leafOf soloConfigChunkName 99), soloConfigLeafName),
  (Layout.object (.chunk ⟨soloManifest⟩), soloManifestChunkName), (Layout.object (leafOf soloManifestChunkName 393), soloManifestLeafName),
  (Layout.object (.chunk ⟨soloIndex⟩), soloIndexChunkName), (Layout.object (leafOf soloIndexChunkName 299), soloIndexLeafName),
  (Layout.object (.chunk ⟨LAYOUT_BYTES⟩), layoutChunkName), (Layout.object (leafOf layoutChunkName 30), layoutLeafName),
  (Layout.object soloBlobs, soloBlobsName), (Layout.object soloAlgorithms, soloAlgorithmsName), (Layout.object soloImages, soloImagesName),
  (emptyTreeFramed, emptyTreeName), (Layout.object soloRoot, soloRootName)]

/-- The digests are those of BLAKE3. -/
def soloBlake3 : Blake3 := .ofTable (soloPlay.map fun known => (known.1, known.2.digest))

theorem solo_injective : ∀ left ∈ soloPlay.map Prod.fst, ∀ right ∈ soloPlay.map Prod.fst,
    name_of_encoded soloBlake3 left = name_of_encoded soloBlake3 right → left = right := by decide +kernel

theorem wide_ordered : 0 < 1024 ∧ 1024 ≤ 2048 ∧ 2048 ≤ 4096 := by decide

/-- Each of the files is one chunk. -/
def wideChunks : ChunkParams :=
  { smallChunks with min_size := 1024, avg_size := 2048, max_size := 4096, ordered := wide_ordered }

def soloIngester : Ingester where
  corpus := .ofBytes soloBlake3 (soloPlay.map Prod.fst) List.length solo_injective
  blake3 := soloBlake3
  chunk_params := wideChunks
  shape_params := PRODUCTION_SHAPE
  exclude := default_exclude

theorem solo_spelled : soloIngester.corpus.Spelled soloIngester.blake3 :=
  @Corpus.ofBytes_spelled soloBlake3 _ List.length solo_injective

/-- Texts of numbers can be kept as they are. -/
theorem verbatim_stable : Json.Stable fun token => token := by
  intro token text read numeric
  refine .inl ?_
  have again := read
  rw [Json.number] at read
  generalize (if token.head? = some 0x2d then token.tail else token) = magnitude at read
  split_ifs at read
  next =>
    obtain ⟨value, -, impossible⟩ := Option.map_eq_some_iff.mp read
    cases impossible
  next =>
    obtain rfl := Json.float.inj (Option.some.inj read)
    exact ⟨numeric, again⟩

/-- There are no floats in the documents, and nothing but text. -/
def soloPython : Python where
  str _ := []
  int _ := .error (.valueError "invalid literal for int()")
  float_repr token := token
  stable := verbatim_stable
  decoded _ := none

def soloImager : ImageIngester where
  ingester := soloIngester
  python := soloPython
  sha256 := soloSha256
  gzip _ := .error (.valueError "Not a gzipped file")
  zstd _ := .error (.valueError "Unknown frame descriptor")

def soloArchive : List (PyStr × Bytes) := [
  (lit "manifest.json", ascii (Json.dumps (.array [.object [(lit "Config", .string (lit "config.json")),
    (lit "Layers", .array [.string (lit "layer.tar")])]]))),
  (lit "config.json", soloConfig),
  (lit "layer.tar", soloLayer)]

def soloMember {α : Type} (name : PyStr) (value : Bytes → α) : Except PyError α :=
  match soloArchive.lookup name with
  | some content => .ok (value content)
  | none => .error (.notFound "this archive has no such member")

def soloFiles : Files where
  read name := soloMember name id
  opened name := soloMember name id
  size name := soloMember name List.length
  has name := (soloArchive.lookup name).isSome

def linux : Platform := ⟨lit "amd64", lit "linux", none⟩

def soloAdded : Except PyError (ObjectName × IngestStats × IngestedImage) × ImportState :=
  (add_image soloImager solo_spelled LEVELS soloFiles (lit "solo") linux none none).exec ⟨.empty 0, ∅⟩

def soloShown : Descriptor := ⟨MEDIA_IMAGE_MANIFEST, ⟨SHA256, Text.hex soloManifestDigest⟩, 393, [(REF_NAME_ANNOTATION, lit "solo")], none⟩

def soloContents : List Bytes := [soloLayer, soloConfig, soloManifest, soloIndex, LAYOUT_BYTES]

/-- A file is one chunk, with one of the contents. -/
def sole : LedgerObject → Bool
  | .blob blob => blob.level = 0 ∧ ∃ content ∈ soloContents,
      blob.entries.map (fun entry => soloIngester.corpus.content entry.target) = [some (.chunk ⟨content⟩)]
  | _ => true

theorem solo_sole : ∀ framed ∈ soloPlay.map Prod.fst, (decode framed).toOption.all sole = true := by decide +kernel

theorem solo_distinct : ∀ left ∈ soloContents, ∀ right ∈ soloContents,
    soloSha256.digest left = soloSha256.digest right → left = right := by decide +kernel

theorem solo_filed {world : World} {name : ObjectName} {content : Bytes} (filed : Filed (world.objects solo_spelled) name content) :
    content ∈ soloContents := by
  obtain ⟨tree, file, -, spells⟩ := filed
  obtain ⟨root, stored⟩ := file.stored
  have known : sole (.blob root) = true := by
    obtain ⟨-, found⟩ := World.objects_stored.mp (Objects.get_blob_ok.mp stored)
    obtain ⟨framed, first, decoded⟩ := Option.bind_eq_some_iff.mp found
    have every := solo_sole framed (List.mem_of_find?_eq_some first)
    rwa [decoded] at every
  obtain ⟨level, content', member, single⟩ := of_decide_eq_true known
  cases file with
  | node above stored' =>
    cases stored.symm.trans stored'
    exact absurd level (ne_of_gt above)
  | @leaf _ chunks stored' held =>
    cases stored.symm.trans stored'
    rw [List.map_map, List.map_eq_singleton_iff] at single
    obtain ⟨chunk, rfl, same⟩ := single
    obtain ⟨-, found⟩ := World.objects_stored.mp (Objects.get_chunk_ok.mp (held chunk (List.mem_singleton_self _)))
    cases found.symm.trans same
    rw [← spells]
    simpa [Rose.items, sized] using member

theorem solo_accepted : soloAdded.1.map (fun made => (made.1, made.2.2.manifest_bytes, shown (lit "solo") made.2.2)) =
    .ok (soloRootName, soloManifest, soloShown) := by decide +kernel

theorem solo_added : ∃ stats ingested, soloAdded = (.ok (soloRootName, stats, ingested), soloAdded.2) ∧
    ingested.manifest_bytes = soloManifest ∧ shown (lit "solo") ingested = soloShown := by
  have accepted := solo_accepted
  generalize soloAdded = added at accepted ⊢
  obtain ⟨error | ⟨tree, stats, ingested⟩, later⟩ := added
  next => cases accepted
  next =>
    have same := Except.ok.inj accepted
    obtain rfl : tree = soloRootName := congrArg Prod.fst same
    exact ⟨stats, ingested, rfl, congrArg (fun made => made.2.1) same, congrArg (fun made => made.2.2) same⟩

/-- The image is pulled from the version that it was added to. -/
theorem images_stay_pullable_solo :
    (∃ enough, ∀ depth, enough ≤ depth →
      find_manifest soloPython (soloAdded.2.world.objects solo_spelled) depth soloRootName (lit "solo") = .ok (some (soloShown, soloManifest))) ∧
    Pullable soloImager (Served soloSha256 (soloAdded.2.world.objects solo_spelled) soloRootName) soloManifest := by
  obtain ⟨stats, ingested, ran, manifest, descriptor⟩ := solo_added
  have run : Run soloImager solo_spelled soloAdded.2 [⟨soloRootName, Function.update (images_of none) (lit "solo") (some ingested)⟩] :=
    .added (.start rfl) (fun _ impossible => by cases impossible) ⟨LEVELS, fun depth deep => added_anew solo_spelled le_rfl deep ran⟩
  have unconfused : Unconfused soloSha256 (soloAdded.2.world.objects solo_spelled) :=
    fun _ _ _ _ filed filed' same => solo_distinct _ (solo_filed filed) _ (solo_filed filed') same
  obtain ⟨⟨enough, reads⟩, pullable⟩ := images_stay_pullable solo_spelled run unconfused (List.mem_singleton_self _) (lit "solo")
  have held : Version.images ⟨soloRootName, Function.update (images_of none) (lit "solo") (some ingested)⟩ (lit "solo") = some ingested :=
    Function.update_self (lit "solo") (some ingested) (images_of none)
  constructor
  next =>
    refine ⟨enough, fun depth deep => ?_⟩
    have read := reads depth deep
    rw [held, Option.map_some, manifest, descriptor] at read
    exact read
  next =>
    rw [← manifest]
    exact (pullable ingested held).2

end Oci

end LedgerVcs
