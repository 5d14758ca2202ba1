import LedgerVcs.Lib.Json
import LedgerVcs.Migrate.Listing
import LedgerVcs.Service.Commits
import LedgerVcs.Spelling

set_option autoImplicit false

/-! The documents of an image layout. -/

namespace LedgerVcs

open Text (PyStr lit)
open Wire (Bytes)

namespace Oci

/-! ## Media types -/

def MEDIA_IMAGE_INDEX : PyStr := lit "application/vnd.oci.image.index.v1+json"

def MEDIA_IMAGE_MANIFEST : PyStr := lit "application/vnd.oci.image.manifest.v1+json"

def MEDIA_IMAGE_CONFIG : PyStr := lit "application/vnd.oci.image.config.v1+json"

def MEDIA_DOCKER_MANIFEST_LIST : PyStr := lit "application/vnd.docker.distribution.manifest.list.v2+json"

def MEDIA_DOCKER_MANIFEST : PyStr := lit "application/vnd.docker.distribution.manifest.v2+json"

def is_index (media_type : PyStr) : Bool := media_type ∈ [MEDIA_IMAGE_INDEX, MEDIA_DOCKER_MANIFEST_LIST]

def is_manifest (media_type : PyStr) : Bool := media_type ∈ [MEDIA_IMAGE_MANIFEST, MEDIA_DOCKER_MANIFEST]

def MEDIA_LAYER_TAR : PyStr := lit "application/vnd.oci.image.layer.v1.tar"

def MEDIA_DOCKER_CONFIG : PyStr := lit "application/vnd.docker.container.image.v1+json"

def MEDIA_DOCKER_LAYER : PyStr := lit "application/vnd.docker.image.rootfs.diff.tar"

def MEDIA_DOCKER_LAYER_GZIP : PyStr := lit "application/vnd.docker.image.rootfs.diff.tar.gzip"

def FOREIGN_LAYER_TYPES : List PyStr :=
  [lit "application/vnd.docker.image.rootfs.foreign.diff.tar.gzip", lit "application/vnd.oci.image.layer.nondistributable.v1.tar",
    lit "application/vnd.oci.image.layer.nondistributable.v1.tar+gzip", lit "application/vnd.oci.image.layer.nondistributable.v1.tar+zstd"]

inductive Compression
  | none
  | gzip
  | zstd
deriving DecidableEq

def compression_of (media_type : PyStr) : Except PyError Compression :=
  if media_type ∈ FOREIGN_LAYER_TYPES then
    .error (.invalidRequest ("this image has a foreign (non-distributable) layer, whose bytes were never included; " ++
      "Ledger stores content and cannot version a pointer"))
  else if lit "+gzip" <:+ media_type ∨ lit ".tar.gzip" <:+ media_type then .ok .gzip
  else if lit "+zstd" <:+ media_type then .ok .zstd
  else if (lit ".tar" <:+ media_type ∨ lit "+tar" <:+ media_type) ∨ media_type ∈ [MEDIA_LAYER_TAR, MEDIA_DOCKER_LAYER] then .ok .none
  else .error (.invalidRequest "unrecognised layer media type")

/-- Whatever it was, it is a plain tar once it has been unwrapped. -/
def uncompressed_layer_type (media_type : PyStr) : Except PyError PyStr := do
  let _ ← compression_of media_type
  return MEDIA_LAYER_TAR

/-! ## Reading documents -/

/-- What Python makes of values that are not of the kind expected, of numerals with a fraction, and of bytes that are no plain
UTF-8. -/
structure Python where
  /-- `str(value)` -/
  str : Json → PyStr
  /-- `int(value)` -/
  int : Json → Except PyError Int
  float_repr : PyStr → PyStr
  stable : Json.Stable float_repr
  /-- What `json.loads` takes for UTF-16 or UTF-32, for a byte order mark, or for surrogates. -/
  decoded : Bytes → Option PyStr

/-- `bool(value)` -/
def truthy : Json → Bool
  | .null => false
  | .bool value => value
  | .int value => value ≠ 0
  | .float text => text ∉ [lit "0.0", lit "-0.0"]
  | .string text => text ≠ []
  | .array items => ¬ items.isEmpty
  | .object fields => ¬ fields.isEmpty

def canonical_json (document : Json) : Except PyError Bytes := encode_name (Json.dumps document)

namespace Python

variable (python : Python)

def text_of : Json → PyStr
  | .string text => text
  | value => python.str value

def int_of : Json → Except PyError Int
  | .int value => .ok value
  | value => python.int value

@[simp] theorem text_of_string (text : PyStr) : python.text_of (.string text) = text := rfl

@[simp] theorem int_of_int (value : Int) : python.int_of (.int value) = .ok value := rfl

/-- `json.loads` takes bytes for UTF-8 by the first two. -/
def decode (data : Bytes) : Option PyStr :=
  match data with
  | first :: second :: _ =>
    if 0 < first ∧ first < 0x80 ∧ second ≠ 0 then (Text.decodeUtf8 data).or (python.decoded data) else python.decoded data
  | _ => python.decoded data

/-- `json.loads`, and what becomes of a `JSONDecodeError` -/
def loads (data : Bytes) (malformed : PyError) : Except PyError Json :=
  match python.decode data with
  | none => .error (.valueError "'utf-8' codec can't decode bytes")
  | some text =>
    match Json.loads python.float_repr text with
    | none => .error malformed
    | some document => .ok document

/-- `_load` -/
def load (data : Bytes) (what : String) : Except PyError (List (PyStr × Json)) := do
  match ← python.loads data (.invalidRequest s!"{what} is not valid JSON") with
  | .object fields => return fields
  | _ => throw (.invalidRequest s!"{what} must be a JSON object")

def parse_document (data : Bytes) : Except PyError (List (PyStr × Json)) := python.load data "a manifest"

end Python

/-! ## Descriptors -/

structure Platform where
  architecture : PyStr
  os : PyStr
  variant : Option PyStr
deriving DecidableEq

structure Descriptor where
  media_type : PyStr
  digest : Digest
  size : Int
  annotations : List (PyStr × PyStr)
  platform : Option Platform
deriving DecidableEq

/-- `dict` -/
def json_dict (annotations : List (PyStr × PyStr)) : Json :=
  .object (Json.dict (annotations.map fun pair => (pair.1, .string pair.2)))

def sorted_pairs (pairs : List (PyStr × PyStr)) : List (PyStr × PyStr) :=
  pairs.insertionSort fun left right => pair_le left right = true

namespace Platform

def to_json (platform : Platform) : Json :=
  .object ([(lit "architecture", .string platform.architecture), (lit "os", .string platform.os)] ++
    match platform.variant with
    | some variant => if variant = [] then [] else [(lit "variant", .string variant)]
    | none => [])

/-- Whether it satisfies the other. -/
def matches_ (platform wanted : Platform) : Bool :=
  (platform.architecture, platform.os) = (wanted.architecture, wanted.os) ∧
    (wanted.variant = none ∨ platform.variant = wanted.variant)

def from_json (python : Python) (raw : List (PyStr × Json)) : Platform where
  architecture := ((raw.lookup (lit "architecture")).map python.text_of).getD []
  os := ((raw.lookup (lit "os")).map python.text_of).getD []
  variant := ((raw.lookup (lit "variant")).filter truthy).map python.text_of

end Platform

def REF_NAME_ANNOTATION : PyStr := lit "org.opencontainers.image.ref.name"

namespace Descriptor

def annotation_map (descriptor : Descriptor) : List (PyStr × PyStr) := Json.dict descriptor.annotations

/-- The name of the image that it describes. -/
def ref_name (descriptor : Descriptor) : Option PyStr := descriptor.annotation_map.lookup REF_NAME_ANNOTATION

/-- `annotated`, with one annotation more. -/
def annotated (descriptor : Descriptor) (key value : PyStr) : Descriptor :=
  { descriptor with annotations := sorted_pairs (Json.set_field key value descriptor.annotation_map) }

def to_json (descriptor : Descriptor) : Json :=
  .object ([(lit "mediaType", .string descriptor.media_type), (lit "digest", .string descriptor.digest.str),
      (lit "size", .int descriptor.size)] ++
    (descriptor.platform.map fun platform => (lit "platform", platform.to_json)).toList ++
    if descriptor.annotations = [] then [] else [(lit "annotations", json_dict descriptor.annotations)])

end Descriptor

section Parsing

variable (python : Python)

/-- `_annotations` -/
def annotations_of : Option Json → Except PyError (List (PyStr × PyStr))
  | none => .ok []
  | some (.object fields) => .ok (sorted_pairs (fields.map fun field => (field.1, python.text_of field.2)))
  | some raw => if truthy raw then .error (.invalidRequest "annotations must be an object") else .ok []

def required (fields : List (PyStr × Json)) (key : String) : Except PyError Json :=
  match fields.lookup (lit key) with
  | some value => .ok value
  | none => .error (.invalidRequest ("descriptor is missing '" ++ key ++ "'"))

def platform_of : Option Json → Option Platform
  | some (.object platform) => some (Platform.from_json python platform)
  | _ => none

/-- `Descriptor.from_json` -/
def Descriptor.from_json : Json → Except PyError Descriptor
  | .object raw => do
    let media_type ← required raw "mediaType"
    let digest ← required raw "digest"
    let size ← required raw "size"
    let digest ← Digest.parse (python.text_of digest)
    let size ← python.int_of size
    let annotations ← annotations_of python (raw.lookup (lit "annotations"))
    return {
      media_type := python.text_of media_type, digest, size, annotations, platform := platform_of python (raw.lookup (lit "platform")) }
  | _ => .error (.valueError "a descriptor must be an object")

end Parsing

/-! ## Manifests and indexes -/

/-- An image for one platform. -/
structure Manifest where
  media_type : PyStr
  config : Descriptor
  layers : List Descriptor
  annotations : List (PyStr × PyStr)
deriving DecidableEq

/-- A set of named manifests. -/
structure ImageIndex where
  manifests : List Descriptor
  annotations : List (PyStr × PyStr)
  media_type : PyStr
deriving DecidableEq

def SCHEMA_VERSION : Int := 2

namespace ImageIndex

def empty : ImageIndex := ⟨[], [], MEDIA_IMAGE_INDEX⟩

def named (index : ImageIndex) (image : PyStr) : Option Descriptor :=
  index.manifests.find? fun descriptor => descriptor.ref_name = some image

/-- What the manifests are sorted by. -/
def rank (descriptor : Descriptor) : PyStr × PyStr := (descriptor.ref_name.getD [], descriptor.digest.str)

/-- The image is added or replaced. -/
def with_image (index : ImageIndex) (image : PyStr) (descriptor : Descriptor) : ImageIndex where
  manifests := ((index.manifests.filter fun other => other.ref_name ≠ some image) ++
    [descriptor.annotated REF_NAME_ANNOTATION image]).insertionSort fun left right => pair_le (rank left) (rank right) = true
  annotations := index.annotations
  media_type := MEDIA_IMAGE_INDEX

def to_json (index : ImageIndex) : Json :=
  .object ([(lit "schemaVersion", .int SCHEMA_VERSION), (lit "mediaType", .string index.media_type),
      (lit "manifests", .array (index.manifests.map Descriptor.to_json))] ++
    if index.annotations = [] then [] else [(lit "annotations", json_dict index.annotations)])

def to_bytes (index : ImageIndex) : Except PyError Bytes := canonical_json index.to_json

end ImageIndex

section Parsing

variable (python : Python)

def parse_index (data : Bytes) : Except PyError ImageIndex := do
  let document ← python.load data "an image index"
  match document.lookup (lit "manifests") with
  | some (.array raw) =>
    let manifests ← raw.mapM (Descriptor.from_json python)
    let annotations ← annotations_of python (document.lookup (lit "annotations"))
    return ⟨manifests, annotations, ((document.lookup (lit "mediaType")).map python.text_of).getD MEDIA_IMAGE_INDEX⟩
  | _ => throw (.invalidRequest "an image index must have a 'manifests' array")

def parse_manifest (data : Bytes) : Except PyError Manifest := do
  let document ← python.load data "an image manifest"
  match document.lookup (lit "config"), document.lookup (lit "layers") with
  | some (.object config), some (.array layers) =>
    let config ← Descriptor.from_json python (.object config)
    let layers ← layers.mapM (Descriptor.from_json python)
    let annotations ← annotations_of python (document.lookup (lit "annotations"))
    return ⟨((document.lookup (lit "mediaType")).map python.text_of).getD [], config, layers, annotations⟩
  | _, _ => throw (.invalidRequest "an image manifest must have 'config' and a 'layers' array")

end Parsing

/-- The first manifest, or index of manifests, for the platform; attestations are for an unknown one. -/
def select_platform (descriptors : List Descriptor) (wanted : Platform) : Option Descriptor :=
  descriptors.find? fun descriptor =>
    match descriptor.platform with
    | none => false
    | some platform => platform.architecture ≠ lit "unknown" ∧
        (is_manifest descriptor.media_type ∨ is_index descriptor.media_type) ∧ platform.matches_ wanted

/-! ## What was written is read -/

section RoundTrips

variable {python : Python}

/-- Bytes that begin with two characters of ASCII are read as the text they spell. -/
theorem decode_encoded {text rest : PyStr} {data : Bytes} (begins : text = 0x7b :: 0x22 :: rest)
    (encoded : Text.encodeUtf8 text = some data) : python.decode data = some text := by
  have decoded := Text.decodeUtf8_eq_some.mpr encoded
  obtain ⟨chars, spelled, bytes⟩ := Text.encodeUtf8_eq_some.mp encoded
  rw [begins] at spelled
  cases chars with
  | nil => simp at spelled
  | cons first chars =>
    cases chars with
    | nil => simp at spelled
    | cons second chars =>
      have char {point : Text.CodePoint} {found char : Char} (same : point = Text.ofChar found) (meant : point = Text.ofChar char) :
          found = char := by
        have back := Text.toChar_ofChar found
        rw [← same, meant, Text.toChar_ofChar] at back
        exact (Option.some.inj back).symm
      have brace : first = '{' := char (List.cons.inj spelled).1 rfl
      have quote : second = '"' := char (List.cons.inj (List.cons.inj spelled).2).1 rfl
      subst brace quote
      obtain rfl : 0x7b :: 0x22 :: chars.flatMap String.utf8EncodeChar = data := bytes
      rw [Python.decode, if_pos (by decide), decoded]
      rfl

/-- What was serialised is loaded. -/
theorem loads_canonical {fields : List (PyStr × Json)} {data : Bytes} (fits : Json.Fits python.float_repr (.object fields))
    (nonempty : fields ≠ []) (written : canonical_json (.object fields) = .ok data) (what : String) :
    python.load data what = .ok fields := by
  have encoded : Text.encodeUtf8 (Json.dumps (.object fields)) = some data := by
    rw [canonical_json, encode_name] at written
    split at written
    next bytes same => rw [same, Except.ok.inj written]
    next => cases written
  obtain ⟨text, begins⟩ := Json.fields_begin nonempty
  have brace : Json.dumps (.object fields) = 0x7b :: 0x22 :: (text ++ [0x7d]) := by
    rw [Json.dumps, begins]
    rfl
  rw [Python.load, Python.loads, decode_encoded brace encoded]
  dsimp only
  rw [Json.loads_dumps fits]
  rfl

/-- What a document is called in an error makes no difference to one that is read. -/
theorem load_ok {data : Bytes} {what : String} {fields : List (PyStr × Json)} : python.load data what = .ok fields ↔
    ∃ text, python.decode data = some text ∧ Json.loads python.float_repr text = some (.object fields) := by
  rw [Python.load, Python.loads]
  cases python.decode data with
  | none => simp [bind, Except.bind]
  | some text =>
    cases read : Json.loads python.float_repr text with
    | none => simp [bind, Except.bind, read]
    | some document => cases document <;> simp [bind, Except.bind, pure, Except.pure, throw, throwThe, MonadExceptOf.throw, read]

theorem load_fits {data : Bytes} {what : String} {fields : List (PyStr × Json)} (loaded : python.load data what = .ok fields) :
    Json.Fits python.float_repr (.object fields) := by
  obtain ⟨text, -, read⟩ := load_ok.mp loaded
  exact Json.loads_fits python.stable read

/-! ### Descriptors -/

theorem pair_le_trans {first second third : PyStr × PyStr} (early : pair_le first second = true) (late : pair_le second third = true) :
    pair_le first third = true := Std.TransCmp.isLE_trans early late

theorem pair_le_total (first second : PyStr × PyStr) : pair_le first second = true ∨ pair_le second first = true := by
  let order : PyStr × PyStr → PyStr × PyStr → Ordering := compareLex (compareOn Prod.fst) (compareOn Prod.snd)
  have swapped : order second first = (order first second).swap := Std.OrientedCmp.eq_swap
  change (order first second).isLE = true ∨ (order second first).isLE = true
  rw [swapped]
  cases order first second <;> simp

/-- What is sorted by pairs of texts is in their order. -/
theorem sorted_by {α : Type} (rank : α → PyStr × PyStr) (items : List α) :
    (items.insertionSort fun left right => pair_le (rank left) (rank right) = true).Pairwise fun left right =>
      pair_le (rank left) (rank right) = true := by
  have total : Std.Total fun left right => pair_le (rank left) (rank right) = true := ⟨fun left right => pair_le_total _ _⟩
  have transitive : IsTrans α fun left right => pair_le (rank left) (rank right) = true := ⟨fun _ _ _ early late => pair_le_trans early late⟩
  exact List.pairwise_insertionSort _ _

/-- The keys are distinct and in order. -/
structure Tidy (annotations : List (PyStr × PyStr)) : Prop where
  keys : (annotations.map Prod.fst).Nodup
  sorted : annotations.Pairwise fun left right => pair_le left right = true

theorem json_dict_tidy {annotations : List (PyStr × PyStr)} (tidy : Tidy annotations) :
    json_dict annotations = .object (annotations.map fun pair => (pair.1, .string pair.2)) := by
  refine congrArg Json.object (Json.dict_distinct ?_)
  rw [List.map_map]
  exact tidy.keys

/-- Annotations are written only where there are any. -/
theorem annotations_read {annotations : List (PyStr × PyStr)} (tidy : Tidy annotations) :
    annotations_of python (some (json_dict annotations)) = .ok annotations := by
  have texts : annotations.map ((fun field : PyStr × Json => (field.1, python.text_of field.2)) ∘ fun pair => (pair.1, .string pair.2)) =
      annotations := List.map_id' annotations
  rw [json_dict_tidy tidy, annotations_of, List.map_map, texts, sorted_pairs, tidy.sorted.insertionSort_eq]

/-- An empty variant is written as none. -/
def Platform.normal (platform : Platform) : Platform := { platform with variant := platform.variant.filter fun variant => variant ≠ [] }

def Descriptor.normal (descriptor : Descriptor) : Descriptor := { descriptor with platform := descriptor.platform.map Platform.normal }

def Digest.Valid (digest : Digest) : Prop := digest.algorithm = SHA256 ∧ ENCODED.matchLine digest.encoded = true

structure Descriptor.Tidy (descriptor : Descriptor) : Prop where
  digest : Digest.Valid descriptor.digest
  annotations : Oci.Tidy descriptor.annotations

theorem platform_read (platform : Platform) : ∃ fields, platform.to_json = .object fields ∧
    Platform.from_json python fields = platform.normal := by
  refine ⟨_, rfl, ?_⟩
  obtain ⟨architecture, os, variant⟩ := platform
  cases variant with
  | none => rfl
  | some variant =>
    cases variant with
    | nil => rfl
    | cons point variant => rfl

theorem descriptor_read {descriptor : Descriptor} (tidy : descriptor.Tidy) :
    Descriptor.from_json python descriptor.to_json = .ok descriptor.normal := by
  obtain ⟨media_type, digest, size, annotations, platform⟩ := descriptor
  have parsed : Digest.parse digest.str = .ok digest := parse_digest.mpr ⟨tidy.digest.1, tidy.digest.2, rfl⟩
  have annotated := @annotations_read python _ tidy.annotations
  have read {fields : List (PyStr × Json)} {shown : Option Platform}
      (media : required fields "mediaType" = .ok (.string media_type)) (named : required fields "digest" = .ok (.string digest.str))
      (sized : required fields "size" = .ok (.int size))
      (annotations_ : annotations_of python (fields.lookup (lit "annotations")) = .ok annotations)
      (shows : platform_of python (fields.lookup (lit "platform")) = shown) :
      Descriptor.from_json python (.object fields) = .ok ⟨media_type, digest, size, annotations, shown⟩ := by
    subst shows
    simp only [Descriptor.from_json, media, named, sized, annotations_, bind, Except.bind, Python.text_of_string, Python.int_of_int, parsed,
      pure, Except.pure]
  cases platform with
  | none =>
    by_cases bare : annotations = []
    next =>
      subst bare
      exact read rfl rfl rfl rfl rfl
    next =>
      rw [Descriptor.to_json, if_neg bare]
      exact read rfl rfl rfl annotated rfl
  | some platform =>
    obtain ⟨fields, written, shown⟩ := @platform_read python platform
    by_cases bare : annotations = []
    next =>
      subst bare
      rw [Descriptor.to_json, Option.map_some, written]
      exact read rfl rfl rfl rfl (congrArg some shown)
    next =>
      rw [Descriptor.to_json, if_neg bare, Option.map_some, written]
      exact read rfl rfl rfl annotated (congrArg some shown)

/-- A manifest that is read has annotations that can be. -/
theorem manifest_annotations {data : Bytes} {manifest : Manifest} (parsed : parse_manifest python data = .ok manifest) :
    ∃ document, python.load data "an image manifest" = .ok document ∧
      annotations_of python (document.lookup (lit "annotations")) = .ok manifest.annotations := by
  obtain ⟨document, loaded, parsed⟩ := Monads.except_bind_ok.mp parsed
  refine ⟨document, loaded, ?_⟩
  split at parsed
  next =>
    obtain ⟨config, -, parsed⟩ := Monads.except_bind_ok.mp parsed
    obtain ⟨layers, -, parsed⟩ := Monads.except_bind_ok.mp parsed
    obtain ⟨annotations, noted, parsed⟩ := Monads.except_bind_ok.mp parsed
    obtain rfl := Except.ok.inj parsed
    exact noted
  next => cases parsed

/-! ### What is written fits -/

theorem json_dict_fits (annotations : List (PyStr × PyStr)) : Json.Fits python.float_repr (json_dict annotations) := by
  refine Json.dict_fits (Json.fit_fields.mpr fun field member => ?_)
  obtain ⟨pair, -, rfl⟩ := List.mem_map.mp member
  trivial

theorem platform_fits (platform : Platform) : Json.Fits python.float_repr platform.to_json := by
  obtain ⟨architecture, os, variant⟩ := platform
  have plain : Json.Fits python.float_repr (.object [(lit "architecture", .string architecture), (lit "os", .string os)]) :=
    ⟨by simp only [List.map_cons, List.map_nil]; decide, trivial, trivial, trivial⟩
  cases variant with
  | none => exact plain
  | some variant =>
    rw [Platform.to_json]
    dsimp only
    split_ifs
    next => exact plain
    next => exact ⟨by simp only [List.cons_append, List.nil_append, List.map_cons, List.map_nil]; decide, trivial, trivial, trivial, trivial⟩

theorem descriptor_fits (descriptor : Descriptor) : Json.Fits python.float_repr descriptor.to_json := by
  obtain ⟨media_type, digest, size, annotations, platform⟩ := descriptor
  rw [Descriptor.to_json]
  refine ⟨?_, Json.fit_fields.mpr fun field member => ?_⟩
  next =>
    cases platform <;> split_ifs <;>
      simp only [Option.map_none, Option.map_some, Option.toList_none, Option.toList_some, List.cons_append, List.nil_append,
        List.append_nil, List.map_cons, List.map_nil] <;> decide
  next =>
    simp only [List.mem_append, List.mem_cons, List.not_mem_nil, or_false, Option.mem_toList, Option.map_eq_some_iff] at member
    rcases member with ((rfl | rfl | rfl) | ⟨platform, rfl, rfl⟩) | noted
    next => trivial
    next => trivial
    next => trivial
    next => exact platform_fits platform
    next =>
      split_ifs at noted
      next => cases noted
      next =>
        rw [List.mem_singleton.mp noted]
        exact json_dict_fits annotations

theorem descriptors_fit (descriptors : List Descriptor) : Json.Fits python.float_repr (.array (descriptors.map Descriptor.to_json)) := by
  refine Json.fit_items.mpr fun item member => ?_
  obtain ⟨descriptor, -, rfl⟩ := List.mem_map.mp member
  exact descriptor_fits descriptor

theorem descriptors_read {descriptors : List Descriptor} (tidy : ∀ descriptor ∈ descriptors, descriptor.Tidy) :
    (descriptors.map Descriptor.to_json).mapM (Descriptor.from_json python) = .ok (descriptors.map Descriptor.normal) := by
  induction descriptors with
  | nil => rfl
  | cons descriptor descriptors ih =>
    obtain ⟨first, others⟩ := List.forall_mem_cons.mp tidy
    rw [List.map_cons, List.mapM_cons, descriptor_read first, ih others]
    rfl

/-! ### Indexes -/

def ImageIndex.normal (index : ImageIndex) : ImageIndex := { index with manifests := index.manifests.map Descriptor.normal }

structure ImageIndex.Tidy (index : ImageIndex) : Prop where
  manifests : ∀ descriptor ∈ index.manifests, descriptor.Tidy
  annotations : Oci.Tidy index.annotations

theorem index_fits (index : ImageIndex) : Json.Fits python.float_repr index.to_json := by
  rw [ImageIndex.to_json]
  refine ⟨?_, Json.fit_fields.mpr fun field member => ?_⟩
  next =>
    split_ifs <;> simp only [List.append_nil, List.cons_append, List.nil_append, List.map_cons, List.map_nil] <;> decide
  next =>
    simp only [List.mem_append, List.mem_cons, List.not_mem_nil, or_false] at member
    rcases member with (rfl | rfl | rfl) | noted
    next => trivial
    next => trivial
    next => exact descriptors_fit index.manifests
    next =>
      split_ifs at noted
      next => cases noted
      next =>
        rw [List.mem_singleton.mp noted]
        exact json_dict_fits index.annotations

/-- What is written of an index is read as the index. -/
theorem index_read {index : ImageIndex} {data : Bytes} (tidy : index.Tidy) (written : index.to_bytes = .ok data) :
    parse_index python data = .ok index.normal := by
  have fits : Json.Fits python.float_repr index.to_json := index_fits index
  have noted : annotations_of python ((if index.annotations = [] then [] else [(lit "annotations", json_dict index.annotations)] :
      List (PyStr × Json)).lookup (lit "annotations")) = .ok index.annotations := by
    split_ifs with bare
    next => exact congrArg Except.ok bare.symm
    next => exact annotations_read tidy.annotations
  rw [ImageIndex.to_bytes, ImageIndex.to_json] at written
  rw [ImageIndex.to_json] at fits
  rw [parse_index, loads_canonical fits (by simp) written]
  change (do
    let manifests ← (index.manifests.map Descriptor.to_json).mapM (Descriptor.from_json python)
    let annotations ← annotations_of python ((if index.annotations = [] then [] else _ : List (PyStr × Json)).lookup (lit "annotations"))
    return (⟨manifests, annotations, index.media_type⟩ : ImageIndex)) = _
  rw [descriptors_read tidy.manifests, noted]
  rfl

end RoundTrips

/-! ## Names in an index -/

theorem annotated_map (descriptor : Descriptor) (key value : PyStr) :
    ((descriptor.annotated key value).annotation_map.map Prod.fst).Nodup ∧
      (descriptor.annotated key value).annotation_map.Perm (Json.set_field key value descriptor.annotation_map) := by
  have keys : ((Json.set_field key value descriptor.annotation_map).map Prod.fst).Nodup := Json.set_field_distinct (Json.dict_keys _)
  have sorted : (descriptor.annotated key value).annotations.Perm (Json.set_field key value descriptor.annotation_map) :=
    List.perm_insertionSort _ _
  have distinct : ((descriptor.annotated key value).annotations.map Prod.fst).Nodup := (sorted.map Prod.fst).nodup_iff.mpr keys
  rw [Descriptor.annotation_map, Json.dict_distinct distinct]
  exact ⟨distinct, sorted⟩

/-- An annotated descriptor has the name it was given. -/
@[simp] theorem ref_name_annotated (descriptor : Descriptor) (image : PyStr) :
    (descriptor.annotated REF_NAME_ANNOTATION image).ref_name = some image := by
  obtain ⟨distinct, same⟩ := annotated_map descriptor REF_NAME_ANNOTATION image
  rw [Descriptor.ref_name, Json.lookup_distinct distinct]
  exact same.mem_iff.mpr (Json.set_field_member _ _ _)

theorem annotated_tidy {descriptor : Descriptor} (tidy : descriptor.Tidy) (key value : PyStr) :
    (descriptor.annotated key value).Tidy where
  digest := tidy.digest
  annotations := by
    have keys : ((Json.set_field key value descriptor.annotation_map).map Prod.fst).Nodup := Json.set_field_distinct (Json.dict_keys _)
    exact ⟨((List.perm_insertionSort _ _).map Prod.fst).nodup_iff.mpr keys, sorted_by id _⟩

/-- Its descriptors are tidy and as they would be read, and no two have one name. -/
structure ImageIndex.Sound (index : ImageIndex) : Prop extends index.Tidy where
  plain : ∀ descriptor ∈ index.manifests, descriptor.normal = descriptor
  distinct : (index.manifests.map Descriptor.ref_name).Nodup

theorem named_iff {index : ImageIndex} (distinct : (index.manifests.map Descriptor.ref_name).Nodup) {image : PyStr}
    {descriptor : Descriptor} :
    index.named image = some descriptor ↔ descriptor ∈ index.manifests ∧ descriptor.ref_name = some image := by
  constructor
  next => exact fun found => ⟨List.mem_of_find?_eq_some found, by simpa using List.find?_some found⟩
  next =>
    rintro ⟨member, name⟩
    cases found : index.named image with
    | none =>
      rw [ImageIndex.named, List.find?_eq_none] at found
      exact absurd name (by simpa using found descriptor member)
    | some other =>
      have name' : other.ref_name = some image := by simpa using List.find?_some found
      rw [List.inj_on_of_nodup_map distinct (List.mem_of_find?_eq_some found) member (name'.trans name.symm)]

section WithImage

variable {index : ImageIndex} (image : PyStr) (descriptor : Descriptor)

theorem mem_with_image {other : Descriptor} : other ∈ (index.with_image image descriptor).manifests ↔
    (other ∈ index.manifests ∧ other.ref_name ≠ some image) ∨ other = descriptor.annotated REF_NAME_ANNOTATION image := by
  rw [ImageIndex.with_image, (List.perm_insertionSort _ _).mem_iff, List.mem_append, List.mem_filter, List.mem_singleton, decide_eq_true_iff]

theorem with_image_distinct (distinct : (index.manifests.map Descriptor.ref_name).Nodup) :
    ((index.with_image image descriptor).manifests.map Descriptor.ref_name).Nodup := by
  rw [ImageIndex.with_image, ((List.perm_insertionSort _ _).map _).nodup_iff, List.map_append, List.map_singleton, ref_name_annotated,
    List.nodup_append]
  refine ⟨distinct.sublist ((List.filter_sublist).map _), List.nodup_singleton _, fun name member other last => ?_⟩
  obtain ⟨kept, there, rfl⟩ := List.mem_map.mp member
  rw [List.mem_singleton.mp last]
  simpa using (List.mem_filter.mp there).2

/-- The name is the descriptor's now, and the other names are whose they were. -/
theorem with_image_named (distinct : (index.manifests.map Descriptor.ref_name).Nodup) (other : PyStr) :
    (index.with_image image descriptor).named other =
      if other = image then some (descriptor.annotated REF_NAME_ANNOTATION image) else index.named other := by
  have later := with_image_distinct image descriptor distinct
  split_ifs with same
  next =>
    subst same
    exact (named_iff later).mpr ⟨(mem_with_image other descriptor).mpr (.inr rfl), ref_name_annotated descriptor other⟩
  next =>
    refine Option.ext fun found => ?_
    rw [named_iff later, named_iff distinct, mem_with_image]
    constructor
    next =>
      rintro ⟨⟨member, -⟩ | rfl, name⟩
      next => exact ⟨member, name⟩
      next => exact absurd (Option.some.inj ((ref_name_annotated descriptor image).symm.trans name)).symm same
    next =>
      rintro ⟨member, name⟩
      exact ⟨.inl ⟨member, fun here => same (Option.some.inj (name.symm.trans here))⟩, name⟩

theorem with_image_tidy (tidy : index.Tidy) (fits : descriptor.Tidy) : (index.with_image image descriptor).Tidy where
  manifests other member := by
    rcases (mem_with_image image descriptor).mp member with ⟨member, -⟩ | rfl
    next => exact tidy.manifests other member
    next => exact annotated_tidy fits _ _
  annotations := tidy.annotations

end WithImage

theorem normal_twice (descriptor : Descriptor) : descriptor.normal.normal = descriptor.normal := by
  obtain ⟨media_type, digest, size, annotations, platform⟩ := descriptor
  cases platform with
  | none => rfl
  | some platform =>
    obtain ⟨architecture, os, variant⟩ := platform
    rcases variant with _ | _ | _ <;> rfl

theorem Descriptor.Tidy.normal {descriptor : Descriptor} (tidy : descriptor.Tidy) : descriptor.normal.Tidy :=
  ⟨tidy.digest, tidy.annotations⟩

/-- What is read of a tidy index is sound. -/
theorem ImageIndex.Tidy.sound {index : ImageIndex} (tidy : index.Tidy) (distinct : (index.manifests.map Descriptor.ref_name).Nodup) :
    index.normal.Sound where
  manifests descriptor member := by
    obtain ⟨other, there, rfl⟩ := List.mem_map.mp member
    exact (tidy.manifests other there).normal
  annotations := tidy.annotations
  plain descriptor member := by
    obtain ⟨other, -, rfl⟩ := List.mem_map.mp member
    exact normal_twice other
  distinct := by
    rw [ImageIndex.normal, List.map_map]
    exact distinct

theorem normal_named (index : ImageIndex) (image : PyStr) : index.normal.named image = (index.named image).map Descriptor.normal :=
  List.find?_map

end Oci

end LedgerVcs
