import LedgerVcs.Oci.Model

set_option autoImplicit false

/-! Reading an image out of what a container tool handed over. -/

namespace LedgerVcs

open Text (PyStr lit)
open Wire (Bytes)

namespace Oci

def MAX_INDEX_DEPTH : Nat := 4

def CONTAINERD_NAME : PyStr := lit "io.containerd.image.name"

/-- One blob, addressed as its source addresses blobs. -/
structure SourceBlob where
  reference : PyStr
  media_type : PyStr
  size : Int
  digest : Option Digest
deriving DecidableEq

/-- One platform's image. An archive of the old kind has no manifest. -/
structure SourceImage where
  config : SourceBlob
  layers : List SourceBlob
  manifest_bytes : Option Bytes
  annotations : List (PyStr × PyStr)
  platform : Option Platform
  source_name : Option PyStr

/-- What it opens is given as all the bytes that there are to read. -/
structure ImageSource where
  select : Option PyStr → Platform → Except PyError SourceImage
  read : SourceBlob → Except PyError Bytes
  opened : SourceBlob → Except PyError Bytes

/-- The members of a tarball, or the files of a directory. -/
structure Files where
  read : PyStr → Except PyError Bytes
  opened : PyStr → Except PyError Bytes
  size : PyStr → Except PyError Nat
  has : PyStr → Bool

/-- The digest of SHA-256. -/
structure Sha256 where
  digest : Bytes → Bytes
  size : ∀ data, (digest data).length = 32

/-- SHA-256 on the inputs a table lists. -/
def Sha256.ofTable (table : List (Bytes × Bytes)) : Sha256 where
  digest data := ((table.lookup data).getD [] ++ List.replicate 32 0).take 32
  size data := by simp

/-- `Digest.of` -/
def Digest.of (sha256 : Sha256) (data : Bytes) : Digest := ⟨SHA256, Text.hex (sha256.digest data)⟩

section Sources

variable (python : Python) (files : Files)

/-! ## The image layout -/

namespace OciLayoutSource

def index : Except PyError ImageIndex := do
  let data ← files.read (lit "index.json")
  parse_index python data

/-- `_blob` -/
def blob (descriptor : Descriptor) : SourceBlob := ⟨descriptor.digest.str, descriptor.media_type, descriptor.size, some descriptor.digest⟩

/-- `_blob_path` -/
def blob_path (reference : PyStr) : Except PyError PyStr := do
  let digest ← Digest.parse reference
  return lit "blobs/" ++ digest.algorithm ++ 0x2f :: digest.encoded

def read (blob : SourceBlob) : Except PyError Bytes := do
  let path ← blob_path blob.reference
  files.read path

def opened (blob : SourceBlob) : Except PyError Bytes := do
  let path ← blob_path blob.reference
  files.opened path

/-- `_name_of` -/
def name_of (descriptor : Descriptor) : Option PyStr :=
  let annotations := descriptor.annotation_map
  match annotations.lookup REF_NAME_ANNOTATION with
  | some (point :: name) => some (point :: name)
  | _ => annotations.lookup CONTAINERD_NAME

/-- Whether the image is called so, or so behind a slash. -/
def called (image : PyStr) (descriptor : Descriptor) : Bool :=
  let annotations := descriptor.annotation_map
  [annotations.lookup REF_NAME_ANNOTATION, annotations.lookup CONTAINERD_NAME].any fun candidate =>
    candidate = some image ∨ ∃ name ∈ candidate, 0x2f :: image <:+ name

/-- `_pick_named` -/
def pick_named (descriptors : List Descriptor) (image : Option PyStr) : Except PyError Descriptor :=
  if descriptors = [] then .error (.invalidRequest "this archive contains no images")
  else
    match image with
    | none =>
      match descriptors with
      | [descriptor] => .ok descriptor
      | _ => .error (.invalidRequest "this archive holds more than one image; name the one to ingest")
    | some image =>
      match descriptors.find? (called image) with
      | some descriptor => .ok descriptor
      | none => .error (.notFound "this archive holds no such image")

/-- The loop of `select`, which has to find a manifest within so many rounds. -/
def descend (platform : Platform) : (rounds : Nat) → Descriptor → Except PyError Descriptor
  | 0, _ => throw (.invalidRequest "image index nests too deeply")
  | rounds + 1, descriptor =>
    if ¬ is_index descriptor.media_type then return descriptor
    else do
      let data ← read files (blob descriptor)
      let nested ← parse_index python data
      match select_platform nested.manifests platform with
      | none => throw (.notFound "this image has no manifest for that platform")
      | some chosen => descend platform rounds chosen

def select (image : Option PyStr) (platform : Platform) : Except PyError SourceImage := do
  let index ← index python files
  let named ← pick_named index.manifests image
  let descriptor ← descend python files platform MAX_INDEX_DEPTH named
  let manifest_bytes ← read files (blob descriptor)
  let manifest ← parse_manifest python manifest_bytes
  return ⟨blob manifest.config, manifest.layers.map blob, some manifest_bytes, manifest.annotations, descriptor.platform, name_of descriptor⟩

def source : ImageSource := ⟨select python files, read files, opened files⟩

end OciLayoutSource

/-! ## Docker's archive -/

namespace DockerArchiveSource

structure LegacyEntry where
  config : PyStr
  layers : List PyStr
  tags : List PyStr
deriving DecidableEq

/-- What a `for` goes through. -/
def items_of : Json → Except PyError (List Json)
  | .array items => .ok items
  | .string text => .ok (text.map fun point => .string [point])
  | .object fields => .ok (fields.map fun field => .string field.1)
  | _ => .error (.valueError "object is not iterable")

def legacy_entry : Json → Except PyError LegacyEntry
  | .object raw =>
    match raw.lookup (lit "Config"), raw.lookup (lit "Layers") with
    | some config, some layers => do
      let layers ← items_of layers
      let tags ← items_of (((raw.lookup (lit "RepoTags")).filter truthy).getD (.array []))
      return ⟨python.text_of config, layers.map python.text_of, tags.map python.text_of⟩
    | _, _ => throw (.invalidRequest "a docker archive entry needs 'Config' and 'Layers'")
  | _ => throw (.invalidRequest "a docker archive entry needs 'Config' and 'Layers'")

/-- `_load_legacy_manifest` -/
def load_legacy_manifest : Except PyError (List LegacyEntry) := do
  let data ← files.read (lit "manifest.json")
  match ← python.loads data (.valueError "Expecting value") with
  | .array (first :: others) => (first :: others).mapM (legacy_entry python)
  | _ => throw (.invalidRequest "a docker archive's manifest.json must be a non-empty array")

/-- `_pick_legacy` -/
def pick_legacy (entries : List LegacyEntry) (image : Option PyStr) : Except PyError LegacyEntry :=
  match image with
  | none =>
    match entries with
    | [entry] => .ok entry
    | _ => .error (.invalidRequest "this archive holds more than one image; name the one to ingest")
  | some image =>
    match entries.find? fun entry => image ∈ entry.tags ∨ ∃ tag ∈ entry.tags, 0x2f :: image <:+ tag with
    | some entry => .ok entry
    | none => .error (.notFound "this archive holds no such image")

/-- It holds exactly one platform for each entry. -/
def select (sha256 : Sha256) (entries : List LegacyEntry) (image : Option PyStr) (_platform : Platform) : Except PyError SourceImage := do
  let entry ← pick_legacy entries image
  let config_bytes ← files.read entry.config
  let layers ← entry.layers.mapM fun layer => do
    let size ← files.size layer
    return (⟨layer, if lit ".gz" <:+ layer then MEDIA_DOCKER_LAYER_GZIP else MEDIA_DOCKER_LAYER, size, none⟩ : SourceBlob)
  return {
    config := ⟨entry.config, MEDIA_IMAGE_CONFIG, config_bytes.length, some (Digest.of sha256 config_bytes)⟩
    layers
    manifest_bytes := none
    annotations := []
    platform := none
    source_name := entry.tags.head? }

def source (sha256 : Sha256) : Except PyError ImageSource := do
  let entries ← load_legacy_manifest python files
  return ⟨select files sha256 entries, fun blob => files.read blob.reference, fun blob => files.opened blob.reference⟩

end DockerArchiveSource

/-! ## Which of the two -/

/-- `_dispatch` -/
def open_image_source (sha256 : Sha256) : Except PyError ImageSource :=
  if files.has (lit "index.json") then .ok (OciLayoutSource.source python files)
  else if files.has (lit "manifest.json") then DockerArchiveSource.source python files sha256
  else .error (.invalidRequest "this is neither an OCI image layout nor a docker archive — no index.json and no manifest.json")

end Sources

/-! ## What is selected -/

section Selected

variable {python : Python} {files : Files} {sha256 : Sha256} {source : ImageSource}

/-- A source that has a manifest for an image has read it. -/
theorem selected_parses (opened : open_image_source python files sha256 = .ok source) {image : Option PyStr} {platform : Platform}
    {selected : SourceImage} (selects : source.select image platform = .ok selected) {data : Bytes}
    (given : selected.manifest_bytes = some data) : ∃ manifest, parse_manifest python data = .ok manifest := by
  rw [open_image_source] at opened
  split_ifs at opened
  next =>
    obtain rfl := Except.ok.inj opened
    obtain ⟨index, -, selects⟩ := Monads.except_bind_ok.mp selects
    obtain ⟨named, -, selects⟩ := Monads.except_bind_ok.mp selects
    obtain ⟨descriptor, -, selects⟩ := Monads.except_bind_ok.mp selects
    obtain ⟨manifest_bytes, -, selects⟩ := Monads.except_bind_ok.mp selects
    obtain ⟨manifest, parsed, selects⟩ := Monads.except_bind_ok.mp selects
    obtain rfl := Except.ok.inj selects
    obtain rfl := Option.some.inj given
    exact ⟨manifest, parsed⟩
  next =>
    obtain ⟨entries, -, made⟩ := Monads.except_bind_ok.mp opened
    obtain rfl := Except.ok.inj made
    obtain ⟨entry, -, selects⟩ := Monads.except_bind_ok.mp selects
    obtain ⟨config_bytes, -, selects⟩ := Monads.except_bind_ok.mp selects
    obtain ⟨layers, -, selects⟩ := Monads.except_bind_ok.mp selects
    obtain rfl := Except.ok.inj selects
    cases given

end Selected

end Oci

end LedgerVcs
