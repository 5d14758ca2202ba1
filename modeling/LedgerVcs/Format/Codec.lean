import LedgerVcs.Format.Constants
import LedgerVcs.Format.Wire

set_option autoImplicit false

namespace LedgerVcs

open Wire (Bytes)
open Text (PyStr)

def HEADER_BYTES : Nat := 2

def CHANGE_ID_BYTES : Nat := 16

def READABLE_VERSIONS : List UInt8 := [1]

def FORBIDDEN_NAME_BYTES : List UInt8 := [0x2F, 0x00]

def RESERVED_NAMES : List Bytes := [[0x2E], [0x2E, 0x2E]]

def VALID_FILE_MODES : List Int := [ MODE_REGULAR, MODE_EXEC]

/-! ## Validation, called from both directions -/

def decode_utf8 (raw : Bytes) (what : String) : Except PyError PyStr :=
  match Text.decodeUtf8 raw with
  | some text => .ok text
  | none => .error (.notCanonical s!"{what} is not valid UTF-8")

def validate_chunk (chunk : Chunk) : Except PyError Unit := do
  ensure (chunk.data ≠ [])
    (.notCanonical
      "a zero-length chunk is not a valid object; an empty file is a blob with no entries")
  ensure (chunk.data.length ≤ MAX_CHUNK_BYTES) (.notCanonical "chunk exceeds the maximum chunk size")

def validate_node_level (level : Int) (entry_count : Nat) (what : String) : Except PyError Unit := do
  ensure (¬ (entry_count = 0 ∧ level ≠ 0)) (.notCanonical s!"an empty {what} node must be at level 0")
  ensure (¬ (level > 0 ∧ entry_count < 2))
    (.notCanonical s!"an interior {what} node needs at least two children, otherwise it is a redundant spelling of its only child")

def reject_oversized_node (encoded_length : Nat) (what : String) : Except PyError Unit :=
  ensure (encoded_length ≤ MAX_NODE_BYTES) (.notCanonical s!"{what} node exceeds the maximum node size")

def validate_blob_entry (entry : BlobEntry) : Except PyError Unit :=
  ensure (0 < entry.size) (.notCanonical "a blob entry must cover at least one byte")

def validate_entry_name (name : Bytes) : Except PyError Unit := do
  ensure (1 ≤ name.length ∧ name.length ≤ MAX_ENTRY_NAME_BYTES)
    (.notCanonical "tree entry name length out of range")
  ensure (∀ byte ∈ name, byte ∉ FORBIDDEN_NAME_BYTES)
    (.notCanonical "tree entry name contains a separator or NUL")
  ensure (name ∉ RESERVED_NAMES) (.notCanonical "tree entry name is reserved")
  discard (decode_utf8 name "tree entry name")

/-- What `_validate_tree_entries` asks of one entry apart from its place in the order. -/
def validate_tree_entry_fields (level : Int) (entry : TreeEntry) : Except PyError Unit := do
  ensure (entry.kind ≠ .conflict) (.notCanonical "conflict entries are reserved and rejected in v1")
  if level > 0 then
    ensure (entry.kind = .tree ∧ entry.mode = 0 ∧ entry.size = 0)
      (.notCanonical "an interior tree entry must be a bare subtree reference")
  else
    match entry.kind with
    | .blob =>
      ensure (entry.mode ∈ VALID_FILE_MODES) (.notCanonical "file mode must be 0o644 or 0o755")
    | .tree =>
      ensure (entry.mode = 0 ∧ entry.size = 0)
        (.notCanonical
          "a subtree entry carries no mode and no size; a recursive size cannot be validated without fetching children")
    | .symlink => ensure (entry.mode = 0) (.notCanonical "a symlink entry carries no mode")
    | .conflict => throw (.assertionError "unreachable")
    ensure (0 ≤ entry.size) (.notCanonical "negative entry size")

def validate_tree_entries_from (level : Int) : Option Bytes → List TreeEntry → Except PyError Unit
  | _, [] => pure ()
  | previous, entry :: entries => do
    validate_entry_name entry.name
    ensure (∀ before ∈ previous, ¬ entry.name ≤ before)
      (.notCanonical "tree entries must be strictly ascending by unsigned byte order")
    validate_tree_entry_fields level entry
    validate_tree_entries_from level (some entry.name) entries

def validate_tree_entries (tree : Tree) : Except PyError Unit :=
  validate_tree_entries_from tree.level none tree.entries

def validate_metadata_from : Option PyStr → List (PyStr × PyStr) → Except PyError Unit
  | _, [] => pure ()
  | previous_key, (key, _) :: metadata => do
    ensure (key ≠ []) (.notCanonical "empty metadata key")
    ensure (∀ before ∈ previous_key, ¬ key ≤ before)
      (.notCanonical "commit metadata keys must be strictly ascending")
    validate_metadata_from (some key) metadata

def validate_commit (commit : Commit) : Except PyError Unit := do
  ensure (commit.change_id.value.length = CHANGE_ID_BYTES * 2)
    (.notCanonical "change id must be 16 bytes")
  ensure (Text.fromhex commit.change_id.value ≠ none) (.notCanonical "change id is not hex")
  ensure commit.parents.Nodup (.notCanonical "duplicate parent in commit")
  ensure (commit.author ≠ [] ∧ commit.committer ≠ [])
    (.notCanonical "commit author and committer are required")
  validate_metadata_from none commit.metadata

/-! ## Encoding -/

/-- `bytes.fromhex(text)` -/
def fromhex (text : PyStr) : Except PyError Bytes :=
  match Text.fromhex text with
  | some bytes => .ok bytes
  | none => .error (.valueError "non-hexadecimal number found in fromhex() arg")

/-- `text.encode()` -/
def encode_utf8 (text : PyStr) : Except PyError Bytes :=
  match Text.encodeUtf8 text with
  | some bytes => .ok bytes
  | none => .error (.valueError "'utf-8' codec can't encode characters: surrogates not allowed")

def validate_node_size (what : String) : Writer := do
  let buffer ← get
  reject_oversized_node buffer.length what

def encode_chunk (chunk : Chunk) : Writer := do
  validate_chunk chunk
  Writer.raw chunk.data

def encode_blob_entry (entry : BlobEntry) : Writer := do
  validate_blob_entry entry
  Writer.name entry.target
  Writer.u64 entry.size

def encode_blob (blob : Blob) : Writer := do
  validate_node_level blob.level blob.entries.length "blob"
  Writer.u8 blob.level
  Writer.u32 blob.entries.length
  blob.entries.forM encode_blob_entry
  validate_node_size "blob"

def encode_tree_entry (entry : TreeEntry) : Writer := do
  Writer.bytes_u8 entry.name
  Writer.u8 entry.kind.value
  Writer.name entry.target
  Writer.u16 entry.mode
  Writer.u64 entry.size

def encode_tree (tree : Tree) : Writer := do
  validate_node_level tree.level tree.entries.length "tree"
  validate_tree_entries tree
  Writer.u8 tree.level
  Writer.u32 tree.entries.length
  tree.entries.forM encode_tree_entry
  validate_node_size "tree"

def encode_text (field : Bytes → Writer) (text : PyStr) : Writer := do
  let raw ← encode_utf8 text
  field raw

def encode_change_id (change_id : ChangeId) : Writer := do
  let raw ← fromhex change_id.value
  Writer.raw raw

def encode_metadata_item (item : PyStr × PyStr) : Writer := do
  encode_text Writer.bytes_u8 item.1
  encode_text Writer.bytes_u32 item.2

def encode_commit (commit : Commit) : Writer := do
  validate_commit commit
  Writer.name commit.tree
  Writer.u16 commit.parents.length
  commit.parents.forM Writer.name
  encode_change_id commit.change_id
  encode_text Writer.bytes_u8 commit.author
  encode_text Writer.bytes_u8 commit.committer
  Writer.i64 commit.timestamp_us
  encode_text Writer.bytes_u32 commit.message
  Writer.u32 commit.metadata.length
  commit.metadata.forM encode_metadata_item

def encode_payload : LedgerObject → Writer
  | .chunk chunk => encode_chunk chunk
  | .blob blob => encode_blob blob
  | .tree tree => encode_tree tree
  | .commit commit => encode_commit commit

def encode (obj : LedgerObject) : Except PyError Bytes := do
  let writer : Writer := do
    Writer.u8 obj.kind.value.toNat
    Writer.u8 FORMAT_VERSION.toNat
    encode_payload obj
  let (_, framed) ← writer []
  return framed

/-! ## Decoding -/

def peek_kind (framed : Bytes) : Except PyError ObjectKind :=
  match framed with
  | tag :: _ :: _ =>
    match ObjectKind.ofValue? tag with
    | some kind => .ok kind
    | none => .error (.malformedObject "unknown object kind")
  | _ => .error (.malformedObject "object shorter than its header")

def decode_chunk : Cursor Chunk := do
  let data ← Cursor.rest
  validate_chunk ⟨data⟩
  return ⟨data⟩

def decode_blob_entry : Cursor BlobEntry := do
  let target ← Cursor.name
  let size ← Cursor.u64
  validate_blob_entry ⟨target, size⟩
  return ⟨target, size⟩

def decode_blob (framed_length : Nat) : Cursor Blob := do
  let level ← Cursor.u8
  let count ← Cursor.u32
  let entries ← Wire.repeatP decode_blob_entry count.toNat
  validate_node_level level count.toNat "blob"
  reject_oversized_node framed_length "blob"
  return ⟨level, entries⟩

def entry_kind (kind_byte : Int) : Except PyError EntryKind :=
  match EntryKind.ofValue? kind_byte with
  | some kind => .ok kind
  | none => .error (.malformedObject "unknown tree entry kind")

def decode_tree_entry : Cursor TreeEntry := do
  let name ← Cursor.bytes_u8
  let kind_byte ← Cursor.u8
  let kind ← entry_kind kind_byte
  let target ← Cursor.name
  let mode ← Cursor.u16
  let size ← Cursor.u64
  return { name, kind, target, mode, size }

def decode_tree (framed_length : Nat) : Cursor Tree := do
  let level ← Cursor.u8
  let count ← Cursor.u32
  let entries ← Wire.repeatP decode_tree_entry count.toNat
  validate_node_level level count.toNat "tree"
  validate_tree_entries ⟨level, entries⟩
  reject_oversized_node framed_length "tree"
  return ⟨level, entries⟩

def decode_text (field : Cursor Bytes) (what : String) : Cursor PyStr := do
  let raw ← field
  decode_utf8 raw what

def decode_metadata_item : Cursor (PyStr × PyStr) := do
  let key ← decode_text Cursor.bytes_u8 "metadata key"
  let value ← decode_text Cursor.bytes_u32 "metadata value"
  return (key, value)

def decode_commit : Cursor Commit := do
  let tree ← Cursor.name
  let parent_count ← Cursor.u16
  let parents ← Wire.repeatP Cursor.name parent_count.toNat
  let change_id ← Cursor.raw CHANGE_ID_BYTES
  let author ← decode_text Cursor.bytes_u8 "author"
  let committer ← decode_text Cursor.bytes_u8 "committer"
  let timestamp_us ← Cursor.i64
  let message ← decode_text Cursor.bytes_u32 "message"
  let metadata_count ← Cursor.u32
  let metadata ← Wire.repeatP decode_metadata_item metadata_count.toNat
  let commit : Commit :=
    { tree, parents, change_id := ⟨Text.hex change_id⟩, author, committer, timestamp_us, message, metadata }
  validate_commit commit
  return commit

def decode_payload (kind : ObjectKind) (framed_length : Nat) : Cursor LedgerObject :=
  match kind with
  | .chunk => .chunk <$> decode_chunk
  | .blob => .blob <$> decode_blob framed_length
  | .tree => .tree <$> decode_tree framed_length
  | .commit => .commit <$> decode_commit

def decode (framed : Bytes) : Except PyError LedgerObject := do
  let kind ← peek_kind framed
  ensure (framed.getD 1 0 ∈ READABLE_VERSIONS)
    (.unsupportedFormatVersion "object format version is not readable by this build")
  let cursor : Cursor LedgerObject := do
    let obj ← decode_payload kind framed.length
    Cursor.expect_exhausted
    return obj
  let (obj, _) ← cursor (framed.drop HEADER_BYTES)
  return obj

/-! ## Naming -/

def name_of_encoded (blake3 : Blake3) (framed : Bytes) : ObjectName :=
  ⟨blake3.digest framed DIGEST_BYTES, blake3.sized ..⟩

def name_of (blake3 : Blake3) (obj : LedgerObject) : Except PyError ObjectName := do
  let framed ← encode obj
  return name_of_encoded blake3 framed

def verify (blake3 : Blake3) (name : ObjectName) (framed : Bytes) : Except PyError Unit :=
  ensure (name_of_encoded blake3 framed = name)
    (.corruptObject "stored bytes do not match the name they were requested by")

end LedgerVcs
