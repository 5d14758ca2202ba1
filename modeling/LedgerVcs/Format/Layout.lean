import LedgerVcs.Format.Codec

set_option autoImplicit false

/-!
# The byte layout of each object

`Layout.object` is the one spelling of an object and `Fits` says which objects have one. `encode`
writes exactly that, and `decode` accepts exactly that for the objects it can produce.
-/

namespace LedgerVcs

open Wire (Bytes Writes Parses toBE toSigned FitsSigned)
open Text (PyStr)

namespace Layout

def text (value : PyStr) : Bytes := (Text.encodeUtf8 value).getD []

def sized (width : Nat) (data : Bytes) : Bytes := toBE width data.length ++ data

def blobEntry (entry : BlobEntry) : Bytes := entry.target.digest ++ toBE 8 entry.size.toNat

def treeEntry (entry : TreeEntry) : Bytes :=
  sized 1 entry.name ++ (toBE 1 entry.kind.value.toNat ++ (entry.target.digest ++
    (toBE 2 entry.mode.toNat ++ toBE 8 entry.size.toNat)))

def metadataItem (item : PyStr × PyStr) : Bytes := sized 1 (text item.1) ++ sized 4 (text item.2)

def node (level : Int) (count : Nat) (entries : Bytes) : Bytes :=
  toBE 1 level.toNat ++ (toBE 4 count ++ entries)

def blob (blob : Blob) : Bytes := node blob.level blob.entries.length (blob.entries.flatMap blobEntry)

def tree (tree : Tree) : Bytes := node tree.level tree.entries.length (tree.entries.flatMap treeEntry)

def changeId (change_id : ChangeId) : Bytes := (Text.fromhex change_id.value).getD []

def commit (commit : Commit) : Bytes :=
  commit.tree.digest ++ (toBE 2 commit.parents.length ++ (commit.parents.flatMap ObjectName.digest ++
    (changeId commit.change_id ++ (sized 1 (text commit.author) ++ (sized 1 (text commit.committer) ++
      (toSigned 8 commit.timestamp_us ++ (sized 4 (text commit.message) ++
        (toBE 4 commit.metadata.length ++ commit.metadata.flatMap metadataItem))))))))

def payload : LedgerObject → Bytes
  | .chunk chunk => chunk.data
  | .blob value => blob value
  | .tree value => tree value
  | .commit value => commit value

def object (obj : LedgerObject) : Bytes := obj.kind.value :: FORMAT_VERSION :: payload obj

end Layout

namespace Fits

def u8 (value : Int) : Prop := 0 ≤ value ∧ value ≤ U8_MAX

def u16 (value : Int) : Prop := 0 ≤ value ∧ value ≤ U16_MAX

def u64 (value : Int) : Prop := 0 ≤ value ∧ value ≤ U64_MAX

def text (maximum : Nat) (value : PyStr) : Prop :=
  ∃ raw, Text.encodeUtf8 value = some raw ∧ raw.length ≤ maximum

def blobEntry (entry : BlobEntry) : Prop := 0 < entry.size ∧ u64 entry.size

def treeEntry (entry : TreeEntry) : Prop :=
  entry.name.length ≤ U8_MAX ∧ u16 entry.mode ∧ u64 entry.size

def metadataItem (item : PyStr × PyStr) : Prop := text U8_MAX item.1 ∧ text U32_MAX item.2

def node (what : String) (level : Int) (count : Nat) : Prop :=
  u8 level ∧ count ≤ U32_MAX ∧ validate_node_level level count what = .ok ()

def blob (blob : Blob) : Prop :=
  node "blob" blob.level blob.entries.length ∧ ∀ entry ∈ blob.entries, blobEntry entry

def tree (tree : Tree) : Prop :=
  node "tree" tree.level tree.entries.length ∧ (∀ entry ∈ tree.entries, treeEntry entry) ∧
    validate_tree_entries tree = .ok ()

def commit (commit : Commit) : Prop :=
  validate_commit commit = .ok () ∧ commit.parents.length ≤ U16_MAX ∧ text U8_MAX commit.author ∧
    text U8_MAX commit.committer ∧ FitsSigned 8 commit.timestamp_us ∧ text U32_MAX commit.message ∧
      commit.metadata.length ≤ U32_MAX ∧ ∀ item ∈ commit.metadata, metadataItem item

/-- Nodes are bounded as a whole, header included. -/
def object : LedgerObject → Prop
  | .chunk chunk => validate_chunk chunk = .ok ()
  | .blob value => blob value ∧ HEADER_BYTES + (Layout.blob value).length ≤ MAX_NODE_BYTES
  | .tree value => tree value ∧ HEADER_BYTES + (Layout.tree value).length ≤ MAX_NODE_BYTES
  | .commit value => commit value

end Fits

end LedgerVcs
