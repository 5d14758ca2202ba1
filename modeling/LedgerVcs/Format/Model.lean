import LedgerVcs.Ids

set_option autoImplicit false

namespace LedgerVcs

open Wire (Bytes)
open Text (PyStr)

inductive ObjectKind
  | chunk | blob | tree | commit
deriving DecidableEq, Repr

def ObjectKind.value : ObjectKind → UInt8
  | .chunk => 1
  | .blob => 2
  | .tree => 3
  | .commit => 4

def ObjectKind.ofValue? : UInt8 → Option ObjectKind
  | 1 => some .chunk
  | 2 => some .blob
  | 3 => some .tree
  | 4 => some .commit
  | _ => none

inductive EntryKind
  | tree | blob | symlink | conflict
deriving DecidableEq, Repr

def EntryKind.value : EntryKind → Int
  | .tree => 1
  | .blob => 2
  | .symlink => 3
  | .conflict => 4

def EntryKind.ofValue? : Int → Option EntryKind
  | 1 => some .tree
  | 2 => some .blob
  | 3 => some .symlink
  | 4 => some .conflict
  | _ => none

theorem ObjectKind.ofValue_eq_some {tag : UInt8} {kind : ObjectKind} :
    ofValue? tag = some kind ↔ tag = kind.value := by
  constructor
  next =>
    intro found
    unfold ofValue? at found
    split at found <;> cases found <;> rfl
  next => rintro rfl; cases kind <;> rfl

theorem EntryKind.ofValue_eq_some {tag : Int} {kind : EntryKind} :
    ofValue? tag = some kind ↔ tag = kind.value := by
  constructor
  next =>
    intro found
    unfold ofValue? at found
    split at found <;> cases found <;> rfl
  next => rintro rfl; cases kind <;> rfl

structure Chunk where
  data : Bytes
deriving DecidableEq

structure BlobEntry where
  target : ObjectName
  size : Int
deriving DecidableEq

structure Blob where
  level : Int
  entries : List BlobEntry
deriving DecidableEq

structure TreeEntry where
  name : Bytes
  kind : EntryKind
  target : ObjectName
  mode : Int
  size : Int
deriving DecidableEq

structure Tree where
  level : Int
  entries : List TreeEntry
deriving DecidableEq

structure Commit where
  tree : ObjectName
  parents : List ObjectName
  change_id : ChangeId
  author : PyStr
  committer : PyStr
  timestamp_us : Int
  message : PyStr
  metadata : List (PyStr × PyStr)
deriving DecidableEq

inductive LedgerObject
  | chunk (chunk : Chunk)
  | blob (blob : Blob)
  | tree (tree : Tree)
  | commit (commit : Commit)
deriving DecidableEq

def LedgerObject.kind : LedgerObject → ObjectKind
  | .chunk _ => .chunk
  | .blob _ => .blob
  | .tree _ => .tree
  | .commit _ => .commit

end LedgerVcs
