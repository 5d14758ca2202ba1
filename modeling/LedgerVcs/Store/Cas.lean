import LedgerVcs.World

set_option autoImplicit false

namespace LedgerVcs

open Prog (ofExcept)

/-- `dict.fromkeys`: the first of equal names stays. -/
def fromkeys (names : List ObjectName) : List ObjectName := names.reverse.dedup.reverse

@[simp] theorem mem_fromkeys {names : List ObjectName} {name : ObjectName} :
    name ∈ fromkeys names ↔ name ∈ names := by
  simp [fromkeys]

structure PutOutcome where
  name : ObjectName
  created : Bool
  size : Nat
  stored_size : Nat
deriving DecidableEq

section Store

variable (corpus : Corpus)

def put_encoded (name : ObjectName) : Act PutOutcome := do
  let stored : Bool ← issue (.backend_exists name)
  if stored then
    issue (.tombstone_clear name)
    return ⟨name, false, corpus.length name, 0⟩
  else
    let occupied ← issue (.backend_write name)
    issue (.tombstone_clear name)
    let written_at_us ← issue .now_us
    issue (.catalog_record
      { name, size := occupied, kind := (corpus.content name).map LedgerObject.kind, written_at_us })
    return ⟨name, true, corpus.length name, occupied⟩

def put_object (object : LedgerObject) : Act PutOutcome := do
  let name ← ofExcept (corpus.name_of object)
  put_encoded corpus name

/-- Bytes a caller sent under `name`; `offered` is the name they hash to. -/
def put (name offered : ObjectName) : Act PutOutcome := do
  ofExcept (ensure (offered = name)
    (.corruptObject "offered bytes do not hash to the name they were sent under"))
  ofExcept (ensure (corpus.content offered).isSome (.malformedObject "offered bytes are not an object"))
  put_encoded corpus name

end Store

def get_object (name : ObjectName) : Act LedgerObject := do
  let framed : Except PyError LedgerObject ← issue (.backend_read name)
  ofExcept framed

def wrong_kind : PyError := .malformedObject "object is not of the expected kind"

def get_commit (name : ObjectName) : Act Commit := do
  match ← get_object name with
  | .commit commit => return commit
  | _ => .fail wrong_kind

def get_tree (name : ObjectName) : Act Tree := do
  match ← get_object name with
  | .tree tree => return tree
  | _ => .fail wrong_kind

def get_blob (name : ObjectName) : Act Blob := do
  match ← get_object name with
  | .blob blob => return blob
  | _ => .fail wrong_kind

/-- The names whose files the backend has. -/
def exists_many : List ObjectName → Act (Finset ObjectName)
  | [] => return ∅
  | name :: names => do
    let stored : Bool ← issue (.backend_exists name)
    let others ← exists_many names
    return if stored then insert name others else others

def missing (names : List ObjectName) : Act (Finset ObjectName) := do
  if names = [] then return ∅
  else
    let unique := fromkeys names
    let present ← exists_many unique
    let tombstoned : Finset ObjectName ← issue (.tombstone_filter unique)
    return (unique.toFinset \ present) ∪ tombstoned

/-- One call for each of the names. -/
def each {α : Type} (names : List ObjectName) (command : ObjectName → Act α) : Act (List α) :=
  names.mapM command

def delete (names : List ObjectName) : Act Nat := do
  let removed ← each names fun name => issue (.backend_delete name)
  let _ ← each names fun name => issue (.catalog_forget name)
  return (removed.filter id).length

end LedgerVcs
