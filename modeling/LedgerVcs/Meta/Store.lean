import LedgerVcs.Meta.Keys

set_option autoImplicit false

namespace LedgerVcs

structure Item (β : Type) where
  body : β
  version : Nat
  generation : Option Int
  expires_at_us : Option Int
deriving DecidableEq

inductive Condition
  | absent
  | version_is (version : Nat)
  | generation_is (generation : Int)
deriving DecidableEq

inductive StreamEvent
  | ref_updated (ref : RefName) (before : Option ObjectName) (after : ObjectName) (generation : Int)
      (op_sequence : Nat)
  | ref_deleted (ref : RefName) (before : ObjectName) (op_sequence : Nat)
deriving DecidableEq

inductive WriteOp
  | put (key : SortKey) (body : key.Body) (condition : Option Condition) (generation : Option Int)
      (expires_at_us : Option Int)
  | delete (key : SortKey) (condition : Option Condition)
  | emit (event : StreamEvent)

/-- Everything mutable about one environment: the items under its partition key, one table for each kind
of sort key, and its part of the change stream. -/
structure Partition where
  env : Option (Item Environment)
  refs : Std.ExtTreeMap RefName (Item Ref)
  changes : Std.ExtTreeMap ChangeId (Item ChangeRecord)
  ops : Std.ExtTreeMap Nat (Item OpLogEntry) (byText OP_SEQ_DIGITS)
  seq : Option (Item Nat)
  sessions : Std.ExtTreeMap SessionId (Item WriteSession)
  session_pages : Std.ExtTreeMap SessionPage (Item (List ObjectName))
  idems : Std.ExtTreeMap String (Item IdempotencyRecord)
  outbox : List StreamEvent

namespace Partition

def empty : Partition := ⟨none, ∅, ∅, ∅, none, ∅, ∅, ∅, []⟩

def get (partition : Partition) : (key : SortKey) → Option (Item key.Body)
  | .env => partition.env
  | .ref name => partition.refs[name]?
  | .change id => partition.changes[id]?
  | .op sequence => partition.ops[sequence]?
  | .seq => partition.seq
  | .session id => partition.sessions[id]?
  | .session_page page => partition.session_pages[page]?
  | .idem key => partition.idems[key]?

def put (partition : Partition) : (key : SortKey) → Item key.Body → Partition
  | .env, item => { partition with env := some item }
  | .ref name, item => { partition with refs := partition.refs.insert name item }
  | .change id, item => { partition with changes := partition.changes.insert id item }
  | .op sequence, item => { partition with ops := partition.ops.insert sequence item }
  | .seq, item => { partition with seq := some item }
  | .session id, item => { partition with sessions := partition.sessions.insert id item }
  | .session_page page, item => { partition with session_pages := partition.session_pages.insert page item }
  | .idem key, item => { partition with idems := partition.idems.insert key item }

def delete (partition : Partition) : SortKey → Partition
  | .env => { partition with env := none }
  | .ref name => { partition with refs := partition.refs.erase name }
  | .change id => { partition with changes := partition.changes.erase id }
  | .op sequence => { partition with ops := partition.ops.erase sequence }
  | .seq => { partition with seq := none }
  | .session id => { partition with sessions := partition.sessions.erase id }
  | .session_page page => { partition with session_pages := partition.session_pages.erase page }
  | .idem key => { partition with idems := partition.idems.erase key }

theorem get_put_self (partition : Partition) (key : SortKey) (item : Item key.Body) :
    (partition.put key item).get key = some item := by
  cases key <;> simp [get, put]

theorem get_put_of_ne (partition : Partition) {key other : SortKey} (item : Item key.Body)
    (different : key ≠ other) : (partition.put key item).get other = partition.get other := by
  cases key <;> cases other <;> simp_all [get, put, Std.ExtTreeMap.getElem?_insert]

theorem get_delete_self (partition : Partition) (key : SortKey) : (partition.delete key).get key = none := by
  cases key <;> simp [get, delete]

theorem get_delete_of_ne (partition : Partition) {key other : SortKey} (different : key ≠ other) :
    (partition.delete key).get other = partition.get other := by
  cases key <;> cases other <;> simp_all [get, delete, Std.ExtTreeMap.getElem?_erase]

end Partition

def require {β : Type} (condition : Option Condition) (existing : Option (Item β)) (key : SortKey) :
    Except PyError Unit :=
  match condition with
  | none => .ok ()
  | some .absent => ensure (existing.isNone) (.conflict "item already exists" key.render)
  | some (.version_is expected) =>
      ensure (existing.map Item.version = some expected) (.conflict "item version does not match" key.render)
  | some (.generation_is expected) =>
      ensure (existing.bind Item.generation = some expected) (.conflict "generation does not match" key.render)

section Require

variable {β : Type} {existing : Option (Item β)} {key : SortKey}

@[simp] theorem require_none : require none existing key = .ok () := rfl

@[simp] theorem require_absent : require (some .absent) existing key = .ok () ↔ existing = none := by
  simp [require]

@[simp] theorem require_version {expected : Nat} :
    require (some (.version_is expected)) existing key = .ok () ↔
      existing.map Item.version = some expected := by
  simp only [require, ensure_ok]

@[simp] theorem require_generation {expected : Int} :
    require (some (.generation_is expected)) existing key = .ok () ↔
      existing.bind Item.generation = some expected := by
  simp only [require, ensure_ok]

end Require

/-- One write of a transaction. -/
def apply (partition : Partition) : WriteOp → Except PyError Partition
  | .emit event => .ok { partition with outbox := partition.outbox ++ [event] }
  | .delete key condition => do
      require condition (partition.get key) key
      return partition.delete key
  | .put key body condition generation expires_at_us => do
      require condition (partition.get key) key
      let version := match partition.get key with
        | some existing => existing.version + 1
        | none => 1
      return partition.put key ⟨body, version, generation, expires_at_us⟩

/-- Applies every write, or none. The writes of one call are all of one partition. -/
def Partition.transact_write (partition : Partition) (writes : List WriteOp) : Except PyError Partition :=
  writes.foldlM apply partition

@[simp] theorem transact_nil (partition : Partition) : partition.transact_write [] = .ok partition := rfl

@[simp] theorem transact_cons (partition : Partition) (write : WriteOp) (writes : List WriteOp) :
    partition.transact_write (write :: writes) =
      (apply partition write >>= fun middle => middle.transact_write writes) := rfl

/-! ## Prefix queries -/

/-- The prefixes the code asks for. Session ids hold no separator, so a session's prefix meets its own
pages only. -/
inductive Query
  | refs
  | ops (descending : Bool)
  | sessions
  | session_pages (session : SessionId)
deriving DecidableEq

@[reducible] def Query.Row : Query → Type
  | .refs => Item Ref
  | .ops _ => Item OpLogEntry
  | .sessions => Item WriteSession
  | .session_pages _ => SessionPage × Item (List ObjectName)

def Partition.query (partition : Partition) (limit : Nat) : (query : Query) → List query.Row
  | .refs => (partition.refs.toList.map Prod.snd).take limit
  | .ops false => (partition.ops.toList.map Prod.snd).take limit
  | .ops true => (partition.ops.toList.map Prod.snd).reverse.take limit
  | .sessions => (partition.sessions.toList.map Prod.snd).take limit
  | .session_pages session =>
      (partition.session_pages.toList.filter fun row => row.1.session = session).take limit

end LedgerVcs
