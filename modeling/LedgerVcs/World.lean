import LedgerVcs.Lib.Prog
import LedgerVcs.Meta.Store
import LedgerVcs.Store.Corpus
import LedgerVcs.Store.Sharding

set_option autoImplicit false

/-! The state the services share, and the single transactions and backend calls they touch it with. -/

namespace LedgerVcs

open Wire (Bytes)

/-- The columns of the write catalogue beside the digest. -/
structure CatalogRow where
  size : Nat
  kind : Option ObjectKind
  written_at_us : Int
deriving DecidableEq

structure CatalogEntry extends CatalogRow where
  name : ObjectName
deriving DecidableEq

/-- A name's entry in the global keyspace. -/
structure NameClaim where
  env_id : EnvId
  idempotency_key : Option String
deriving DecidableEq

structure World where
  clock : Int
  backend : Finset ObjectName
  catalog : Std.ExtTreeMap ObjectName CatalogRow
  tombstones : Std.ExtTreeMap ObjectName Int
  keepset : Finset (EnvId × ObjectName)
  partitions : Std.ExtTreeMap EnvId Partition
  names : Std.ExtTreeMap EnvName NameClaim

/-- Nothing stored and nothing recorded. -/
def World.empty (clock : Int) : World := ⟨clock, ∅, ∅, ∅, ∅, ∅, ∅⟩

def World.partition (world : World) (pk : EnvId) : Partition := (world.partitions[pk]?).getD .empty

def World.with_partition (world : World) (pk : EnvId) (partition : Partition) : World :=
  { world with partitions := world.partitions.insert pk partition }

@[simp] theorem partition_with_self (world : World) (pk : EnvId) (partition : Partition) :
    (world.with_partition pk partition).partition pk = partition := by
  simp [World.partition, World.with_partition]

theorem partition_with_of_ne (world : World) {pk other : EnvId} (partition : Partition) (different : pk ≠ other) :
    (world.with_partition pk partition).partition other = world.partition other := by
  simp [World.partition, World.with_partition, Std.ExtTreeMap.getElem?_insert, different]

/-- Each is one SQLite transaction, or one backend call. -/
inductive Cmd
  | now_us
  | backend_exists (name : ObjectName)
  | backend_read (name : ObjectName)
  | backend_write (name : ObjectName)
  | backend_delete (name : ObjectName)
  | catalog_record (entry : CatalogEntry)
  | catalog_forget (name : ObjectName)
  | catalog_total
  | catalog_range (low high : Bytes)
  | tombstone_record (name : ObjectName) (expires_at_us : Int)
  | tombstone_clear (name : ObjectName)
  | tombstone_filter (names : List ObjectName)
  | tombstone_purge (now_us : Int)
  | keepset_merge (env : EnvId) (name : ObjectName)
  | keepset_replace (env : EnvId) (names : Finset ObjectName)
  | keepset_range (low high : Bytes)
  | keepset_holds (env : EnvId) (names : List ObjectName)
  | keepset_size (env : EnvId)
  | meta_get (pk : EnvId) (key : SortKey)
  | meta_query (pk : EnvId) (query : Query) (limit : Nat)
  | transact_write (pk : EnvId) (writes : List WriteOp)
  | claim_global (name : EnvName) (claim : NameClaim)
  | read_global (name : EnvName)
  | delete_global (name : EnvName)
  | scan_global (starting : String) (limit : Nat)

@[reducible] def Cmd.Response : Cmd → Type
  | .now_us => Int
  | .backend_exists _ => Bool
  | .backend_read _ => Except PyError LedgerObject
  | .backend_write _ => Nat
  | .backend_delete _ => Bool
  | .catalog_record _ => Unit
  | .catalog_forget _ => Unit
  | .catalog_total => Nat × Nat
  | .catalog_range _ _ => List CatalogEntry
  | .tombstone_record _ _ => Bool
  | .tombstone_clear _ => Unit
  | .tombstone_filter _ => Finset ObjectName
  | .tombstone_purge _ => Nat
  | .keepset_merge _ _ => Bool
  | .keepset_replace _ _ => Nat
  | .keepset_range _ _ => Finset ObjectName
  | .keepset_holds _ _ => Finset ObjectName
  | .keepset_size _ => Nat
  | .meta_get _ key => Option (Item key.Body)
  | .meta_query _ query _ => List query.Row
  | .transact_write _ _ => Except PyError Unit
  | .claim_global _ _ => Bool
  | .read_global _ => Option NameClaim
  | .delete_global _ => Bool
  | .scan_global _ _ => List (EnvName × NameClaim)

/-- Names an environment's keep-set holds. -/
def World.kept (world : World) (env : EnvId) : Finset ObjectName :=
  (world.keepset.filter fun row => row.1 = env).image Prod.snd

@[simp] theorem mem_kept {world : World} {env : EnvId} {name : ObjectName} :
    name ∈ world.kept env ↔ (env, name) ∈ world.keepset := by
  simp [World.kept]

/-- Whether some environment still needs the object. -/
def World.Live (world : World) (name : ObjectName) : Prop := ∃ env, (env, name) ∈ world.keepset

def exec (corpus : Corpus) : (command : Cmd) → World → command.Response × World
  | .now_us, world => (world.clock, world)
  | .backend_exists name, world => (decide (name ∈ world.backend), world)
  | .backend_read name, world =>
      (if name ∈ world.backend then
        match corpus.content name with
        | some object => .ok object
        | none => .error (.corruptObject "stored bytes do not match the name they were requested by")
      else .error (.objectNotFound "object is not present in the store"), world)
  | .backend_write name, world => (corpus.occupied name, { world with backend := insert name world.backend })
  | .backend_delete name, world =>
      (decide (name ∈ world.backend), { world with backend := world.backend.erase name })
  -- INSERT OR IGNORE: the row of an object written again keeps its first time.
  | .catalog_record entry, world =>
      ((), { world with catalog := world.catalog.insertIfNew entry.name entry.toCatalogRow })
  | .catalog_forget name, world => ((), { world with catalog := world.catalog.erase name })
  | .catalog_total, world =>
      ((world.catalog.size, (world.catalog.toList.map fun row => row.2.size).sum), world)
  | .catalog_range low high, world =>
      (((world.catalog.toList.filter fun row => InRange low high row.1).map fun row => ⟨row.2, row.1⟩), world)
  | .tombstone_record name expires_at_us, world =>
      (decide (name ∉ world.tombstones), { world with tombstones := world.tombstones.insertIfNew name expires_at_us })
  | .tombstone_clear name, world => ((), { world with tombstones := world.tombstones.erase name })
  | .tombstone_filter names, world => (names.toFinset.filter fun name => name ∈ world.tombstones, world)
  | .tombstone_purge now_us, world =>
      let remaining := world.tombstones.filter fun _ expires_at_us => now_us < expires_at_us
      (world.tombstones.size - remaining.size, { world with tombstones := remaining })
  | .keepset_merge env name, world =>
      (decide ((env, name) ∉ world.keepset), { world with keepset := insert (env, name) world.keepset })
  | .keepset_replace env names, world =>
      (names.card, { world with
        keepset := (world.keepset.filter fun row => row.1 ≠ env) ∪ names.image fun name => (env, name) })
  | .keepset_range low high, world => ((world.keepset.image Prod.snd).filter (InRange low high), world)
  | .keepset_holds env names, world => (names.toFinset.filter fun name => (env, name) ∈ world.keepset, world)
  | .keepset_size env, world => ((world.kept env).card, world)
  | .meta_get pk key, world => ((world.partition pk).get key, world)
  | .meta_query pk query limit, world => ((world.partition pk).query limit query, world)
  | .transact_write pk writes, world =>
      match (world.partition pk).transact_write writes with
      | .ok partition => (.ok (), world.with_partition pk partition)
      | .error error => (.error error, world)
  | .claim_global name claim, world =>
      (decide (name ∉ world.names), { world with names := world.names.insertIfNew name claim })
  | .read_global name, world => (world.names[name]?, world)
  | .delete_global name, world =>
      (decide (name ∈ world.names), { world with names := world.names.erase name })
  | .scan_global starting limit, world =>
      ((world.names.toList.filter fun row => starting.toList.isPrefixOf row.1.value.toList).take limit, world)

/-- A service's code. -/
abbrev Act := Prog Cmd Cmd.Response PyError

def issue (command : Cmd) : Act command.Response := Prog.ask command

/-- `try: … except LedgerError: fallback` -/
def tolerating {α : Type} (body : Act α) (fallback : α) : Act α :=
  body.handling fun error => if error.is_ledger_error then .done fallback else .fail error

/-- Runs alone, nothing else touching the state. -/
abbrev runs {α : Type} (corpus : Corpus) (act : Act α) (world : World) : Except PyError α × World :=
  Prog.run (exec corpus) act world

theorem runs_issue (corpus : Corpus) (command : Cmd) (world : World) :
    runs corpus (issue command) world = (.ok (exec corpus command world).1, (exec corpus command world).2) := rfl

end LedgerVcs
