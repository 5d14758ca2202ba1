import LedgerVcs.Build.Models
import LedgerVcs.Lib.Recall
import LedgerVcs.Meta.Stream
import LedgerVcs.World

set_option autoImplicit false

/-! What the build pipeline shares with the metadata store, and the commands it touches it with. -/

namespace LedgerVcs

open Text (PyStr)

/-! ## An environment's build items -/

inductive BoardKey
  | build_queue (op_sequence : Nat)
  | build_lease
  /-- The environment's note about a commit, in the namespace of the platform sync. -/
  | note (commit : ObjectName)
deriving DecidableEq

def BoardKey.render : BoardKey → PyStr
  | .build_queue op_sequence => Text.lit "bq#" ++ decimal (padded OP_SEQ_DIGITS op_sequence)
  | .build_lease => Text.lit "blease"
  | .note commit => Text.lit "note#" ++ Text.hex commit.digest ++ Text.lit "#sync"

@[reducible] def BoardKey.Body : BoardKey → Type
  | .build_queue _ => QueuedBuild
  | .build_lease => LeaseBody
  | .note _ => Note

/-- The items of a partition that the build pipeline reads and writes. -/
structure Board where
  queue : Std.ExtTreeMap Nat (Item QueuedBuild) (byText OP_SEQ_DIGITS)
  lease : Option (Item LeaseBody)
  notes : Std.ExtTreeMap ObjectName (Item Note)

inductive BoardWrite
  | put (key : BoardKey) (body : key.Body) (condition : Option Condition) (expires_at_us : Option Int)
  | delete (key : BoardKey) (condition : Option Condition)

namespace Board

def empty : Board := ⟨∅, none, ∅⟩

def get (board : Board) : (key : BoardKey) → Option (Item key.Body)
  | .build_queue op_sequence => board.queue[op_sequence]?
  | .build_lease => board.lease
  | .note commit => board.notes[commit]?

def put (board : Board) : (key : BoardKey) → Item key.Body → Board
  | .build_queue op_sequence, item => { board with queue := board.queue.insert op_sequence item }
  | .build_lease, item => { board with lease := some item }
  | .note commit, item => { board with notes := board.notes.insert commit item }

def delete (board : Board) : BoardKey → Board
  | .build_queue op_sequence => { board with queue := board.queue.erase op_sequence }
  | .build_lease => { board with lease := none }
  | .note commit => { board with notes := board.notes.erase commit }

theorem get_put_self (board : Board) (key : BoardKey) (item : Item key.Body) :
    (board.put key item).get key = some item := by
  cases key <;> simp [get, put]

theorem get_put_of_ne (board : Board) {key other : BoardKey} (item : Item key.Body) (different : key ≠ other) :
    (board.put key item).get other = board.get other := by
  cases key <;> cases other <;> simp_all [get, put, Std.ExtTreeMap.getElem?_insert]

theorem get_delete_self (board : Board) (key : BoardKey) : (board.delete key).get key = none := by
  cases key <;> simp [get, delete]

theorem get_delete_of_ne (board : Board) {key other : BoardKey} (different : key ≠ other) :
    (board.delete key).get other = board.get other := by
  cases key <;> cases other <;> simp_all [get, delete, Std.ExtTreeMap.getElem?_erase]

/-- `_require`, where the item is under a build key. -/
def require {β : Type} (condition : Option Condition) (existing : Option (Item β)) (key : BoardKey) :
    Except PyError Unit :=
  match condition with
  | none => .ok ()
  | some .absent => ensure (existing.isNone) (.conflict "item already exists" key.render)
  | some (.version_is expected) =>
      ensure (existing.map Item.version = some expected) (.conflict "item version does not match" key.render)
  | some (.generation_is expected) =>
      ensure (existing.bind Item.generation = some expected) (.conflict "generation does not match" key.render)

def apply (board : Board) : BoardWrite → Except PyError Board
  | .delete key condition => do
      Board.require condition (board.get key) key
      return board.delete key
  | .put key body condition expires_at_us => do
      Board.require condition (board.get key) key
      let version := match board.get key with
        | some existing => existing.version + 1
        | none => 1
      return board.put key ⟨body, version, none, expires_at_us⟩

/-- Applies every write, or none. -/
def transact_write (board : Board) (writes : List BoardWrite) : Except PyError Board := writes.foldlM apply board

end Board

/-- A queue item, with its key. -/
structure QueueRow where
  pk : EnvId
  sk : Nat
  body : QueuedBuild
deriving DecidableEq

/-! ## The shared state -/

structure BuildWorld where
  world : World
  /-- The rows of each shard's outbox. -/
  outboxes : Nat → List OutboxRow
  /-- What the transactions that are still to commit read from the clock of the store. -/
  stamps : Stream' Int
  boards : Std.ExtTreeMap EnvId Board
  /-- The global keyspaces of build results and of stream cursors. -/
  builds : Std.ExtTreeMap ObjectName BuildResult
  cursors : Std.ExtTreeMap String (List Nat)
  /-- What the platform has been sent, the latest first. -/
  deliveries : List SyncRequest

namespace BuildWorld

def board (world : BuildWorld) (pk : EnvId) : Board := (world.boards[pk]?).getD .empty

def with_board (world : BuildWorld) (pk : EnvId) (board : Board) : BuildWorld :=
  { world with boards := world.boards.insert pk board }

@[simp] theorem board_with_self (world : BuildWorld) (pk : EnvId) (board : Board) :
    (world.with_board pk board).board pk = board := by
  simp [BuildWorld.board, with_board]

theorem board_with_of_ne (world : BuildWorld) {pk other : EnvId} (board : Board) (different : pk ≠ other) :
    (world.with_board pk board).board other = world.board other := by
  simp [BuildWorld.board, with_board, Std.ExtTreeMap.getElem?_insert, different]

/-- The metadata store, as far as the change stream is concerned. -/
def store (world : BuildWorld) : ShardedStore := ⟨world.world.partition, world.outboxes⟩

end BuildWorld

inductive BuildCmd
  | base (command : Cmd)
  | board_get (pk : EnvId) (key : BoardKey)
  | board_write (pk : EnvId) (writes : List BoardWrite)
  /-- One shard's part of `scan_kind(ItemKind.BUILD_QUEUE)`. -/
  | scan_queue (shard limit : Nat)
  /-- One shard's part of `read_events`. -/
  | select_events (shard after limit : Nat)
  | read_cursor (consumer : String)
  | put_cursor (consumer : String) (positions : List Nat)
  | claim_build (commit : ObjectName) (result : BuildResult)
  | read_build (commit : ObjectName)
  | put_build (commit : ObjectName) (result : BuildResult)
  | delete_build (commit : ObjectName)
  | platform_sync (request : SyncRequest) (now_us : Int)

@[reducible] def BuildCmd.Response : BuildCmd → Type
  | .base command => command.Response
  | .board_get _ key => Option (Item key.Body)
  | .board_write _ _ => Except PyError Unit
  | .scan_queue _ _ => List QueueRow
  | .select_events _ _ _ => List Event
  | .read_cursor _ => Option (List Nat)
  | .put_cursor _ _ => Unit
  | .claim_build _ _ => Bool
  | .read_build _ => Option BuildResult
  | .put_build _ _ => Unit
  | .delete_build _ => Bool
  | .platform_sync _ _ => Except PyError SyncOutcome

/-- What a ledger is opened with: its store, and a platform that answers as it likes, which may depend on all
it has been sent. -/
structure Site where
  corpus : Corpus
  blake3 : Blake3
  shard_count : Nat
  platform : List SyncRequest → SyncRequest → Int → Except PyError SyncOutcome

/-- A shard's queue items, in the order of their keys. -/
def BuildWorld.queue_rows (world : BuildWorld) (site : Site) (shard : Nat) : List QueueRow :=
  (world.boards.toList.filter fun row => ShardedStore.shard_of site.blake3 site.shard_count row.1 = shard).flatMap
    fun row => row.2.queue.toList.map fun entry => ⟨row.1, entry.1, entry.2.body⟩

namespace Site

def exec (site : Site) : (command : BuildCmd) → BuildWorld → command.Response × BuildWorld
  | .base (.transact_write pk writes), world =>
      match LedgerVcs.exec site.corpus (.transact_write pk writes) world.world with
      | (.ok (), after) =>
        let shard := ShardedStore.shard_of site.blake3 site.shard_count pk
        (.ok (), { world with
          world := after
          outboxes := Function.update world.outboxes shard
            (world.outboxes shard ++ (emitted writes).map fun event => ⟨pk, event, world.stamps.head⟩)
          stamps := world.stamps.tail })
      | (.error error, after) => (.error error, { world with world := after })
  | .base command, world =>
      ((LedgerVcs.exec site.corpus command world.world).1,
        { world with world := (LedgerVcs.exec site.corpus command world.world).2 })
  | .board_get pk key, world => ((world.board pk).get key, world)
  | .board_write pk writes, world =>
      match (world.board pk).transact_write writes with
      | .ok board => (.ok (), world.with_board pk board)
      | .error error => (.error error, world)
  | .scan_queue shard limit, world => ((world.queue_rows site shard).take limit, world)
  | .select_events shard after limit, world => (world.store.select shard after limit, world)
  | .read_cursor consumer, world => (world.cursors[consumer]?, world)
  | .put_cursor consumer positions, world =>
      ((), { world with cursors := world.cursors.insert consumer positions })
  | .claim_build commit result, world =>
      (decide (commit ∉ world.builds), { world with builds := world.builds.insertIfNew commit result })
  | .read_build commit, world => (world.builds[commit]?, world)
  | .put_build commit result, world => ((), { world with builds := world.builds.insert commit result })
  | .delete_build commit, world =>
      (decide (commit ∈ world.builds), { world with builds := world.builds.erase commit })
  | .platform_sync request now_us, world =>
      (site.platform world.deliveries request now_us, { world with deliveries := request :: world.deliveries })

end Site

abbrev BuildAct := Prog BuildCmd BuildCmd.Response PyError

def send (command : BuildCmd) : BuildAct command.Response := Prog.ask command

/-- A call of the metadata repository. -/
def base {α : Type} (act : Act α) : BuildAct α :=
  act.through fun command => .call (.base command) fun response => .done response

end LedgerVcs
