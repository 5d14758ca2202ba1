import LedgerVcs.Build.World

set_option autoImplicit false

/-! The build queue. -/

namespace LedgerVcs

open Prog (ofExcept)

def MAX_TIMEOUT_SECONDS : Int := 3600

def LEASE_MARGIN_US : Int := 5 * 60 * 1000000

def DEFAULT_LEASE_US : Int := MAX_TIMEOUT_SECONDS * 1000000 + LEASE_MARGIN_US

def MAX_ATTEMPTS : Nat := 3

def now_us : BuildAct Int := send (.base .now_us)

/-- `store.transact_write` of build items, raising what it raises. -/
def transact_board (pk : EnvId) (writes : List BoardWrite) : BuildAct Unit := do
  ofExcept (← send (.board_write pk writes))

def BuildLease.sort_key (lease : BuildLease) : BoardKey := .build_queue lease.work.op_sequence

/-- The dictionary of `_oldest_per_partition`, with one more item. -/
def keep_oldest (oldest : List QueueRow) (item : QueueRow) : List QueueRow :=
  if ∃ held ∈ oldest, held.pk = item.pk then
    oldest.map fun held => if held.pk = item.pk ∧ byText OP_SEQ_DIGITS item.sk held.sk = .lt then item else held
  else oldest ++ [item]

/-- One candidate per environment: its earliest queued operation. -/
def oldest_per_partition (items : List QueueRow) : List QueueRow :=
  (items.foldl keep_oldest []).insertionSort fun left right => left.body.enqueued_at_us ≤ right.body.enqueued_at_us

/-- A queue over a store of so many shards. -/
structure BuildQueue where
  shard_count : Nat
  lease_us : Int

namespace BuildQueue

/-! ## Producing -/

def enqueue (env : EnvId) (commit : ObjectName) (ref : RefName) (op_sequence : Nat) (manual : Bool) : BuildAct Bool := do
  let enqueued_at_us ← now_us
  let entry : QueuedBuild := { env_id := env, commit, ref, op_sequence, enqueued_at_us, attempts := 0, manual }
  match ← send (.board_write env [.put (.build_queue op_sequence) entry (some .absent) none]) with
  | .ok () => return true
  | .error (.conflict _ _) => return false
  | .error error => .fail error

/-! ## Consuming -/

variable (queue : BuildQueue)

/-- Puts the lease, and returns the item's new version unless someone else was faster. -/
def put_lease (partition : EnvId) (worker : String) (now : Int) (condition : Condition) (expected_version : Nat) :
    BuildAct (Option Nat) := do
  let body : LeaseBody := { worker, expires_at_us := now + queue.lease_us }
  match ← send (.board_write partition [.put .build_lease body (some condition) (some (now + queue.lease_us))]) with
  | .ok () => return some expected_version
  | .error (.conflict _ _) => return none
  | .error error => .fail error

def claim (partition : EnvId) (worker : String) (now : Int) : BuildAct (Option Nat) := do
  match ← send (.board_get partition .build_lease) with
  | none => queue.put_lease partition worker now .absent 1
  | some current =>
    if current.body.expires_at_us > now then return none
    -- Expired.
    else queue.put_lease partition worker now (.version_is current.version) (current.version + 1)

def scan_kind (limit : Nat) : BuildAct (List QueueRow) := do
  let items ← (List.range queue.shard_count).mapM fun shard => send (.scan_queue shard limit)
  return items.flatten.take limit

/-- The loop of `lease` over the candidates. -/
def lease_first (worker : String) (now : Int) : List QueueRow → BuildAct (Option BuildLease)
  | [] => return none
  | entry :: entries => do
    match ← queue.claim entry.pk worker now with
    | none => lease_first worker now entries
    | some claimed =>
      return some
        { env_id := entry.pk, worker, expires_at_us := now + queue.lease_us, version := claimed, work := entry.body }

def lease (worker : String) (limit : Nat) : BuildAct (Option BuildLease) := do
  let now ← now_us
  let pending ← queue.scan_kind limit
  queue.lease_first worker now (oldest_per_partition pending)

/-! ## Finishing -/

def complete (lease : BuildLease) (extra : List BoardWrite) : BuildAct Unit :=
  transact_board lease.env_id
    (.delete lease.sort_key none :: .delete .build_lease (some (.version_is lease.version)) :: extra)

def fail (lease : BuildLease) : BuildAct Bool := do
  let attempts := lease.work.attempts + 1
  let release : BoardWrite := .delete .build_lease (some (.version_is lease.version))
  if attempts ≥ MAX_ATTEMPTS then
    transact_board lease.env_id [.delete lease.sort_key none, release]
    return true
  else
    transact_board lease.env_id
      [.put (.build_queue lease.work.op_sequence) { lease.work with attempts } none none, release]
    return false

def release (lease : BuildLease) : BuildAct Unit := do
  match ← send (.board_write lease.env_id [.delete .build_lease (some (.version_is lease.version))]) with
  | .ok () => return
  | .error (.conflict _ _) => return
  | .error error => .fail error

end BuildQueue

end LedgerVcs
