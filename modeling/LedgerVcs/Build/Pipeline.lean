import LedgerVcs.Build.Queue
import LedgerVcs.Meta.Repository

set_option autoImplicit false

/-! The dispatcher, which turns events into work, and the worker, which does it. -/

namespace LedgerVcs

open Prog (ofExcept)

/-! ## Results -/

def ABANDONED_CLAIM_US : Int := 2 * 3600 * 1000000

namespace BuildResults

def get (commit : ObjectName) : BuildAct (Option BuildResult) := send (.read_build commit)

def claim (commit : ObjectName) (worker : String) : BuildAct (Option BuildResult) := do
  let now ← now_us
  let running : BuildResult :=
    { commit, status := .running, started_at_us := now, finished_at_us := 0, exit_code := none, images := [],
      attempts := 1, worker }
  if ← send (.claim_build commit running) then return none
  else
    match ← get commit with
    | none => return none
    | some existing =>
      if existing.status.terminal then return some existing
      else if now - existing.started_at_us < ABANDONED_CLAIM_US then return some existing
      else
        -- Abandoned.
        send (.put_build commit { running with attempts := existing.attempts + 1 })
        return none

def record (result : BuildResult) : BuildAct Unit := send (.put_build result.commit result)

def release (commit : ObjectName) : BuildAct Unit := do
  match ← get commit with
  | none => return
  | some existing =>
    if existing.status.terminal then return
    else
      let _ ← send (.delete_build commit)
      return

def invalidate (commit : ObjectName) : BuildAct Bool := send (.delete_build commit)

end BuildResults

/-! ## The dispatcher -/

structure Dispatcher where
  shard_count : Nat
  consumer : String

namespace Dispatcher

variable (dispatcher : Dispatcher)

/-- What a saved cursor's positions stand for. -/
def resume (saved : Option (List Nat)) : StreamCursor :=
  match saved with
  | none => .start dispatcher.shard_count
  | some positions =>
    ⟨(positions ++ List.replicate (dispatcher.shard_count - positions.length) 0).take dispatcher.shard_count⟩

def cursor : BuildAct StreamCursor := do
  let saved ← send (.read_cursor dispatcher.consumer)
  return dispatcher.resume saved

def checkpoint (cursor : StreamCursor) : BuildAct Unit := send (.put_cursor dispatcher.consumer cursor.positions)

def read_events (position : StreamCursor) (limit : Nat) : BuildAct (List Event) := do
  let events ← (List.range dispatcher.shard_count).mapM fun shard =>
    send (.select_events shard (position.position shard) limit)
  return merge_events limit events.flatten

/-- The environment's default ref, or nothing when the environment is gone. -/
def build_ref (partition : EnvId) : BuildAct (Option RefName) :=
  base (tolerating (do
    let record ← get_env partition
    return some record.default_ref) none)

/-- `build_refs[partition]`, looked up first if it is not there. -/
def known_ref (partition : EnvId) (build_refs : List (EnvId × Option RefName)) :
    BuildAct (Option RefName × List (EnvId × Option RefName)) :=
  match build_refs.lookup partition with
  | some known => return (known, build_refs)
  | none => do
    let found ← build_ref partition
    return (found, (partition, found) :: build_refs)

/-- One round of the loop of `poll`. -/
def consider (so_far : DispatchReport × List (EnvId × Option RefName)) (event : Event) :
    BuildAct (DispatchReport × List (EnvId × Option RefName)) := do
  let (report, build_refs) := so_far
  match event.event with
  | .ref_deleted _ _ _ => return ({ report with ignored := report.ignored + 1 }, build_refs)
  | .ref_updated ref _ after _ op_sequence =>
    let (known, build_refs) ← known_ref event.partition build_refs
    if known ≠ some ref then return ({ report with ignored := report.ignored + 1 }, build_refs)
    else
      let enqueued ← BuildQueue.enqueue event.partition after ref op_sequence false
      return ({ report with
        enqueued := report.enqueued + enqueued.toNat, ignored := report.ignored + (!enqueued).toNat }, build_refs)

def poll (limit : Nat) : BuildAct DispatchReport := do
  let cursor ← dispatcher.cursor
  let events ← dispatcher.read_events cursor limit
  if events = [] then return ⟨0, 0, 0⟩
  else
    let (report, _) ← events.foldlM consider (⟨events.length, 0, 0⟩, [])
    -- Checkpointed only after the work is durably queued.
    dispatcher.checkpoint (cursor.advanced events)
    return report

end Dispatcher

def trigger (env : EnvId) (ref : RefName) (rebuild : Bool) : BuildAct Bool := do
  let target ← base (get_ref env ref)
  let recent ← base (list_ops env 1)
  let sequence := match recent with
    | entry :: _ => entry.sequence
    | [] => 0
  if rebuild then
    let _ ← BuildResults.invalidate target.target
    BuildQueue.enqueue env target.target ref sequence true
  else BuildQueue.enqueue env target.target ref sequence true

/-! ## The worker -/

structure BuildWorker where
  queue : BuildQueue
  worker_id : String

namespace BuildWorker

variable (worker : BuildWorker)

/-- Materializing the commit, reading its manifest and running the build come to `ran`. -/
def build (env_id : EnvId) (commit : ObjectName) (ran : Except PyError RunOutcome) : BuildAct BuildResult := do
  let started ← now_us
  let _ ← base (get_env env_id)
  let outcome ← ofExcept ran
  let finished ← now_us
  return {
    commit, status := if outcome.succeeded then .succeeded else .failed, started_at_us := started,
    finished_at_us := finished, exit_code := some outcome.exit_code, images := outcome.images, attempts := 1,
    worker := worker.worker_id }

/-- Syncs, then removes the work and writes the note in one transaction. -/
def finish (lease : BuildLease) (result : BuildResult) (cache_hit : Bool) : BuildAct BuildOutcome := do
  let record ← base (get_env lease.env_id)
  let now ← now_us
  let request : SyncRequest :=
    { commit := result.commit, env_id := lease.env_id, env_name := record.name, images := result.images,
      metadata := record.labels }
  let outcome ← ofExcept (← send (.platform_sync request now))
  let sync : SyncRecord :=
    { platform_id := outcome.platform_id, commit := result.commit, synced_at_us := outcome.synced_at_us,
      images := result.images }
  let updated_at_us ← now_us
  let note : Note := { commit := result.commit, body := sync, updated_by := worker.worker_id, updated_at_us }
  BuildQueue.complete lease [.put (.note note.commit) note none none]
  return ⟨lease.work, result, cache_hit, some sync⟩

def finish_from_cache (lease : BuildLease) (cached : BuildResult) : BuildAct BuildOutcome := do
  if cached.succeeded then worker.finish lease cached true
  else
    BuildQueue.complete lease []
    return ⟨lease.work, cached, true, none⟩

def give_up (lease : BuildLease) (result : BuildResult) : BuildAct BuildOutcome := do
  let attempts := lease.work.attempts + 1
  let exhausted ← BuildQueue.fail lease
  let final := { result with attempts }
  if exhausted then
    BuildResults.record final
    return ⟨lease.work, final, false, none⟩
  else
    BuildResults.release result.commit
    return ⟨lease.work, final, false, none⟩

/-- The body of the `try` of `run_once`: what it returns, or the result it goes on with. -/
def attempt (lease : BuildLease) (ran : Except PyError RunOutcome) :
    BuildAct (Option BuildOutcome ⊕ BuildResult) := do
  match ← BuildResults.claim lease.work.commit worker.worker_id with
  | some cached =>
    if cached.status.terminal then
      let outcome ← worker.finish_from_cache lease cached
      return .inl (some outcome)
    else
      -- Someone else is building it.
      BuildQueue.release lease
      return .inl none
  | none =>
    let result ← worker.build lease.work.env_id lease.work.commit ran
    return .inr result

/-- What `run_once` does with a lease. -/
def work_on (lease : BuildLease) (ran : Except PyError RunOutcome) : BuildAct (Option BuildOutcome) := do
  match ← (worker.attempt lease ran).attempt with
  | .error (.conflict _ _) =>
    -- The lease was taken over while we worked.
    BuildResults.release lease.work.commit
    return none
  | .error _ =>
    let now ← now_us
    let outcome ← give_up lease
      { commit := lease.work.commit, status := .failed, started_at_us := now, finished_at_us := now, exit_code := none,
        images := [], attempts := 1, worker := worker.worker_id }
    return some outcome
  | .ok (.inl returned) => return returned
  | .ok (.inr result) =>
    if result.succeeded then
      BuildResults.record result
      let outcome ← worker.finish lease result false
      return some outcome
    else
      let outcome ← give_up lease result
      return some outcome

def run_once (ran : Except PyError RunOutcome) : BuildAct (Option BuildOutcome) := do
  match ← worker.queue.lease worker.worker_id 200 with
  | none => return none
  | some lease => worker.work_on lease ran

end BuildWorker

end LedgerVcs
