import LedgerVcs.Fs.Closure
import LedgerVcs.Meta.Repository

set_option autoImplicit false

namespace LedgerVcs

open Prog (ofExcept)

def DEFAULT_GRACE_US : Int := 7 * 86400 * 1000000

def DEFAULT_TOMBSTONE_TTL_US : Int := 2 * 86400 * 1000000

def DEFAULT_OP_LOG_RETENTION_US : Int := 90 * 86400 * 1000000

def MAX_HISTORY_WALK : Nat := 100000

inductive GuardName
  | epoch_cutoff | grace_period | write_lease | keep_set | tombstone | circuit_breaker
deriving DecidableEq, Repr

structure GcConfig where
  grace_us : Int
  tombstone_ttl_us : Int
  op_log_retention_us : Int
  shard_bits : Nat
  max_delete_fraction : ℚ
  min_corpus_objects : Nat
deriving DecidableEq

def GcConfig.default : GcConfig :=
  { grace_us := DEFAULT_GRACE_US, tombstone_ttl_us := DEFAULT_TOMBSTONE_TTL_US,
    op_log_retention_us := DEFAULT_OP_LOG_RETENTION_US, shard_bits := 4, max_delete_fraction := 5 / 100,
    min_corpus_objects := 1000 }

structure GcPlan where
  epoch : Int
  cutoff_us : Int
  candidates : List ObjectName
  bytes_reclaimable : Nat
  corpus_objects : Nat
  corpus_bytes : Nat
  live_objects : Nat
  protected_by_lease : Nat
  protected_by_grace : Nat
  aborted_by : Option GuardName
deriving DecidableEq

structure GcReport where
  plan : GcPlan
  enforced : Bool
  deleted : Nat
  bytes_freed : Nat
  tombstones_written : Nat
deriving DecidableEq

/-! ## The diff of one shard -/

/-- What the plan has gathered over the shards so far. -/
structure Scan where
  candidates : List ObjectName
  reclaimable : Nat
  too_recent : Nat
  live_objects : Nat
deriving DecidableEq

def scan_entry (cutoff : Int) (live leased : Finset ObjectName) (scan : Scan) (entry : CatalogEntry) : Scan :=
  if entry.name ∈ live ∨ entry.name ∈ leased then scan
  else if entry.written_at_us > cutoff then { scan with too_recent := scan.too_recent + 1 }
  else { scan with
    candidates := scan.candidates ++ [entry.name], reclaimable := scan.reclaimable + entry.size }

namespace SqliteKeepSetStore

def iter_shard (prefix_bits shard : Nat) : Act (Finset ObjectName) := do
  let (low, high) ← ofExcept (shard_bounds prefix_bits shard)
  issue (.keepset_range low high)

def merge (env : EnvId) (names : List ObjectName) : Act Nat := do
  let added ← each names fun name => issue (.keepset_merge env name)
  return (added.filter id).length

end SqliteKeepSetStore

namespace SqliteWriteCatalog

def iter_shard (prefix_bits shard : Nat) : Act (List CatalogEntry) := do
  let (low, high) ← ofExcept (shard_bounds prefix_bits shard)
  issue (.catalog_range low high)

end SqliteWriteCatalog

namespace GarbageCollector

def scan_shard (config : GcConfig) (cutoff : Int) (leased : Finset ObjectName) (scan : Scan) (shard : Nat) :
    Act Scan := do
  let live ← SqliteKeepSetStore.iter_shard config.shard_bits shard
  let entries ← SqliteWriteCatalog.iter_shard config.shard_bits shard
  return entries.foldl (scan_entry cutoff live leased)
    { scan with live_objects := scan.live_objects + live.card }

/-! ## Roots -/

def session_leased (env : EnvId) (now : Int) (leased : Finset ObjectName) (session : WriteSession) :
    Act (Finset ObjectName) := do
  if session.expires_at_us > now then
    let uploaded ← uploaded_objects env session.session_id
    return leased ∪ uploaded.toFinset
  else return leased

def env_leased (now : Int) (leased : Finset ObjectName) (name : EnvName) : Act (Finset ObjectName) := do
  let env ← resolve_env_name name
  let sessions ← list_sessions env
  sessions.foldlM (session_leased env now) leased

def leased : Act (Finset ObjectName) := do
  let now ← issue .now_us
  let envs ← list_envs "" 10000
  envs.foldlM (env_leased now) ∅

/-! ## The cycle -/

def apply_circuit_breaker (config : GcConfig) (plan : GcPlan) : GcPlan :=
  if plan.corpus_objects < config.min_corpus_objects then plan
  else if plan.candidates = [] then plan
  else if (plan.candidates.length : ℚ) / plan.corpus_objects ≤ config.max_delete_fraction then plan
  else { plan with aborted_by := some .circuit_breaker }

def plan (config : GcConfig) : Act GcPlan := do
  let now ← issue .now_us
  let cutoff := now - config.grace_us
  let (corpus_objects, corpus_bytes) ← issue .catalog_total
  let leased ← leased
  let scan ← (List.range (1 <<< config.shard_bits)).foldlM (scan_shard config cutoff leased) ⟨[], 0, 0, 0⟩
  return apply_circuit_breaker config
    { epoch := now, cutoff_us := cutoff, candidates := scan.candidates, bytes_reclaimable := scan.reclaimable,
      corpus_objects, corpus_bytes, live_objects := scan.live_objects, protected_by_lease := leased.card,
      protected_by_grace := scan.too_recent, aborted_by := none }

def run (config : GcConfig) (enforce : Bool) : Act GcReport := do
  let plan ← plan config
  if plan.aborted_by.isSome ∨ ¬ enforce then return ⟨plan, false, 0, 0, 0⟩
  else
    let now ← issue .now_us
    let expiry := now + config.tombstone_ttl_us
    let recorded ← each plan.candidates fun name => issue (.tombstone_record name expiry)
    let deleted ← delete plan.candidates
    return ⟨plan, true, deleted, plan.bytes_reclaimable, (recorded.filter id).length⟩

/-! ## Keep-set maintenance -/

def graduate (env : EnvId) (names : List ObjectName) : Act Nat := SqliteKeepSetStore.merge env names

end GarbageCollector

namespace GarbageCollector

def commit? (name : ObjectName) : Act (Option Commit) :=
  tolerating (do let commit ← get_commit name; return some commit) none

def closure (tree : ObjectName) : Act (Finset ObjectName) :=
  tolerating (do let found ← tree_closure tree; return found.toFinset) ∅

/-- What a rebuild has gathered: the objects to keep, and the commits already walked. -/
structure Reach where
  reachable : Finset ObjectName
  visited : Finset ObjectName
deriving DecidableEq

/-- The loop of `_walk_history`, with the commits it may still walk. The top of the frontier is its head. -/
def walk_history_from (remaining : Nat) (frontier : List ObjectName) (reach : Reach) : Act (Bool × Reach) :=
  match frontier.dropWhile fun commit => commit ∈ reach.visited with
  | [] => return (true, reach)
  | commit :: rest =>
    match remaining with
    | 0 => return (false, reach)
    | remaining + 1 => do
      let visited := insert commit reach.visited
      match ← commit? commit with
      | none => walk_history_from remaining rest ⟨reach.reachable, visited⟩
      | some node =>
        let below ← closure node.tree
        walk_history_from remaining (node.parents.reverse ++ rest)
          ⟨insert commit reach.reachable ∪ below, visited⟩

def walk_history (head : ObjectName) (reach : Reach) : Act (Bool × Reach) :=
  walk_history_from MAX_HISTORY_WALK [head] reach

/-- Walks one root and remembers whether every walk so far has finished. -/
def walk_root (so_far : Bool × Reach) (head : ObjectName) : Act (Bool × Reach) := do
  let (complete, reach) ← walk_history head so_far.2
  return (so_far.1 && complete, reach)

def op_roots (horizon : Int) (entries : List OpLogEntry) : List ObjectName :=
  entries.flatMap fun entry =>
    if entry.at_us < horizon then [] else entry.before.toList ++ entry.after.toList

def rebuild_keep_set (config : GcConfig) (env_name : EnvName) : Act Nat := do
  let env ← resolve_env_name env_name
  let refs ← list_refs env
  let live ← (refs.map Ref.target).foldlM walk_root (true, ⟨∅, ∅⟩)
  let now ← issue .now_us
  let horizon := now - config.op_log_retention_us
  let entries ← list_ops env 10000
  let (complete, reach) ← (op_roots horizon entries).foldlM walk_root live
  if complete then issue (.keepset_replace env reach.reachable)
  -- A partial answer never replaces the keep-set: the stale one stands.
  else issue (.keepset_size env)

def refresh_keep_sets (config : GcConfig) (limit : Nat) : Act Nat := do
  let names ← list_envs "" limit
  let rebuilt ← names.mapM (rebuild_keep_set config)
  return rebuilt.length

end GarbageCollector

end LedgerVcs
