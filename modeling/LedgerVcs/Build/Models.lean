import LedgerVcs.Meta.Models

set_option autoImplicit false

/-! The records of the build pipeline. -/

namespace LedgerVcs

/-- One unit of work: build this commit, on behalf of this environment. -/
structure QueuedBuild where
  env_id : EnvId
  commit : ObjectName
  ref : RefName
  op_sequence : Nat
  enqueued_at_us : Int
  attempts : Nat
  manual : Bool
deriving DecidableEq

/-- What an environment's lease item says. -/
structure LeaseBody where
  worker : String
  expires_at_us : Int
deriving DecidableEq

/-- Ownership of one environment's builds, for a bounded time. -/
structure BuildLease where
  env_id : EnvId
  worker : String
  expires_at_us : Int
  /-- The item version the lease was claimed at. -/
  version : Nat
  work : QueuedBuild
deriving DecidableEq

inductive BuildStatus
  | running | succeeded | failed
deriving DecidableEq

def BuildStatus.terminal (status : BuildStatus) : Bool := status ∈ [.succeeded, .failed]

/-- The outcome of building one commit. -/
structure BuildResult where
  commit : ObjectName
  status : BuildStatus
  started_at_us : Int
  finished_at_us : Int
  exit_code : Option Int
  images : List String
  attempts : Nat
  worker : String
deriving DecidableEq

def BuildResult.succeeded (result : BuildResult) : Bool := result.status = .succeeded

structure RunOutcome where
  exit_code : Int
  images : List String
deriving DecidableEq

def RunOutcome.succeeded (outcome : RunOutcome) : Bool := outcome.exit_code = 0

/-- What the platform is told about a version. -/
structure SyncRequest where
  commit : ObjectName
  env_id : EnvId
  env_name : EnvName
  images : List String
  metadata : List (String × String)
deriving DecidableEq

structure SyncOutcome where
  platform_id : String
  synced_at_us : Int
deriving DecidableEq

/-- Which platform entry a commit was synced to. -/
structure SyncRecord where
  platform_id : String
  commit : ObjectName
  synced_at_us : Int
  images : List String
deriving DecidableEq

structure Note where
  commit : ObjectName
  body : SyncRecord
  updated_by : String
  updated_at_us : Int
deriving DecidableEq

/-- What one turn of the worker did. -/
structure BuildOutcome where
  work : QueuedBuild
  result : BuildResult
  cache_hit : Bool
  synced : Option SyncRecord
deriving DecidableEq

structure DispatchReport where
  events : Nat
  enqueued : Nat
  ignored : Nat
deriving DecidableEq

end LedgerVcs
