import LedgerVcs.Maintenance.Gc

set_option autoImplicit false

namespace LedgerVcs

open Prog (ofExcept)

def MICROSECONDS_PER_DAY : Int := 86400 * 1000000

/-! ## Refs -/

structure DeleteOutcome where
  name : RefName
  keep_set_size : Nat
deriving DecidableEq

namespace RefService

/-- The target a branch starts from when the caller names none. -/
def start (env : EnvId) : Option ObjectName → Act ObjectName
  | some target => return target
  | none => do
    let record ← get_env env
    let head ← get_ref env record.default_ref
    return head.target

def create (env : EnvId) (name : RefName) (target : Option ObjectName) (principal : String) (ephemeral : Bool)
    (ttl_days : Int) (idempotency_key : Option String) : Act RefUpdate := do
  let target ← start env target
  create_ref env name target principal (if ephemeral then .ephemeral else .permanent)
    (if ephemeral then some (ttl_days * MICROSECONDS_PER_DAY) else none) none idempotency_key none

def delete (config : GcConfig) (env : EnvId) (name : RefName) (expected_generation : Option Int)
    (principal : String) (idempotency_key : Option String) : Act DeleteOutcome := do
  let expected ← match expected_generation with
    | some generation => pure generation
    | none => do
      let current ← get_ref env name
      pure current.generation
  let _ ← delete_ref env name expected principal idempotency_key
  let record ← get_env env
  let remaining ← GarbageCollector.rebuild_keep_set config record.name
  return ⟨name, remaining⟩

end RefService

/-! ## Forking -/

structure ForkResult where
  environment : Environment
  source_commit : ObjectName
  closure_size : Nat
deriving DecidableEq

/-- The arguments of `fork`. `drawn_env` and `drawn_session` are the ids that `EnvId.new` and
`SessionId.new` return. -/
structure Fork where
  source : EnvId
  name : EnvName
  from_ref : Option RefName
  owner : String
  principal : String
  idempotency_key : Option String
  drawn_env : EnvId
  drawn_session : SessionId
deriving DecidableEq

namespace Fork

/-- Covers the fork's content, first by a lease and then by its keep-set. -/
def retain (fork : Fork) (created : EnvId) (closure : List ObjectName) : Act Unit := do
  let principal := if fork.principal ≠ "" then fork.principal else "ledger"
  let session ← begin_write created fork.drawn_session principal WRITE_LEASE_TTL_US
  (do
    let _ ← record_uploaded created session.session_id closure
    let _ ← GarbageCollector.graduate created closure
    return ()).ensuring (end_session created session.session_id)

def run (fork : Fork) : Act ForkResult := do
  let origin ← get_env fork.source
  let head ← get_ref fork.source (fork.from_ref.getD origin.default_ref)
  let created ← create_env fork.drawn_env fork.name (if fork.owner ≠ "" then fork.owner else origin.owner)
    DEFAULT_REF [] fork.idempotency_key
  let record ← get_env created.env_id
  let provenance := { record with forked_from_env := some fork.source, forked_from_commit := some head.target }
  transact created.env_id [.put .env provenance none none none]
  let principal :=
    if fork.principal ≠ "" then fork.principal else if fork.owner ≠ "" then fork.owner else "ledger"
  let _ ← create_ref created.env_id created.default_ref head.target principal .permanent none none none none
  let closure ← commit_closure head.target
  fork.retain created.env_id closure
  return ⟨provenance, head.target, closure.length⟩

end Fork

end LedgerVcs
