import LedgerVcs.Store.Cas

set_option autoImplicit false

namespace LedgerVcs

open Prog (ofExcept)

def IDEMPOTENCY_TTL_US : Int := 24 * 3600 * 1000000

def WRITE_LEASE_TTL_US : Int := 3600 * 1000000

def COUNTER_RETRIES : Nat := 8

def SESSION_PAGE_SIZE : Nat := 1000

def DEFAULT_REF : RefName := ⟨"refs/heads/main"⟩

structure RefUpdate where
  ref : Ref
  op_sequence : Nat
  replayed : Bool
deriving DecidableEq

/-- `store.transact_write`, raising what it raises. -/
def transact (pk : EnvId) (writes : List WriteOp) : Act Unit := do
  ofExcept (← issue (.transact_write pk writes))

/-! ## Environments -/

def get_env (env : EnvId) : Act Environment := do
  match ← issue (.meta_get env .env) with
  | some item => return item.body
  | none => .fail (.notFound "environment does not exist")

def replay_create_env (name : EnvName) (key : Option String) : Act (Option Environment) := do
  match key with
  | none => return none
  | some key =>
    match ← issue (.read_global name) with
    | none => return none
    | some claim =>
      if claim.idempotency_key = some key then
        let env ← get_env claim.env_id
        return some env
      else return none

/-- `drawn` is the id `EnvId.new` returns. -/
def create_env (drawn : EnvId) (name : EnvName) (owner : String) (default_ref : RefName)
    (labels : List (String × String)) (idempotency_key : Option String) : Act Environment := do
  let created_at_us ← issue .now_us
  let env : Environment :=
    { env_id := drawn, name, default_ref, state := .active, owner, labels, forked_from_env := none,
      forked_from_commit := none, created_at_us }
  let claimed ← issue (.claim_global name ⟨drawn, idempotency_key⟩)
  if claimed then
    transact drawn [.put .env env (some .absent) none none, .put .seq 1 (some .absent) none none]
    return env
  else
    match ← replay_create_env name idempotency_key with
    | some replayed => return replayed
    | none => .fail (.conflict "environment name is already taken" none)

def resolve_env_name (name : EnvName) : Act EnvId := do
  match ← issue (.read_global name) with
  | some claim => return claim.env_id
  | none => .fail (.notFound "environment name is not registered")

def list_envs (starting : String) (limit : Nat) : Act (List EnvName) := do
  let items ← issue (.scan_global starting limit)
  return items.map Prod.fst

def rename_env (env : EnvId) (new_name : EnvName) : Act Environment := do
  let record ← get_env env
  if record.name = new_name then return record
  else
    let claimed ← issue (.claim_global new_name ⟨env, none⟩)
    if claimed then
      let updated := { record with name := new_name }
      transact env [.put .env updated none none none]
      let _ ← issue (.delete_global record.name)
      return updated
    else .fail (.conflict "environment name is already taken" none)

/-- `_replace_env`, given what it changes. -/
def replace_env (env : EnvId) (changes : Environment → Environment) : Act Environment := do
  let record ← get_env env
  let updated := changes record
  transact env [.put .env updated none none none]
  return updated

def set_env_state (env : EnvId) (state : EnvState) : Act Environment :=
  replace_env env fun record => { record with state }

def set_env_labels (env : EnvId) (labels : List (String × String)) : Act Environment :=
  replace_env env fun record => { record with labels }

def sweep_orphan_name_claims (limit : Nat) : Act Nat := do
  let items ← issue (.scan_global "" limit)
  items.foldlM (fun reclaimed item => do
    let record ← issue (.meta_get item.2.env_id .env)
    if (record.map fun found => found.body.name) = some item.1 then return reclaimed
    else
      let _ ← issue (.delete_global item.1)
      return reclaimed + 1) 0

/-! ## Idempotency -/

def idem_sk (key : String) : Except PyError SortKey := do
  ensure (key ≠ "" ∧ '#' ∉ key.toList) (.valueError "invalid idempotency key")
  return .idem key

def recorded_outcome (env : EnvId) (key : String) (request : Request) : Act (Option IdempotencyRecord) := do
  let _ ← ofExcept (idem_sk key)
  match ← issue (.meta_get env (.idem key)) with
  | none => return none
  | some item =>
    if item.body.fingerprint = request then return some item.body
    else .fail (.idempotencyMismatch "idempotency key was reused with a different request")

def replay (partition : EnvId) (key : String) (request : Request) : Act (Option Nat) := do
  let recorded ← recorded_outcome partition key request
  return recorded.map IdempotencyRecord.op_sequence

def idempotency_write (key : String) (request : Request) (outcome : Outcome) (sequence : Nat) :
    Act WriteOp := do
  let written_at_us ← issue .now_us
  let created_at_us ← issue .now_us
  let expires_at_us := written_at_us + IDEMPOTENCY_TTL_US
  let _ ← ofExcept (idem_sk key)
  return .put (.idem key)
    { key, fingerprint := request, outcome, op_sequence := sequence, expires_at_us, created_at_us }
    (some .absent) none (some expires_at_us)

/-! ## The shared ref mutation path -/

def next_sequence (partition : EnvId) : Act (Nat × Nat) := do
  match ← issue (.meta_get partition .seq) with
  | some item => return (item.body, item.version)
  | none => .fail (.notFound "environment does not exist")

def counter_writes (sequence counter_version : Nat) : List WriteOp :=
  [.put .seq (sequence + 1) (some (.version_is counter_version)) none none]

def op_write (entry : OpLogEntry) : WriteOp := .put (.op entry.sequence) entry (some .absent) none none

def change_write (partition : EnvId) (change : ChangeId) (commit : ObjectName) : Act WriteOp := do
  let existing ← issue (.meta_get partition (.change change))
  let commits := match existing with
    | some item => commit :: item.body.commits
    | none => [commit]
  return .put (.change change) ⟨change, commits⟩ none none none

/-- `_commit_with_counter` from its loop on, with the retries left. -/
def commit_attempts (partition : EnvId) (build : Nat → Nat → Act (List WriteOp)) (key : Option String)
    (request : Request) (outcome : Outcome) : Nat → Act (Nat × Bool)
  | 0 => .fail (.conflict "operation counter is too contended to allocate a sequence" none)
  | retries + 1 => do
    let (sequence, counter_version) ← next_sequence partition
    let built ← build sequence counter_version
    let recording ← match key with
      | some key => do
        let write ← idempotency_write key request outcome sequence
        pure [write]
      | none => pure []
    match ← issue (.transact_write partition (built ++ recording)) with
    | .ok () => return (sequence, false)
    | .error (.conflict message sk) =>
      -- Counter contention is not a real conflict.
      if sk = some (SortKey.render .seq) then commit_attempts partition build key request outcome retries
      else
        match key with
        | none => .fail (.conflict message sk)
        | some key =>
          match ← replay partition key request with
          | some recorded => return (recorded, true)
          | none => .fail (.conflict message sk)
    | .error error => .fail error

def commit_with_counter (partition : EnvId) (build : Nat → Nat → Act (List WriteOp)) (key : Option String)
    (request : Request) (outcome : Outcome) : Act (Nat × Bool) := do
  let recorded ← match key with
    | some key => replay partition key request
    | none => pure none
  match recorded with
  | some sequence => return (sequence, true)
  | none => commit_attempts partition build key request outcome COUNTER_RETRIES

/-! ## Refs -/

def try_get_ref (env : EnvId) (name : RefName) : Act (Option Ref) := do
  let item ← issue (.meta_get env (.ref name))
  return item.map Item.body

def get_ref (env : EnvId) (name : RefName) : Act Ref := do
  match ← issue (.meta_get env (.ref name)) with
  | some item => return item.body
  | none => .fail (.notFound "ref does not exist")

def list_refs (env : EnvId) : Act (List Ref) := do
  let items ← issue (.meta_query env .refs 1000)
  return items.map Item.body

/-- The arguments of `_mutate_ref`. -/
structure Mutation where
  name : RefName
  target : ObjectName
  condition : Condition
  generation : Int
  kind : OpKind
  principal : String
  lifecycle : RefLifecycle
  ttl_us : Option Int
  change_id : Option ChangeId
  idempotency_key : Option String
  before : Option ObjectName
  idempotency_request : Option Request
  keep_expiry : Option Int

def Mutation.expected (mutation : Mutation) : Option Int :=
  match mutation.condition with
  | .generation_is generation => some generation
  | _ => none

def Mutation.request (mutation : Mutation) : Request :=
  mutation.idempotency_request.getD
    (.ref_mutation mutation.kind mutation.name mutation.target mutation.expected)

def Mutation.build (env : EnvId) (mutation : Mutation) (ref : Ref) (now : Int) (sequence counter_version : Nat) :
    Act (List WriteOp) := do
  let moved : List WriteOp :=
    .put (.ref mutation.name) ref (some mutation.condition) (some mutation.generation) ref.expires_at_us ::
      counter_writes sequence counter_version ++
      [op_write
        { sequence, kind := mutation.kind, ref := some mutation.name, before := mutation.before,
          after := some mutation.target, principal := mutation.principal, at_us := now }]
  let changed ← match mutation.change_id with
    | some change => do
      let write ← change_write env change mutation.target
      pure [write]
    | none => pure []
  return moved ++ changed ++
    [.emit (.ref_updated mutation.name mutation.before mutation.target mutation.generation sequence)]

def describe_conflict (env : EnvId) (name : RefName) : Act PyError := do
  let _ ← try_get_ref env name
  return .conflict "this ref moved since you read it; rebase onto the current target" none

def mutate_ref (env : EnvId) (mutation : Mutation) : Act RefUpdate := do
  let now ← issue .now_us
  let expires_at := match mutation.ttl_us with
    | none => mutation.keep_expiry
    | some ttl_us => some (now + ttl_us)
  ofExcept (ensure (¬ (mutation.lifecycle = .ephemeral ∧ expires_at = none))
    (.invalidRequest "an ephemeral ref requires a time to live"))
  let ref : Ref :=
    { name := mutation.name, target := mutation.target, generation := mutation.generation,
      lifecycle := mutation.lifecycle, expires_at_us := expires_at, updated_by := mutation.principal,
      updated_at_us := now }
  let (sequence, replayed) ←
    (commit_with_counter env (mutation.build env ref now) mutation.idempotency_key mutation.request
      (.moved mutation.target mutation.generation)).handling fun
        | .conflict _ _ => do
          let described ← describe_conflict env mutation.name
          .fail described
        | error => .fail error
  if replayed then
    let current ← get_ref env mutation.name
    return ⟨current, sequence, true⟩
  else return ⟨ref, sequence, false⟩

def create_ref (env : EnvId) (name : RefName) (target : ObjectName) (principal : String)
    (lifecycle : RefLifecycle) (ttl_us : Option Int) (change_id : Option ChangeId)
    (idempotency_key : Option String) (idempotency_request : Option Request) : Act RefUpdate :=
  mutate_ref env
    { name, target, condition := .absent, generation := 1, kind := .create_ref, principal, lifecycle, ttl_us,
      change_id, idempotency_key, before := none, idempotency_request, keep_expiry := none }

def update_ref (env : EnvId) (name : RefName) (expected_generation : Int) (target : ObjectName)
    (principal : String) (change_id : Option ChangeId) (idempotency_key : Option String)
    (idempotency_request : Option Request) (op_kind : OpKind) : Act RefUpdate := do
  match ← try_get_ref env name with
  | none => .fail (.notFound "ref does not exist")
  | some current =>
    ofExcept (ensure (¬ current.name.is_tag) (.conflict "tags are written once and then frozen" none))
    mutate_ref env
      { name, target, condition := .generation_is expected_generation, generation := current.generation + 1,
        kind := op_kind, principal, lifecycle := current.lifecycle, ttl_us := none, change_id, idempotency_key,
        before := some current.target, idempotency_request, keep_expiry := current.expires_at_us }

def delete_ref (env : EnvId) (name : RefName) (expected_generation : Int) (principal : String)
    (idempotency_key : Option String) : Act Nat := do
  let current ← get_ref env name
  let build (sequence counter_version : Nat) : Act (List WriteOp) := do
    let at_us ← issue .now_us
    return .delete (.ref name) (some (.generation_is expected_generation)) ::
      counter_writes sequence counter_version ++
      [op_write
        { sequence, kind := .delete_ref, ref := some name, before := some current.target, after := none,
          principal, at_us },
      .emit (.ref_deleted name current.target sequence)]
  let (sequence, _) ← commit_with_counter env build idempotency_key
    (.delete_ref name expected_generation) (.deleted name)
  return sequence

/-! ## The operation log -/

def list_ops (env : EnvId) (limit : Nat) : Act (List OpLogEntry) := do
  let items ← issue (.meta_query env (.ops true) limit)
  return items.map Item.body

def get_op (env : EnvId) (sequence : Nat) : Act OpLogEntry := do
  match ← issue (.meta_get env (.op sequence)) with
  | some item => return item.body
  | none => .fail (.notFound "operation does not exist")

def undo (env : EnvId) (sequence : Nat) (principal : String) (idempotency_key : Option String) :
    Act RefUpdate := do
  let entry ← get_op env sequence
  match entry.ref with
  | none => .fail (.invalidRequest "this operation did not move a ref")
  | some name =>
    let current ← try_get_ref env name
    match entry.before, current with
    | none, none => .fail (.notFound "ref is already absent")
    | none, some current =>
      let _ ← delete_ref env name current.generation principal idempotency_key
      return ⟨current, sequence, false⟩
    | some before, none =>
      create_ref env name before principal .permanent none none idempotency_key none
    | some before, some current =>
      update_ref env name current.generation before principal none idempotency_key none .undo

/-! ## Write sessions -/

def PAGE_QUERY_LIMIT : Nat := 100000

def session_pages (env : EnvId) (session : SessionId) :
    Act (List (SessionPage × Item (List ObjectName))) :=
  issue (.meta_query env (.session_pages session) PAGE_QUERY_LIMIT)

/-- `drawn` is the id `SessionId.new` returns. -/
def begin_write (env : EnvId) (drawn : SessionId) (principal : String) (ttl_us : Int) : Act WriteSession := do
  let now ← issue .now_us
  let created_at_us ← issue .now_us
  let session : WriteSession := { session_id := drawn, principal, expires_at_us := now + ttl_us, created_at_us }
  transact env [.put (.session drawn) session (some .absent) none (some session.expires_at_us)]
  return session

def get_session (env : EnvId) (session : SessionId) : Act WriteSession := do
  match ← issue (.meta_get env (.session session)) with
  | some item => return item.body
  | none => .fail (.notFound "write session does not exist")

def uploaded_objects (env : EnvId) (session : SessionId) : Act (List ObjectName) := do
  let pages ← session_pages env session
  return pages.flatMap fun page => page.2.body

/-- The writes that append `fresh` after a session's first `index` pages. -/
def page_writes (session : SessionId) (index : Nat) (fresh : List ObjectName) (expires_at_us : Int) :
    List WriteOp :=
  (List.range ((fresh.length + SESSION_PAGE_SIZE - 1) / SESSION_PAGE_SIZE)).map fun page =>
    .put (.session_page ⟨session, index + page⟩)
      ((fresh.drop (page * SESSION_PAGE_SIZE)).take SESSION_PAGE_SIZE) (some .absent) none
      (some expires_at_us)

def record_uploaded (env : EnvId) (session : SessionId) (names : List ObjectName) : Act Nat := do
  if names = [] then
    let uploaded ← uploaded_objects env session
    return uploaded.length
  else
    let current ← get_session env session
    let pages ← session_pages env session
    let already := (pages.flatMap fun page => page.2.body).toFinset
    let fresh := (fromkeys names).filter fun name => name ∉ already
    if fresh = [] then return already.card
    else
      transact env (page_writes session pages.length fresh current.expires_at_us)
      return already.card + fresh.length

def renew_session (env : EnvId) (session : SessionId) (ttl_us : Int) : Act WriteSession := do
  let current ← get_session env session
  let now ← issue .now_us
  ofExcept (ensure (now < current.expires_at_us) (.notFound "write session has expired"))
  let renewed := { current with expires_at_us := now + ttl_us }
  let pages ← session_pages env session
  transact env
    (.put (.session session) renewed none none (some renewed.expires_at_us) ::
      pages.map fun page =>
        .put (.session_page page.1) page.2.body none none (some renewed.expires_at_us))
  return renewed

def end_session (env : EnvId) (session : SessionId) : Act Unit := do
  let pages ← session_pages env session
  transact env (pages.map (fun page => .delete (.session_page page.1) none) ++ [.delete (.session session) none])

def list_sessions (env : EnvId) : Act (List WriteSession) := do
  let items ← issue (.meta_query env .sessions 1000)
  return items.map Item.body

end LedgerVcs
