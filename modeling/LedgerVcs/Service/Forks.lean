import LedgerVcs.Meta.Creations
import LedgerVcs.Service.Leasing
import LedgerVcs.Service.Refs

set_option autoImplicit false

/-! Forks that stop on their way. -/

namespace LedgerVcs

open Prog (Leaves ofExcept run_bind_ok)

section Alone

variable {corpus : Corpus} {env : EnvId} {world after : World}

/-! ## The first ref -/

theorem first_ref_writes {partition : Partition} {mutation : Mutation} {ref : Ref} {counter : Item Nat}
    {entry : OpLogEntry} (condition : mutation.condition = .absent) (free : partition.refs[mutation.name]? = none)
    (counted : partition.seq = some counter) (unlogged : partition.ops[counter.body]? = none)
    (sequence : entry.sequence = counter.body) (event : StreamEvent) :
    ∃ final, partition.transact_write
      (.put (.ref mutation.name) ref (some mutation.condition) (some mutation.generation) ref.expires_at_us ::
        counter_writes counter.body counter.version ++ [op_write entry] ++ [] ++ [.emit event] ++ []) = .ok final := by
  rw [condition]
  refine ⟨_, transact_ok.mpr ⟨_, apply_put.mpr ⟨require_absent.mpr free, rfl⟩, transact_ok.mpr ⟨_, apply_put.mpr ⟨?_, rfl⟩,
    transact_ok.mpr ⟨_, apply_put.mpr ⟨require_absent.mpr ?_, rfl⟩, rfl⟩⟩⟩⟩
  next =>
    rw [require_version]
    exact congrArg (Option.map Item.version) counted
  next =>
    rw [sequence]
    exact unlogged

theorem runs_create_ref {name : RefName} {counter : Item Nat} (target : ObjectName) (principal : String)
    (free : (world.partition env).refs[name]? = none) (counted : (world.partition env).seq = some counter)
    (unlogged : (world.partition env).ops[counter.body]? = none) :
    ∃ update after, runs corpus (create_ref env name target principal .permanent none none none none) world =
      (.ok update, after) := by
  let mutation := create_mutation name target principal .permanent none none none none
  have clock : runs corpus (issue .now_us) world = (.ok world.clock, world) := rfl
  have lives : runs corpus (ofExcept (ensure (¬ mutation.Timeless world.clock)
      (.invalidRequest "an ephemeral ref requires a time to live"))) world = (.ok (), world) := by
    rw [runs, Prog.run_ofExcept, ensure_ok.mpr (fun timeless => by cases timeless.1)]
  have numbered : runs corpus (next_sequence env) world = (.ok (counter.body, counter.version), world) := by
    have issued : runs corpus (issue (.meta_get env .seq)) world = (.ok (some counter), world) := by
      rw [← counted]
      rfl
    exact run_bind_ok _ issued
  obtain ⟨final, applied⟩ := @first_ref_writes (world.partition env) mutation (mutation.ref world.clock) counter
    { sequence := counter.body, kind := mutation.kind, ref := some mutation.name, before := mutation.before,
      after := some mutation.target, principal := mutation.principal, at_us := world.clock } rfl free counted unlogged rfl
    (.ref_updated mutation.name mutation.before mutation.target mutation.generation counter.body)
  have committed (writes : List WriteOp) (applied : (world.partition env).transact_write writes = .ok final) :
      runs corpus (issue (.transact_write env writes)) world = (.ok (.ok ()), world.with_partition env final) := by
    rw [runs_issue]
    simp only [exec, applied]
  have attempted : runs corpus (commit_with_counter env (mutation.build env (mutation.ref world.clock) world.clock)
      mutation.idempotency_key mutation.request (.moved mutation.target mutation.generation)) world =
        (.ok (counter.body, false), world.with_partition env final) :=
    (run_bind_ok _ numbered).trans (run_bind_ok _ (committed _ applied))
  refine ⟨⟨mutation.ref world.clock, counter.body, false⟩, world.with_partition env final, ?_⟩
  refine (run_bind_ok _ clock).trans ((run_bind_ok _ lives).trans ?_)
  exact run_bind_ok _ (Prog.run_handled attempted _)

theorem create_ref_ran {name : RefName} {target : ObjectName} {principal : String} {lifecycle : RefLifecycle}
    {ttl_us : Option Int} {update : RefUpdate}
    (ran : runs corpus (create_ref env name target principal lifecycle ttl_us none none none) world = (.ok update, after)) :
    (world.partition env).refs[name]? = none ∧ ∃ final, after = world.with_partition env final ∧
      final.env = (world.partition env).env ∧ (∃ row, final.refs[name]? = some row ∧ row.body.target = target) ∧
      final.sessions = (world.partition env).sessions ∧ final.session_pages = (world.partition env).session_pages := by
  obtain ⟨-, ⟨-, -, ⟨record, impossible, -⟩, -⟩ | ⟨-, -, -, committed⟩⟩ := mutate_ref_ran ran
  next => cases impossible
  next =>
    obtain ⟨version, writes, final, carries, applied, rfl⟩ := committed_move
      (fun sequence version => build_runs (create_mutation name target principal lifecycle ttl_us none none none) _ sequence version)
      committed
    obtain ⟨required, -, -, refs, -, -, record, sessions, pages⟩ := transact_move carries applied
    refine ⟨require_absent.mp required, final, rfl, record, ?_, sessions, pages⟩
    rw [refs]
    exact ⟨_, Std.ExtTreeMap.getElem?_insert_self, rfl⟩

end Alone

/-! ## How far a fork has come -/

/-- A request that the source and the registry allow: its source is there and can be read, and its name is free. -/
structure Fork.Forkable (corpus : Corpus) (fork : Fork) (world : World) (key : String) (head : Ref)
    (closure : List ObjectName) : Prop where
  keyed : fork.idempotency_key = some key
  origin : ∃ item, (world.partition fork.source).env = some item ∧
    ∃ row, (world.partition fork.source).refs[fork.from_ref.getD item.body.default_ref]? = some row ∧ row.body = head
  walked : runs corpus (commit_closure head.target) world = (.ok closure, world)
  free : world.names[fork.name]? = none

/-- An environment that has its record and its counter, and no more. -/
def Partition.begun (record : Environment) (version : Nat) : Partition :=
  { Partition.empty with env := some ⟨record, version, none, none⟩, seq := some ⟨1, 1, none, none⟩ }

/-- The name is claimed and the environment recorded. -/
def World.begun (world : World) (claim : NameClaim) (record : Environment) (version : Nat) : World :=
  (world.with_claim record.name claim).with_partition claim.env_id (.begun record version)

/-- The claimed environment has its default ref. -/
structure World.Placed (world : World) (name : EnvName) (claim : NameClaim) : Prop where
  held : world.names[name]? = some claim
  record : ∃ item, (world.partition claim.env_id).env = some item ∧ item.body.default_ref = DEFAULT_REF ∧
    item.body.env_id = claim.env_id
  ref : ∃ row, (world.partition claim.env_id).refs[DEFAULT_REF]? = some row

/-- Where a fork can stop. -/
inductive Fork.Stopped (world : World) (name : EnvName) (claim : NameClaim) : World → Prop
  | idle : Fork.Stopped world name claim world
  | claimed : Fork.Stopped world name claim (world.with_claim name claim)
  | recorded (record : Environment) (version : Nat) (named : record.name = name) (own : record.env_id = claim.env_id)
      (default : record.default_ref = DEFAULT_REF) : Fork.Stopped world name claim (world.begun claim record version)
  | placed (after : World) (placed : after.Placed name claim) : Fork.Stopped world name claim after

/-- The record with where it was forked from. -/
def Fork.provenance (fork : Fork) (target : ObjectName) (record : Environment) : Environment :=
  { record with forked_from_env := some fork.source, forked_from_commit := some target }

/-- Who the first ref is made by. -/
def Fork.placer (fork : Fork) : String :=
  if fork.principal ≠ "" then fork.principal else if fork.owner ≠ "" then fork.owner else "ledger"

/-- The fork from its provenance on. -/
def Fork.rest (fork : Fork) (target : ObjectName) (created provenance : Environment) : Act ForkResult := do
  transact created.env_id [.put .env provenance none none none]
  let _ ← create_ref created.env_id created.default_ref target fork.placer .permanent none none none none
  let closure ← commit_closure target
  fork.retain created.env_id closure
  return ⟨provenance, target, closure.length⟩

theorem fork_run (fork : Fork) : fork.run = (do
    let origin ← get_env fork.source
    let head ← get_ref fork.source (fork.from_ref.getD origin.default_ref)
    let created ← create_env fork.drawn_env fork.name (if fork.owner ≠ "" then fork.owner else origin.owner)
      DEFAULT_REF [] fork.idempotency_key
    let record ← get_env created.env_id
    fork.rest head.target created (fork.provenance head.target record)) := rfl

/-- Commands that leave claims, records and refs alone. -/
def CoversCmd (env : EnvId) (command : Cmd) : Prop :=
  SessionCmd env command ∨ Reads command ∨ ∃ name, command = .keepset_merge env name

section Stages

variable {corpus : Corpus} {world after : World} {name : EnvName} {claim : NameClaim}

theorem with_partition_again (world : World) (pk : EnvId) (first second : Partition) :
    (world.with_partition pk first).with_partition pk second = world.with_partition pk second := by
  have same : (world.partitions.insert pk first).insert pk second = world.partitions.insert pk second := by
    refine Std.ExtTreeMap.ext_getElem? fun sought => ?_
    simp only [Std.ExtTreeMap.getElem?_insert]
    split <;> rfl
  simp only [World.with_partition, same]

theorem exec_covers {env : EnvId} {command : Cmd} (covers : CoversCmd env command) (world : World) :
    (exec corpus command world).2.names = world.names ∧
      (∀ pk, ((exec corpus command world).2.partition pk).env = (world.partition pk).env) ∧
      ∀ pk, ((exec corpus command world).2.partition pk).refs = (world.partition pk).refs := by
  rcases covers with session | reads | ⟨name, rfl⟩
  next =>
    have leases := @exec_leases corpus env command session world
    refine ⟨by rw [leases.beside], fun pk => ?_, fun pk => ?_⟩
    all_goals by_cases same : pk = env
    next => exact same ▸ leases.own.1
    next => rw [leases.others pk same]
    next => exact same ▸ leases.own.2.1
    next => rw [leases.others pk same]
  next =>
    rw [exec_reads reads]
    exact ⟨rfl, fun _ => rfl, fun _ => rfl⟩
  next => exact ⟨rfl, fun _ => rfl, fun _ => rfl⟩

theorem covers_placed {env : EnvId} {command : Cmd} (covers : CoversCmd env command) (world : World)
    (placed : world.Placed name claim) : (exec corpus command world).2.Placed name claim := by
  obtain ⟨names, records, refs⟩ := @exec_covers corpus env command covers world
  refine ⟨?_, ?_, ?_⟩
  next =>
    rw [names]
    exact placed.held
  next =>
    rw [records]
    exact placed.record
  next =>
    rw [refs]
    exact placed.ref

theorem merge_covers (env : EnvId) (names : List ObjectName) :
    (GarbageCollector.graduate env names).Yields (CoversCmd env) (answers corpus) fun _ => True := by
  refine .bind (Prog.Yields.mono (Prog.Yields.mapM fun name _ => ?_) (fun _ fits => fits) fun _ _ => trivial)
  exact .ask (.inr (.inr ⟨name, rfl⟩)) fun _ _ => trivial

theorem retain_covers (fork : Fork) (created : EnvId) (closure : List ObjectName) :
    (fork.retain created closure).Yields (CoversCmd created) (answers corpus) fun _ => True := by
  refine .bind ((begin_write_yields _ _ _).mono (fun _ fits => .inl fits) fun session _ => ?_)
  refine .ensuring (.bind ((record_uploaded_yields _ _).mono (fun _ fits => .inl fits) fun _ _ => ?_))
    ((end_session_yields _).mono (fun _ fits => .inl fits) fun _ _ => trivial)
  exact .bind ((merge_covers created closure).mono (fun _ fits => fits) fun _ _ => trivial)

theorem content_covers (fork : Fork) (target : ObjectName) (created : EnvId) (provenance : Environment) :
    (do
      let closure ← commit_closure target
      fork.retain created closure
      return ⟨provenance, target, closure.length⟩ : Act ForkResult).Yields (CoversCmd created) (answers corpus) fun _ => True := by
  refine .bind ((commit_closure_yields target).mono (fun _ fits => .inr (.inl fits)) fun closure _ => ?_)
  exact .bind ((retain_covers fork created closure).mono (fun _ fits => fits) fun _ _ => trivial)

/-! ## Where a fork stops -/

theorem leaves_looking {α : Type} {act : Act α} (looks : act.Yields Looks (fun _ _ => True) fun _ => True)
    (leaves : Leaves (exec corpus) act world after) : after = world :=
  @Prog.Yields.leaves _ _ _ _ _ (exec corpus) Looks (fun _ _ => True) (fun _ => True) act (fun now => now = world) looks
    (fun _ _ => trivial) (fun _ now fits same => (looks_still fits now).trans same) world after rfl leaves

theorem get_ref_looks (env : EnvId) (name : RefName) : (get_ref env name).Yields Looks (fun _ _ => True) fun _ => True := by
  refine .bind (.ask trivial fun item _ => ?_)
  cases item <;> trivial

theorem get_env_ran {env : EnvId} {record : Environment} (ran : runs corpus (get_env env) world = (.ok record, after)) :
    world = after ∧ ∃ item, (world.partition env).env = some item ∧ item.body = record := by
  rw [runs_get_env] at ran
  cases found : (world.partition env).env with
  | none =>
    rw [found] at ran
    cases ran
  | some item =>
    rw [found] at ran
    cases ran
    exact ⟨rfl, item, rfl, rfl⟩

theorem leaves_transact {env : EnvId} {writes : List WriteOp} (leaves : Leaves (exec corpus) (transact env writes) world after) :
    after = world ∨ after = (runs corpus (transact env writes) world).2 := by
  rcases Prog.leaves_call leaves with same | leaves
  next => exact .inl same
  next =>
    have last : Leaves (exec corpus) (ofExcept (exec corpus (.transact_write env writes) world).1 : Act Unit)
      (exec corpus (.transact_write env writes) world).2 after := leaves
    have ran : runs corpus (transact env writes) world = exec corpus (.transact_write env writes) world :=
      Prog.run_ofExcept (exec corpus) _ _
    rw [ran]
    refine .inr (Prog.leaves_end ?_ last)
    cases (exec corpus (.transact_write env writes) world).1 with
    | ok => exact .inl rfl
    | error error => exact .inr ⟨error, rfl⟩

section Begun

variable {record : Environment} {version : Nat}

@[simp] theorem begun_partition : (world.begun claim record version).partition claim.env_id = .begun record version :=
  partition_with_self ..

theorem begun_others {pk : EnvId} (other : pk ≠ claim.env_id) :
    (world.begun claim record version).partition pk = world.partition pk :=
  partition_with_of_ne _ _ other.symm

theorem begun_held (free : world.names[record.name]? = none) :
    (world.begun claim record version).names[record.name]? = some claim :=
  with_claim_free free

theorem with_env_begun (unused : world.partition claim.env_id = .empty) :
    world.with_env claim.env_id record.name claim.idempotency_key record = world.begun claim record 1 := by
  rw [World.with_env, unused]
  rfl

theorem runs_rewrite {written : Environment} (named : written.name = record.name) :
    runs corpus (transact claim.env_id [.put .env written none none none]) (world.begun claim record version) =
      (.ok (), world.begun claim written (version + 1)) := by
  have applied : ((world.begun claim record version).partition claim.env_id).transact_write
      [.put .env written none none none] = .ok (.begun written (version + 1)) := by
    rw [begun_partition]
    exact transact_ok.mpr ⟨_, apply_put.mpr ⟨rfl, rfl⟩, rfl⟩
  rw [runs_transact applied]
  simp only [World.begun, with_partition_again, named]

end Begun

/-- The ref is made in one transaction, and only once. -/
theorem first_ref_stopped {record : Environment} {version : Nat} {target : ObjectName} {principal : String}
    (free : world.names[record.name]? = none) (own : record.env_id = claim.env_id)
    (default : record.default_ref = DEFAULT_REF)
    (leaves : Leaves (exec corpus)
      (create_ref claim.env_id record.default_ref target principal .permanent none none none none)
      (world.begun claim record version) after) :
    after = world.begun claim record version ∨ after.Placed record.name claim := by
  have yields := @create_ref_yields claim.env_id (fun _ _ => True) (fun _ _ => True) record.default_ref target principal
    .permanent none none none none fun _ _ => trivial
  refine @Prog.Yields.leaves _ _ _ _ _ (exec corpus) _ _ _ _
    (fun now => now = world.begun claim record version ∨ now.Placed record.name claim) yields (fun _ _ => trivial)
    (fun command now fits stage => ?_) _ _ (.inl rfl) leaves
  cases command with
  | now_us | meta_get => exact stage
  | transact_write pk writes =>
    obtain ⟨rfl, move, carries, named, condition, -, -, ref, placed, -, -, -⟩ := fits
    cases applied : (now.partition claim.env_id).transact_write writes with
    | error error =>
      simp only [exec, applied]
      exact stage
    | ok final =>
      simp only [exec, applied]
      obtain ⟨required, -, -, refs, -, -, kept, -⟩ := transact_move carries applied
      rw [condition, require_absent, named, default] at required
      rcases stage with rfl | there
      next =>
        refine .inr ⟨@begun_held world claim record version free, ?_, ?_⟩
        next =>
          rw [partition_with_self, kept, begun_partition]
          exact ⟨_, rfl, default, own⟩
        next =>
          rw [partition_with_self, refs, Move.refs, placed, named, default]
          exact ⟨_, Std.ExtTreeMap.getElem?_insert_self⟩
      next =>
        obtain ⟨row, found⟩ := there.ref
        cases found.symm.trans required
  | _ => cases fits

theorem create_ref_placed {record : Environment} {version : Nat} {target : ObjectName} {principal : String}
    {update : RefUpdate} (free : world.names[record.name]? = none) (own : record.env_id = claim.env_id)
    (default : record.default_ref = DEFAULT_REF)
    (ran : runs corpus (create_ref claim.env_id record.default_ref target principal .permanent none none none none)
      (world.begun claim record version) = (.ok update, after)) : after.Placed record.name claim := by
  obtain ⟨-, final, rfl, kept, ⟨row, found, -⟩, -, -⟩ := create_ref_ran ran
  refine ⟨@begun_held world claim record version free, ?_, ?_⟩
  next =>
    rw [partition_with_self, kept, begun_partition]
    exact ⟨_, rfl, default, own⟩
  next =>
    rw [partition_with_self, ← default]
    exact ⟨row, found⟩

variable {fork : Fork} {key : String} {head : Ref} {closure : List ObjectName}

theorem stopped_placed {α : Type} {env : EnvId} {act : Act α}
    (covers : act.Yields (CoversCmd env) (answers corpus) fun _ => True) (placed : world.Placed name claim)
    (leaves : Leaves (exec corpus) act world after) : after.Placed name claim :=
  @Prog.Yields.leaves _ _ _ _ _ (exec corpus) _ _ _ _ (fun now => now.Placed name claim) covers (answered corpus)
    (fun _ now fits there => covers_placed fits now there) _ _ placed leaves

theorem rest_stopped {record : Environment} {target : ObjectName} {version : Nat}
    (free : world.names[record.name]? = none) (own : record.env_id = claim.env_id) (default : record.default_ref = DEFAULT_REF)
    (leaves : Leaves (exec corpus) (fork.rest target record (fork.provenance target record))
      (world.begun claim record version) after) : Fork.Stopped world record.name claim after := by
  have rewritten := @runs_rewrite corpus world claim record version (fork.provenance target record) rfl
  rw [Fork.rest, own] at leaves
  rcases Prog.leaves_bind leaves with stops | ⟨⟨⟩, middle, ran, leaves⟩
  next =>
    rcases leaves_transact stops with rfl | same
    next => exact .recorded record version rfl own default
    next =>
      obtain rfl := same.trans (congrArg Prod.snd rewritten)
      exact .recorded _ (version + 1) rfl own default
  have same := rewritten.symm.trans ran
  cases same
  rcases Prog.leaves_bind leaves with stops | ⟨update, middle, ran, leaves⟩
  next =>
    rcases @first_ref_stopped corpus world after claim (fork.provenance target record) (version + 1) target fork.placer free
      own default stops with rfl | placed
    next => exact .recorded _ (version + 1) rfl own default
    next => exact .placed _ placed
  have placed := @create_ref_placed corpus world middle claim (fork.provenance target record) (version + 1) target fork.placer
    update free own default ran
  exact .placed _ (stopped_placed (content_covers fork target claim.env_id _) placed leaves)

theorem fork_stopped (forkable : fork.Forkable corpus world key head closure)
    (unused : world.partition fork.drawn_env = .empty) (leaves : Leaves (exec corpus) fork.run world after) :
    Fork.Stopped world fork.name ⟨fork.drawn_env, some key⟩ after := by
  obtain ⟨origin, found, row, there, rfl⟩ := forkable.origin
  have fresh : world.Unused fork.drawn_env := by
    rw [World.Unused, unused]
    exact ⟨rfl, rfl⟩
  have begun (record : Environment) (named : record.name = fork.name) :
      world.with_env fork.drawn_env fork.name (some key) record = world.begun ⟨fork.drawn_env, some key⟩ record 1 := by
    rw [← named]
    exact @with_env_begun world ⟨fork.drawn_env, some key⟩ record unused
  rw [fork_run, forkable.keyed] at leaves
  rcases Prog.leaves_bind leaves with stops | ⟨record, middle, ran, leaves⟩
  next => exact leaves_looking (get_env_looks _) stops ▸ .idle
  obtain ⟨rfl, item, again, rfl⟩ := get_env_ran ran
  obtain rfl := Option.some.inj (found.symm.trans again)
  rcases Prog.leaves_bind leaves with stops | ⟨record, middle, ran, leaves⟩
  next => exact leaves_looking (get_ref_looks _ _) stops ▸ .idle
  obtain ⟨rfl, item, again, rfl⟩ := get_ref_ran ran
  obtain rfl := Option.some.inj (there.symm.trans again)
  rcases Prog.leaves_bind leaves with ⟨count, rfl⟩ | ⟨created, middle, ran, leaves⟩
  next =>
    rw [show (Prog.run _ _ _).2 = _ from stopped_free forkable.free fresh count]
    match count with
    | 0 | 1 => exact .idle
    | 2 => exact .claimed
    | more + 3 =>
      rw [begun _ rfl]
      exact .recorded _ 1 rfl rfl rfl
  rw [show Prog.run _ _ _ = _ from runs_create_free forkable.free fresh, begun _ rfl] at ran
  cases ran
  rcases Prog.leaves_bind leaves with stops | ⟨record, middle, ran, leaves⟩
  next => exact leaves_looking (get_env_looks _) stops ▸ .recorded _ 1 rfl rfl rfl
  obtain ⟨rfl, item, again, rfl⟩ := get_env_ran ran
  obtain rfl := Option.some.inj ((congrArg Partition.env (@begun_partition world ⟨fork.drawn_env, some key⟩ _ 1)).symm.trans again)
  exact @rest_stopped corpus world after ⟨fork.drawn_env, some key⟩ fork (created_env fork.drawn_env fork.name _ DEFAULT_REF []
    world.clock) row.body.target 1 forkable.free rfl rfl leaves

end Stages

/-! ## Forking again -/

/-- What the fork is to have come to: one environment of the name, at the source's commit, with its content kept. -/
structure Forked (fork : Fork) (key : String) (head : Ref) (closure : List ObjectName) (before after : World)
    (result : ForkResult) : Prop where
  named : result.environment.name = fork.name
  recorded : (after.partition result.environment.env_id).env.map Item.body = some result.environment
  provenance : result.environment.forked_from_env = some fork.source ∧
    result.environment.forked_from_commit = some head.target
  placed : ∃ row, (after.partition result.environment.env_id).refs[result.environment.default_ref]? = some row ∧
    row.body.target = head.target
  kept : ∀ name ∈ closure, (result.environment.env_id, name) ∈ after.keepset
  claims : after.names = before.names.insertIfNew fork.name ⟨result.environment.env_id, some key⟩
  single : ∀ pk, pk ≠ result.environment.env_id → (after.partition pk).env = (before.partition pk).env

section Again

variable {corpus : Corpus} {world after : World} {claim : NameClaim} {fork : Fork} {key : String} {head : Ref}
  {closure : List ObjectName}

theorem runs_retain {created : EnvId} (fresh : (world.partition created).Sessionless fork.drawn_session) :
    ∃ after, runs corpus (fork.retain created closure) world = (.ok (), after) ∧
      ∀ name ∈ closure, (created, name) ∈ after.keepset := by
  obtain ⟨session, began, begins, drawn, head, pages⟩ := @runs_begin_write corpus created world fork.drawn_session
    (if fork.principal ≠ "" then fork.principal else "ledger") WRITE_LEASE_TTL_US fresh
  obtain ⟨count, uploaded, records⟩ := @runs_record_uploaded corpus created began fork.drawn_session closure head pages
  obtain ⟨added, graduated, graduates, -, kept, -⟩ := @runs_graduate corpus created closure uploaded
  obtain ⟨ended, ends⟩ := @runs_end_session corpus created fork.drawn_session graduated
  refine ⟨ended, ?_, fun name member => ?_⟩
  next =>
    refine (run_bind_ok _ begins).trans ?_
    rw [drawn]
    exact Prog.run_ensuring ((run_bind_ok _ records).trans (run_bind_ok _ graduates)) ends
  next =>
    have leases := @runs_leases corpus created _ _ _ (end_session_yields fork.drawn_session) graduated
    rw [show runs _ _ _ = _ from ends] at leases
    rw [show ended = _ from leases.beside]
    exact kept name member

theorem runs_covers {α : Type} {env : EnvId} {act : Act α} (covers : act.Yields (CoversCmd env) (answers corpus) fun _ => True)
    (world : World) :
    (runs corpus act world).2.names = world.names ∧
      (∀ pk, ((runs corpus act world).2.partition pk).env = (world.partition pk).env) ∧
      ∀ pk, ((runs corpus act world).2.partition pk).refs = (world.partition pk).refs :=
  covers.run_keeps (answered corpus) (I := fun now => now.names = world.names ∧
      (∀ pk, (now.partition pk).env = (world.partition pk).env) ∧ ∀ pk, (now.partition pk).refs = (world.partition pk).refs)
    (fun command now fits kept => by
      obtain ⟨names, records, refs⟩ := @exec_covers corpus env command fits now
      exact ⟨names.trans kept.1, fun pk => (records pk).trans (kept.2.1 pk), fun pk => (refs pk).trans (kept.2.2 pk)⟩)
    ⟨rfl, fun _ => rfl, fun _ => rfl⟩

theorem closure_alike {commit : ObjectName} {other : World} (walked : runs corpus (commit_closure commit) world = (.ok closure, world))
    (same : other.backend = world.backend) : runs corpus (commit_closure commit) other = (.ok closure, other) := by
  have yields := @commit_closure_yields corpus commit
  have still := yields.run_still (answered corpus) (fun command now fits => exec_reads fits now) other
  have alike := yields.run_alike (A := fun (now later : World) => later.backend = now.backend) (answered corpus)
    (fun command now later fits same => ?_) same
  next => exact Prod.ext (alike.1.symm.trans (Prod.ext_iff.mp walked).1) still
  next =>
    obtain ⟨name, rfl⟩ := fits
    simp only [exec, same, and_self]

/-- From an environment that has its record and no more, the fork comes to its end. -/
theorem rest_runs {record : Environment} {version : Nat}
    (named : record.name = fork.name) (own : record.env_id = claim.env_id) (keyed : claim.idempotency_key = some key)
    (walked : runs corpus (commit_closure head.target) world = (.ok closure, world)) :
    ∃ result after, runs corpus (fork.rest head.target record (fork.provenance head.target record))
        (world.begun claim record version) = (.ok result, after) ∧ result.environment.env_id = claim.env_id ∧
      Forked fork key head closure world after result := by
  have rewritten := @runs_rewrite corpus world claim record version (fork.provenance head.target record) rfl
  have bare : (world.begun claim (fork.provenance head.target record) (version + 1)).partition claim.env_id =
      .begun (fork.provenance head.target record) (version + 1) := begun_partition
  obtain ⟨update, created, placed⟩ := @runs_create_ref corpus claim.env_id
    (world.begun claim (fork.provenance head.target record) (version + 1)) record.default_ref ⟨1, 1, none, none⟩ head.target
      fork.placer (by rw [bare]; rfl) (by rw [bare]; rfl) (by rw [bare]; rfl)
  obtain ⟨-, final, rfl, recorded, ⟨row, found, target⟩, sessions, pages⟩ := create_ref_ran placed
  rw [bare] at recorded sessions pages
  generalize placing : (world.begun claim (fork.provenance head.target record) (version + 1)).with_partition claim.env_id final = middle
    at placed
  have content : middle.backend = world.backend := by rw [← placing]; rfl
  have reads := closure_alike walked content
  have fresh : (middle.partition claim.env_id).Sessionless fork.drawn_session := by
    rw [← placing, partition_with_self]
    exact ⟨by rw [sessions]; rfl, fun page _ => by rw [pages]; rfl⟩
  obtain ⟨after, retains, kept⟩ := @runs_retain corpus middle fork closure claim.env_id fresh
  obtain ⟨names, records, refs⟩ := @runs_covers corpus _ claim.env_id _ (retain_covers fork claim.env_id closure) middle
  rw [show runs _ _ _ = _ from retains] at names records refs
  have same : (fork.provenance head.target record).env_id = claim.env_id := own
  refine ⟨⟨fork.provenance head.target record, head.target, closure.length⟩, after, ?_, same,
    ⟨named, ?_, ⟨rfl, rfl⟩, ⟨row, ?_, target⟩, ?_, ?_, fun pk other => ?_⟩⟩
  next =>
    rw [Fork.rest, own]
    exact (run_bind_ok _ rewritten).trans ((run_bind_ok _ placed).trans ((run_bind_ok _ reads).trans (run_bind_ok _ retains)))
  next =>
    dsimp only
    rw [same, records, ← placing, partition_with_self, recorded]
    rfl
  next =>
    dsimp only
    rw [same, refs, ← placing, partition_with_self]
    exact found
  next =>
    dsimp only
    rw [same]
    exact kept
  next =>
    dsimp only
    rw [same, names, ← placing, ← named, ← keyed]
    rfl
  next =>
    have elsewhere : pk ≠ claim.env_id := fun here => other (here.trans same.symm)
    rw [records, ← placing, partition_with_of_ne _ _ elsewhere.symm, begun_others elsewhere]

/-- The same request again, with ids of its own. -/
def Fork.again (fork : Fork) (drawn_env : EnvId) (drawn_session : SessionId) : Fork :=
  { fork with drawn_env, drawn_session }

/-- The repetition succeeds, with the environment that the name was claimed for. -/
def Fork.Repeats (corpus : Corpus) (fork retry : Fork) (key : String) (head : Ref) (closure : List ObjectName)
    (before stopped : World) : Prop :=
  ∃ result after, runs corpus retry.run stopped = (.ok result, after) ∧ Forked fork key head closure before after result ∧
    ∀ claim, stopped.names[fork.name]? = some claim → result.environment.env_id = claim.env_id

/-- The claim's environment is recorded and has no default ref. -/
def World.Resumable (world : World) (claim : NameClaim) : Prop :=
  (∃ item, (world.partition claim.env_id).env = some item) ∧ (world.partition claim.env_id).refs[DEFAULT_REF]? = none

variable {stopped : World}

/-- Under a name that its own key holds, only an environment without the ref lets the request through. -/
theorem resumable_of_success {result : ForkResult} (held : stopped.names[fork.name]? = some claim)
    (keyed : fork.idempotency_key = some key) (same : claim.idempotency_key = some key)
    (default : ∀ item, (stopped.partition claim.env_id).env = some item →
      item.body.default_ref = DEFAULT_REF ∧ item.body.env_id = claim.env_id)
    (ran : runs corpus fork.run stopped = (.ok result, after)) : stopped.Resumable claim := by
  rw [fork_run] at ran
  obtain ⟨origin, middle, first, ran⟩ := runs_bind.mp ran
  obtain ⟨rfl, -⟩ := get_env_ran first
  obtain ⟨head, middle, second, ran⟩ := runs_bind.mp ran
  obtain ⟨rfl, -⟩ := get_ref_ran second
  obtain ⟨created, middle, third, ran⟩ := runs_bind.mp ran
  rw [keyed, runs_create_taken held, if_pos same] at third
  cases found : (stopped.partition claim.env_id).env with
  | none =>
    rw [found] at third
    cases third
  | some item =>
    rw [found] at third
    cases third
    obtain ⟨ref, own⟩ := default item found
    refine ⟨⟨item, found⟩, ?_⟩
    obtain ⟨record, middle, fourth, ran⟩ := runs_bind.mp ran
    obtain ⟨rfl, -⟩ := get_env_ran fourth
    rw [Fork.rest, own, ref] at ran
    obtain ⟨⟨⟩, middle, fifth, ran⟩ := runs_bind.mp ran
    obtain ⟨final, applied, rfl⟩ := transact_ran fifth
    obtain ⟨rewritten, put, rest⟩ := transact_ok.mp applied
    obtain ⟨-, rfl⟩ := apply_put.mp put
    cases rest
    obtain ⟨update, middle, sixth, ran⟩ := runs_bind.mp ran
    obtain ⟨free, -⟩ := create_ref_ran sixth
    rw [partition_with_self] at free
    exact free

/-- The fork's first steps, with the source as it is. -/
theorem reaches_rest {middle : World} {origin : Item Environment} {row : Item Ref} {created : Environment}
    {item : Item Environment} {result : ForkResult} (found : (stopped.partition fork.source).env = some origin)
    (there : (stopped.partition fork.source).refs[fork.from_ref.getD origin.body.default_ref]? = some row)
    (creates : runs corpus (create_env fork.drawn_env fork.name (if fork.owner ≠ "" then fork.owner else origin.body.owner)
      DEFAULT_REF [] fork.idempotency_key) stopped = (.ok created, middle))
    (recorded : (middle.partition created.env_id).env = some item)
    (rest : runs corpus (fork.rest row.body.target created (fork.provenance row.body.target item.body)) middle =
      (.ok result, after)) : runs corpus fork.run stopped = (.ok result, after) := by
  have first := @runs_get_env corpus stopped fork.source
  rw [found] at first
  have second := @runs_get_ref corpus fork.source stopped (fork.from_ref.getD origin.body.default_ref)
  rw [there] at second
  have fourth := @runs_get_env corpus middle created.env_id
  rw [recorded] at fourth
  rw [fork_run]
  exact (run_bind_ok _ first).trans ((run_bind_ok _ second).trans ((run_bind_ok _ creates).trans
    ((run_bind_ok _ fourth).trans rest)))

theorem repeats_idle {drawn_env : EnvId} {drawn_session : SessionId} (forkable : fork.Forkable corpus world key head closure)
    (fresh : world.partition drawn_env = .empty) :
    fork.Repeats corpus (fork.again drawn_env drawn_session) key head closure world world := by
  obtain ⟨origin, found, row, there, rfl⟩ := forkable.origin
  have created := @runs_create_free corpus world drawn_env fork.name (if fork.owner ≠ "" then fork.owner else
    origin.body.owner) DEFAULT_REF [] (some key) forkable.free (by rw [World.Unused, fresh]; exact ⟨rfl, rfl⟩)
  generalize writes : created_env drawn_env fork.name (if fork.owner ≠ "" then fork.owner else origin.body.owner)
    DEFAULT_REF [] world.clock = record at created
  have named : record.name = fork.name := by rw [← writes]; rfl
  have own : record.env_id = drawn_env := by rw [← writes]; rfl
  have begun := @with_env_begun world ⟨drawn_env, some key⟩ record fresh
  rw [named] at begun
  rw [begun] at created
  obtain ⟨result, after, rest, -, forked⟩ := @rest_runs corpus world ⟨drawn_env, some key⟩
    (fork.again drawn_env drawn_session) key row.body closure record 1 named own rfl forkable.walked
  refine ⟨result, after, ?_, ⟨forked.named, forked.recorded, forked.provenance, forked.placed, forked.kept,
    forked.claims, forked.single⟩, fun claim held => ?_⟩
  next =>
    refine @reaches_rest corpus after (fork.again drawn_env drawn_session) world _ origin row record
      ⟨record, 1, none, none⟩ result found there ?_ ?_ rest
    next =>
      rw [show (fork.again drawn_env drawn_session).idempotency_key = some key from forkable.keyed]
      exact created
    next =>
      rw [own]
      exact congrArg Partition.env (@begun_partition world ⟨drawn_env, some key⟩ record 1)
  next => cases forkable.free.symm.trans held

theorem repeats_recorded {drawn_env : EnvId} {drawn_session : SessionId} {record : Environment} {version : Nat}
    (forkable : fork.Forkable corpus world key head closure) (elsewhere : fork.source ≠ claim.env_id)
    (keyed : claim.idempotency_key = some key) (named : record.name = fork.name) (own : record.env_id = claim.env_id) :
    fork.Repeats corpus (fork.again drawn_env drawn_session) key head closure world (world.begun claim record version) := by
  obtain ⟨origin, found, row, there, rfl⟩ := forkable.origin
  have free : world.names[record.name]? = none := named ▸ forkable.free
  have held : (world.begun claim record version).names[fork.name]? = some claim := named ▸ begun_held free
  have source : (world.begun claim record version).partition fork.source = world.partition fork.source := begun_others elsewhere
  have own_record : ((world.begun claim record version).partition claim.env_id).env = some ⟨record, version, none, none⟩ :=
    congrArg Partition.env begun_partition
  have created := @runs_create_taken corpus _ drawn_env _ (if fork.owner ≠ "" then fork.owner else origin.body.owner)
    DEFAULT_REF [] key claim held
  rw [if_pos keyed, own_record] at created
  obtain ⟨result, after, rest, same, forked⟩ := @rest_runs corpus world claim (fork.again drawn_env drawn_session) key
    row.body closure record version named own keyed forkable.walked
  refine ⟨result, after, ?_, ⟨forked.named, forked.recorded, forked.provenance, forked.placed, forked.kept,
    forked.claims, forked.single⟩, fun other again => ?_⟩
  next =>
    refine @reaches_rest corpus after (fork.again drawn_env drawn_session) (world.begun claim record version) _ origin row
      record ⟨record, version, none, none⟩ result (source ▸ found) (source ▸ there) ?_ (own ▸ own_record) rest
    rw [show (fork.again drawn_env drawn_session).idempotency_key = some key from forkable.keyed]
    exact created
  next =>
    obtain rfl := Option.some.inj (held.symm.trans again)
    exact same

/-- However far the fork came, its repetition succeeds exactly if the name is still free, or is claimed for an
environment that has been recorded and has no default ref yet. -/
theorem fork_retry_exact (corpus : Corpus) (world stopped : World) (fork : Fork) (drawn_env : EnvId)
    (drawn_session : SessionId) (key : String) (head : Ref) (closure : List ObjectName)
    (forkable : fork.Forkable corpus world key head closure) (unused : world.partition fork.drawn_env = .empty)
    (fresh : world.partition drawn_env = .empty) (leaves : Leaves (exec corpus) fork.run world stopped) :
    fork.Repeats corpus (fork.again drawn_env drawn_session) key head closure world stopped ↔
      ∀ claim, stopped.names[fork.name]? = some claim → stopped.Resumable claim := by
  obtain ⟨origin, found, -⟩ := forkable.origin
  have keyed : (fork.again drawn_env drawn_session).idempotency_key = some key := forkable.keyed
  have elsewhere : fork.source ≠ fork.drawn_env := fun same => by
    rw [same, unused] at found
    cases found
  constructor
  next =>
    rintro ⟨result, after, ran, -, -⟩ claim held
    have again : stopped.names[(fork.again drawn_env drawn_session).name]? = some claim := held
    have resumable (same : claim.idempotency_key = some key) (default : ∀ item,
        (stopped.partition claim.env_id).env = some item → item.body.default_ref = DEFAULT_REF ∧ item.body.env_id = claim.env_id) :
        stopped.Resumable claim := resumable_of_success again keyed same default ran
    cases fork_stopped forkable unused leaves with
    | idle => cases forkable.free.symm.trans held
    | claimed =>
      obtain rfl := Option.some.inj ((with_claim_free forkable.free).symm.trans held)
      refine resumable rfl fun item there => ?_
      rw [show (world.with_claim _ _).partition _ = _ from unused] at there
      cases there
    | recorded record version named own default =>
      have free : world.names[record.name]? = none := named ▸ forkable.free
      obtain rfl := Option.some.inj ((named ▸ begun_held free).symm.trans held)
      refine resumable rfl fun item there => ?_
      rw [begun_partition] at there
      obtain rfl := Option.some.inj there
      exact ⟨default, own⟩
    | placed after placed =>
      obtain rfl := Option.some.inj (placed.held.symm.trans held)
      obtain ⟨item, there, default, own⟩ := placed.record
      refine resumable rfl fun other again => ?_
      obtain rfl := Option.some.inj (there.symm.trans again)
      exact ⟨default, own⟩
  next =>
    intro resumable
    cases fork_stopped forkable unused leaves with
    | idle => exact repeats_idle forkable fresh
    | claimed =>
      obtain ⟨⟨item, impossible⟩, -⟩ := resumable _ (with_claim_free forkable.free)
      rw [show (world.with_claim _ _).partition _ = _ from unused] at impossible
      cases impossible
    | recorded record version named own default => exact repeats_recorded forkable elsewhere rfl named own
    | placed after placed =>
      obtain ⟨ref, impossible⟩ := placed.ref
      cases (resumable _ placed.held).2.symm.trans impossible

end Again

/-! ## A fork of a branch -/

def sourceRecord : Environment where
  env_id := ⟨"env_source"⟩
  name := ⟨"org/source"⟩
  default_ref := DEFAULT_REF
  state := .active
  owner := "o"
  labels := []
  forked_from_env := none
  forked_from_commit := none
  created_at_us := 0

def sourceHead : Ref := ⟨DEFAULT_REF, firstCommitName, 1, .permanent, none, "o", 0⟩

/-- An environment whose main branch is at the first commit. -/
def sourceWorld : World :=
  World.with_partition { World.empty 0 with backend := {emptyTreeName, firstCommitName} } ⟨"env_source"⟩
    { Partition.empty with
      env := some ⟨sourceRecord, 1, none, none⟩
      refs := (∅ : Std.ExtTreeMap RefName (Item Ref)).insert DEFAULT_REF ⟨sourceHead, 1, some 1, none⟩ }

def keyedFork (drawn_env : EnvId) (drawn_session : SessionId) : Fork where
  source := ⟨"env_source"⟩
  name := ⟨"org/copy"⟩
  from_ref := none
  owner := ""
  principal := ""
  idempotency_key := some "k"
  drawn_env := drawn_env
  drawn_session := drawn_session

theorem source_unused {pk : EnvId} (other : pk ≠ ⟨"env_source"⟩) : sourceWorld.partition pk = .empty := by
  rw [sourceWorld, partition_with_of_ne _ _ other.symm]
  simp [World.partition, World.empty]

theorem source_walked : runs oneCommit (commit_closure firstCommitName) sourceWorld =
    (.ok [firstCommitName, emptyTreeName], sourceWorld) := by
  have found : (runs oneCommit (commit_closure firstCommitName) sourceWorld).1.toOption =
      some [firstCommitName, emptyTreeName] := by decide
  exact Prod.ext (Monads.toOption_ok.mp found) ((@commit_closure_yields oneCommit firstCommitName).run_still
    (answered oneCommit) (fun command now fits => exec_reads fits now) sourceWorld)

theorem source_forkable (drawn_env : EnvId) (drawn_session : SessionId) :
    (keyedFork drawn_env drawn_session).Forkable oneCommit sourceWorld "k" sourceHead [firstCommitName, emptyTreeName] := by
  have own : sourceWorld.partition ⟨"env_source"⟩ = _ := partition_with_self ..
  refine ⟨rfl, ⟨⟨sourceRecord, 1, none, none⟩, congrArg Partition.env own, ⟨sourceHead, 1, some 1, none⟩, ?_, rfl⟩,
    source_walked, by simp [sourceWorld, World.empty, World.with_partition]⟩
  rw [show (keyedFork drawn_env drawn_session).source = ⟨"env_source"⟩ from rfl, own]
  exact Std.ExtTreeMap.getElem?_insert_self

/-- The first attempt stops before it has done anything. -/
theorem fork_retry_exact_unstarted :
    (keyedFork ⟨"env_1"⟩ ⟨"s_1"⟩).Repeats oneCommit ((keyedFork ⟨"env_1"⟩ ⟨"s_1"⟩).again ⟨"env_2"⟩ ⟨"s_2"⟩) "k" sourceHead
        [firstCommitName, emptyTreeName] sourceWorld sourceWorld ↔
      ∀ claim, sourceWorld.names[(keyedFork ⟨"env_1"⟩ ⟨"s_1"⟩).name]? = some claim → sourceWorld.Resumable claim :=
  fork_retry_exact oneCommit sourceWorld sourceWorld (keyedFork ⟨"env_1"⟩ ⟨"s_1"⟩) ⟨"env_2"⟩ ⟨"s_2"⟩ "k" sourceHead
    [firstCommitName, emptyTreeName] (source_forkable _ _) (source_unused (by decide)) (source_unused (by decide)) ⟨0, rfl⟩

/-- The fork succeeds, and its repetition does not. -/
theorem fork_not_repeated :
    (runs oneCommit (keyedFork ⟨"env_1"⟩ ⟨"s_1"⟩).run sourceWorld).1.toBool = true ∧
      ¬ (keyedFork ⟨"env_1"⟩ ⟨"s_1"⟩).Repeats oneCommit (keyedFork ⟨"env_2"⟩ ⟨"s_2"⟩) "k" sourceHead
        [firstCommitName, emptyTreeName] sourceWorld (runs oneCommit (keyedFork ⟨"env_1"⟩ ⟨"s_1"⟩).run sourceWorld).2 := by
  constructor
  next => decide
  next =>
    rintro ⟨result, after, ran, -⟩
    have refused : (runs oneCommit (keyedFork ⟨"env_2"⟩ ⟨"s_2"⟩).run
      (runs oneCommit (keyedFork ⟨"env_1"⟩ ⟨"s_1"⟩).run sourceWorld).2).1.toBool = false := by decide
    rw [ran] at refused
    cases refused

end LedgerVcs
