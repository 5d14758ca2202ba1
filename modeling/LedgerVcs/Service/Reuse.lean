import LedgerVcs.Service.Republishing

set_option autoImplicit false

/-! One idempotency key, and two requests. -/

namespace LedgerVcs

open Prog (run_bind_ok)

/-! ## Keyed requests to an environment -/

/-- Commands of what assembles a tree: it reads objects, and puts objects. -/
def Assembling : Cmd → Prop
  | .now_us | .backend_exists _ | .backend_read _ | .backend_write _ | .catalog_record _ | .tombstone_clear _ => True
  | _ => False

/-- It knows nothing of keys. -/
structure Assembler (corpus : Corpus) where
  build : TreeBuilder
  builds : ∀ current, (build current).Yields Assembling (answers corpus) fun _ => True
  keyless : ∀ current world message, (runs corpus (build current) world).1 ≠ .error (.idempotencyMismatch message)

inductive KeyedOp (corpus : Corpus)
  | move (call : MoveCall)
  | publish (publication : Publication) (assembler : Assembler corpus)

namespace KeyedOp

variable {corpus : Corpus}

/-- The publication in the environment, under the key. -/
def keyed (env : EnvId) (key : String) (publication : Publication) : Publication :=
  { publication with env, idempotency_key := some key }

/-- The request's code, which returns whether it was replayed. -/
def code (env : EnvId) (key : String) : KeyedOp corpus → Act Bool
  | .move call => do
    let update ← call.code env (some key)
    return update.replayed
  | .publish publication assembler => do
    let result ← LedgerVcs.publish corpus (keyed env key publication) assembler.build
    return result.replayed

/-- The request comes as far as looking its key up, with this fingerprint. -/
def Asks (env : EnvId) (key : String) (world : World) (request : Request) : KeyedOp corpus → Prop
  | .move call => request = call.request ∧ call.Lives ∧
      ∀ name expected target principal change_id request kind,
        call = .update name expected target principal change_id request kind →
          ∃ row, (world.partition env).refs[name]? = some row ∧ call.Admits row.body
  | .publish publication assembler =>
      ∃ tree, (keyed env key publication).Builds corpus assembler.build world tree ∧ request = .commit publication.ref tree

/-- The session that the request draws has nothing recorded. -/
def Unused (env : EnvId) (world : World) : KeyedOp corpus → Prop
  | .move _ => True
  | .publish publication _ => (world.partition env).Sessionless publication.drawn_session

end KeyedOp

/-- Nothing but stored objects and upload sessions differs. -/
structure Unchanged (before after : World) : Prop where
  names : after.names = before.names
  keepset : after.keepset = before.keepset
  partitions : ∀ pk, SameRefs (before.partition pk) (after.partition pk)

/-- The request is refused for its key, and changes nothing. -/
def Detected {α : Type} (corpus : Corpus) (act : Act α) (world : World) : Prop :=
  ∃ message after, runs corpus act world = (.error (.idempotencyMismatch message), after) ∧ Unchanged world after

section Requests

variable {corpus : Corpus} {env : EnvId} {world after : World} {key : String}

theorem unchanged_self (world : World) : Unchanged world world := ⟨rfl, rfl, fun _ => sameRefs_self _⟩

theorem assembling_building (command : Cmd) (assembling : Assembling command) : Building command := by
  cases command with
  | transact_write | backend_delete => cases assembling
  | _ => trivial

def Assembler.builder (assembler : Assembler corpus) : Builder corpus :=
  ⟨assembler.build, fun current => (assembler.builds current).mono assembling_building fun _ _ => trivial⟩

theorem runs_assembling (assembler : Assembler corpus) (current : Option Ref) (world : World) :
    (runs corpus (assembler.build current) world).2.names = world.names ∧
      (runs corpus (assembler.build current) world).2.keepset = world.keepset := by
  refine (assembler.builds current).run_keeps (answered corpus)
    (I := fun now => now.names = world.names ∧ now.keepset = world.keepset) (fun command now fits same => ?_) ⟨rfl, rfl⟩
  cases command with
  | now_us | backend_exists | backend_read | backend_write | catalog_record | tombstone_clear => exact same
  | _ => cases fits

theorem leases_unchanged (leases : Leases env world after) : Unchanged world after := by
  refine ⟨by rw [leases.beside], by rw [leases.beside], fun pk => ?_⟩
  by_cases same : pk = env
  next => exact same ▸ leases.own
  next =>
    rw [leases.others pk same]
    exact sameRefs_self _

theorem unchanged_trans {middle : World} (early : Unchanged world middle) (late : Unchanged middle after) :
    Unchanged world after :=
  ⟨late.names.trans early.names, late.keepset.trans early.keepset,
    fun pk => sameRefs_trans (early.partitions pk) (late.partitions pk)⟩

/-! ## The first request -/

/-- What a request that went through leaves under its key. -/
theorem op_recorded {op : KeyedOp corpus} (ran : runs corpus (op.code env key) world = (.ok false, after)) :
    ∃ sk record asked, idem_sk key = .ok sk ∧ (after.partition env).recorded (some key) = some record ∧
      op.Asks env key world asked ∧ record.fingerprint = asked := by
  cases op with
  | move call =>
    obtain ⟨update, middle, moves, ran⟩ := runs_bind.mp ran
    have fresh : update.replayed = false := Except.ok.inj (congrArg Prod.fst ran)
    obtain rfl : middle = after := congrArg Prod.snd ran
    obtain ⟨lives, sk, record, valid, found, fits, -⟩ := move_recorded moves fresh
    refine ⟨sk, record, _, valid, found, ⟨rfl, lives, ?_⟩, fits⟩
    rintro name expected target principal change_id request kind rfl
    rw [MoveCall.code, runs_update_ref] at moves
    cases there : (world.partition env).refs[name]? with
    | none =>
      rw [there] at moves
      cases moves
    | some row =>
      simp only [there] at moves
      split at moves
      next => cases moves
      next untagged =>
        obtain ⟨lasts, -⟩ := mutate_ref_ran moves
        exact ⟨row, rfl, Bool.eq_false_iff.mpr untagged, lasts⟩
  | publish publication assembler =>
    obtain ⟨result, middle, published, ran⟩ := runs_bind.mp ran
    have fresh : result.replayed = false := Except.ok.inj (congrArg Prod.fst ran)
    obtain rfl : middle = after := congrArg Prod.snd ran
    obtain ⟨tree, sk, record, built, valid, found, fits⟩ :=
      @Publication.publish_recorded corpus (KeyedOp.keyed env key publication) world middle key assembler.builder result rfl
        published fresh
    exact ⟨sk, record, _, valid, found, ⟨tree, built, rfl⟩, fits⟩

/-! ## The second request -/

theorem detected_map {α β : Type} {act : Act α} {f : α → β} :
    Detected corpus (do let value ← act; return f value) world ↔ Detected corpus act world := by
  rcases ran : runs corpus act world with ⟨⟨error⟩ | ⟨value⟩, after⟩
  next =>
    rw [Detected, Detected, runs, Prog.run_bind_error ran, ran]
    simp only [Prod.mk.injEq, Except.error.injEq]
  next =>
    rw [Detected, Detected, runs, run_bind_ok _ ran, ran]
    simp

theorem mutation_detected {mutation : Mutation} {sk : SortKey} {record : IdempotencyRecord}
    (keyed : mutation.idempotency_key = some key) (valid : idem_sk key = .ok sk)
    (found : (world.partition env).recorded (some key) = some record) :
    Detected corpus (mutate_ref env mutation) world ↔
      ¬ mutation.Timeless world.clock ∧ record.fingerprint ≠ mutation.request := by
  rw [Detected, runs_mutate_recorded keyed valid found]
  by_cases timeless : mutation.Timeless world.clock
  next => simp [timeless]
  next =>
    by_cases fits : record.fingerprint = mutation.request
    next => cases (world.partition env).refs[mutation.name]? <;> simp [timeless, fits]
    next =>
      simp only [timeless, fits, if_false, not_false_eq_true, true_and, ne_eq]
      exact ⟨fun _ => trivial, fun _ => ⟨_, _, rfl, unchanged_self world⟩⟩

theorem move_detected {call : MoveCall} {sk : SortKey} {record : IdempotencyRecord} (valid : idem_sk key = .ok sk)
    (found : (world.partition env).recorded (some key) = some record) :
    Detected corpus (call.code env (some key)) world ↔
      ∃ asked, KeyedOp.Asks env key world asked (.move call : KeyedOp corpus) ∧ record.fingerprint ≠ asked := by
  cases call with
  | create name target principal lifecycle ttl_us change_id request =>
    refine (@mutation_detected corpus env world key (create_mutation name target principal lifecycle ttl_us change_id (some key)
      request) sk record rfl valid found).trans ?_
    rw [create_timeless]
    constructor
    next =>
      rintro ⟨lives, differ⟩
      exact ⟨_, ⟨rfl, lives, fun _ _ _ _ _ _ _ impossible => by cases impossible⟩, differ⟩
    next =>
      rintro ⟨asked, ⟨rfl, lives, -⟩, differ⟩
      exact ⟨lives, differ⟩
  | update name expected target principal change_id request kind =>
    rw [Detected, MoveCall.code, runs_update_ref]
    cases there : (world.partition env).refs[name]? with
    | none =>
      refine ⟨(by rintro ⟨_, _, ran, _⟩; cases ran), ?_⟩
      rintro ⟨asked, ⟨-, -, reads⟩, -⟩
      obtain ⟨row, impossible, -⟩ := reads _ _ _ _ _ _ _ rfl
      cases there.symm.trans impossible
    | some row =>
      have only {other : Item Ref} (again : (world.partition env).refs[name]? = some other) : other = row :=
        Option.some.inj (again.symm.trans there)
      by_cases tag : row.body.name.is_tag
      next =>
        simp only [tag, if_true]
        refine ⟨(by rintro ⟨_, _, ran, _⟩; cases ran), ?_⟩
        rintro ⟨asked, ⟨-, -, reads⟩, -⟩
        obtain ⟨other, again, untagged, -⟩ := reads _ _ _ _ _ _ _ rfl
        rw [only again, tag] at untagged
        cases untagged
      next =>
        simp only [tag]
        refine (@mutation_detected corpus env world key (update_mutation name expected target principal change_id (some key)
          request kind row.body) sk record rfl valid found).trans ?_
        constructor
        next =>
          rintro ⟨lasts, differ⟩
          refine ⟨_, ⟨rfl, trivial, ?_⟩, differ⟩
          rintro _ _ _ _ _ _ _ ⟨⟩
          exact ⟨row, there, Bool.eq_false_iff.mpr tag, lasts⟩
        next =>
          rintro ⟨asked, ⟨rfl, -, reads⟩, differ⟩
          obtain ⟨other, again, -, lasts⟩ := reads _ _ _ _ _ _ _ rfl
          rw [only again] at lasts
          exact ⟨lasts, differ⟩

/-- A body that finds its key recorded changes nothing. -/
theorem body_unchanged {publication : Publication} {assembler : Assembler corpus} {current : Option Ref}
    {session : SessionId} {sk : SortKey} {record : IdempotencyRecord} (keyed : publication.idempotency_key = some key)
    (valid : idem_sk key = .ok sk) (found : (world.partition publication.env).recorded (some key) = some record) :
    Unchanged world (runs corpus (publication.body corpus assembler.build current session) world).2 := by
  have body := @Publication.runs_body_recorded corpus publication world key assembler.builder current session record sk keyed
    valid found
  have keeps := @Publication.body_keeps corpus publication world key assembler.builder current session record sk keyed valid
    found
  obtain ⟨names, keepset⟩ := runs_assembling assembler current world
  have same : (runs corpus (publication.body corpus assembler.build current session) world).2 =
      (runs corpus (assembler.build current) world).2 := by
    rw [show assembler.build = assembler.builder.build from rfl, body]
    rcases runs corpus (assembler.builder.build current) world with ⟨⟨error⟩ | ⟨tree, stats⟩, built⟩
    next => rfl
    next =>
      dsimp only
      split
      next => cases (world.partition publication.env).refs[publication.ref]? <;> rfl
      next => rfl
  exact ⟨same ▸ names, same ▸ keepset, fun pk => keeps pk ▸ sameRefs_self _⟩

theorem publish_detected {publication : Publication} {assembler : Assembler corpus} {sk : SortKey}
    {record : IdempotencyRecord} (keyed : publication.idempotency_key = some key) (valid : idem_sk key = .ok sk)
    (found : (world.partition publication.env).recorded (some key) = some record)
    (fresh : (world.partition publication.env).Sessionless publication.drawn_session) :
    Detected corpus (publish corpus publication assembler.build) world ↔
      ∃ tree, publication.Builds corpus assembler.build world tree ∧ record.fingerprint ≠ .commit publication.ref tree := by
  obtain ⟨after, ran, leases⟩ := @Publication.runs_publish corpus publication world assembler.build fresh
  have opens := @Publication.opened_leases corpus publication world
  have recorded := (leases_recorded opens (some key)).trans found
  have kept : Unchanged world after := unchanged_trans (leases_unchanged opens)
    (unchanged_trans (body_unchanged keyed valid recorded) (leases_unchanged leases))
  have body := @Publication.runs_body_recorded corpus publication _ key assembler.builder
    (((world.partition publication.env).refs[publication.ref]?).map Item.body) publication.drawn_session record sk keyed valid
    recorded
  have comes {outcome : Except PyError CommitResult} (done : (runs corpus (publication.body corpus assembler.builder.build
      (((world.partition publication.env).refs[publication.ref]?).map Item.body) publication.drawn_session)
        (publication.opened corpus world)).1 = outcome) :
      Detected corpus (publish corpus publication assembler.build) world ↔
        ∃ message, outcome = .error (.idempotencyMismatch message) := by
    rw [Detected, ran, show assembler.build = assembler.builder.build from rfl, done]
    constructor
    next =>
      rintro ⟨message, _, ⟨⟩, -⟩
      exact ⟨message, rfl⟩
    next =>
      rintro ⟨message, rfl⟩
      exact ⟨message, after, rfl, kept⟩
  rcases built : runs corpus (assembler.builder.build (((world.partition publication.env).refs[publication.ref]?).map Item.body))
    (publication.opened corpus world) with ⟨⟨error⟩ | ⟨tree, stats⟩, assembled⟩
  next =>
    rw [built] at body
    rw [comes (congrArg Prod.fst body)]
    constructor
    next =>
      rintro ⟨message, refused⟩
      cases refused
      exact absurd (congrArg Prod.fst built) (assembler.keyless _ _ message)
    next =>
      rintro ⟨tree, ⟨stats, other, builds⟩, -⟩
      cases built.symm.trans builds
  next =>
    have only {other : ObjectName} (builds : publication.Builds corpus assembler.build world other) : other = tree := by
      obtain ⟨_, _, builds⟩ := builds
      cases built.symm.trans builds
      rfl
    rw [built] at body
    rw [comes (congrArg Prod.fst body)]
    by_cases fits : record.fingerprint = .commit publication.ref tree
    next =>
      simp only [fits, if_true]
      constructor
      next =>
        rintro ⟨message, refused⟩
        split at refused <;> cases refused
      next =>
        rintro ⟨other, builds, differ⟩
        rw [only builds] at differ
        exact absurd rfl differ
    next =>
      simp only [fits, if_false]
      exact iff_of_true ⟨_, rfl⟩ ⟨tree, ⟨stats, assembled, built⟩, fits⟩

/-- A request under a recorded key is refused exactly if it comes as far as the record, with another fingerprint. -/
theorem op_detected {op : KeyedOp corpus} {sk : SortKey} {record : IdempotencyRecord} (valid : idem_sk key = .ok sk)
    (found : (world.partition env).recorded (some key) = some record) (unused : op.Unused env world) :
    Detected corpus (op.code env key) world ↔ ∃ asked, op.Asks env key world asked ∧ record.fingerprint ≠ asked := by
  cases op with
  | move call => exact detected_map.trans (move_detected valid found)
  | publish publication assembler =>
    have published := @publish_detected corpus world key (KeyedOp.keyed env key publication) assembler sk record rfl valid
      found unused
    refine (detected_map.trans published).trans ⟨?_, ?_⟩
    next =>
      rintro ⟨tree, builds, differ⟩
      exact ⟨_, ⟨tree, builds, rfl⟩, differ⟩
    next =>
      rintro ⟨_, ⟨tree, builds, rfl⟩, differ⟩
      exact ⟨tree, builds, differ⟩

theorem asks_unique {op : KeyedOp corpus} {asked other : Request} (asks : op.Asks env key world asked)
    (again : op.Asks env key world other) : asked = other := by
  cases op with
  | move call => exact asks.1.trans again.1.symm
  | publish publication assembler =>
    obtain ⟨tree, ⟨_, _, builds⟩, rfl⟩ := asks
    obtain ⟨same, ⟨_, _, rebuilds⟩, rfl⟩ := again
    cases builds.symm.trans rebuilds
    rfl

theorem create_env_undetected {drawn : EnvId} (unused : world.Unused drawn) (name : EnvName) (owner : String)
    (default_ref : RefName) (labels : List (String × String)) :
    ¬ Detected corpus (create_env drawn name owner default_ref labels (some key)) world := by
  rintro ⟨message, after, ran, -⟩
  cases held : world.names[name]? with
  | none =>
    rw [runs_create_free held unused] at ran
    cases ran
  | some claim =>
    rw [runs_create_taken held] at ran
    split at ran
    next => cases found : (world.partition claim.env_id).env <;> (rw [found] at ran; cases ran)
    next => cases ran

end Requests

/-- Once the first request has gone through under a key, a second one under the key is refused for it exactly if both have
a fingerprint and these differ; a creation of an environment never is. -/
theorem key_reuse_exact (corpus : Corpus) (env : EnvId) (key : String) :
    (∀ (first second : KeyedOp corpus) (start committed later : World),
      runs corpus (first.code env key) start = (.ok false, committed) →
      (committed.partition env).Extends (later.partition env) → second.Unused env later →
        (Detected corpus (second.code env key) later ↔
          ∃ asked other, first.Asks env key start asked ∧ second.Asks env key later other ∧ asked ≠ other)) ∧
      ∀ (drawn : EnvId) (name : EnvName) (owner : String) (default_ref : RefName) (labels : List (String × String))
        (world : World), world.Unused drawn →
          ¬ Detected corpus (create_env drawn name owner default_ref labels (some key)) world := by
  constructor
  next =>
    intro first second start committed later ran extends_to unused
    obtain ⟨sk, record, asked, valid, found, asks, fits⟩ := op_recorded ran
    rw [op_detected valid (extends_to.records key record found) unused, fits]
    constructor
    next =>
      rintro ⟨other, again, differ⟩
      exact ⟨asked, other, asks, again, differ⟩
    next =>
      rintro ⟨same, other, asks', again, differ⟩
      exact ⟨other, again, asks_unique asks asks' ▸ differ⟩
  next => exact fun drawn name owner default_ref labels world unused =>
    create_env_undetected unused name owner default_ref labels

/-! ## A ref created under a key -/

def mainCreatedElsewhere : MoveCall := .create DEFAULT_REF movedTarget "a" .permanent none none none

def mainCreatedForAnHour : MoveCall := .create DEFAULT_REF firstTarget "a" .ephemeral (some 3600000000) none none

theorem main_keyed :
    runs .none (KeyedOp.code ⟨"env"⟩ "k" (.move mainCreated : KeyedOp .none)) newEnv = (.ok false, keyedMain) :=
  run_bind_ok _ main_created

theorem key_reuse_exact_elsewhere :
    (Detected .none (KeyedOp.code ⟨"env"⟩ "k" (.move mainCreatedElsewhere : KeyedOp .none)) keyedMain ↔
      ∃ asked other, KeyedOp.Asks ⟨"env"⟩ "k" newEnv asked (.move mainCreated : KeyedOp .none) ∧
        KeyedOp.Asks ⟨"env"⟩ "k" keyedMain other (.move mainCreatedElsewhere : KeyedOp .none) ∧ asked ≠ other) ∧
      ¬ Detected .none (create_env ⟨"env_1"⟩ ⟨"org/a"⟩ "owner" DEFAULT_REF [] (some "k")) (.empty 0) :=
  ⟨(key_reuse_exact .none ⟨"env"⟩ "k").1 (.move mainCreated) (.move mainCreatedElsewhere) newEnv keyedMain keyedMain main_keyed
      (extends_self _) trivial,
    (key_reuse_exact .none ⟨"env"⟩ "k").2 ⟨"env_1"⟩ ⟨"org/a"⟩ "owner" DEFAULT_REF [] (.empty 0) (empty_unused 0 _)⟩

/-- Under the key of a permanent ref, an ephemeral one is acknowledged. -/
theorem other_lifecycle_acknowledged :
    runs .none (KeyedOp.code ⟨"env"⟩ "k" (.move mainCreated : KeyedOp .none)) newEnv = (.ok false, keyedMain) ∧
      ¬ Detected .none (KeyedOp.code ⟨"env"⟩ "k" (.move mainCreatedForAnHour : KeyedOp .none)) keyedMain := by
  refine ⟨main_keyed, ?_⟩
  rintro ⟨message, after, ran, -⟩
  have told : (runs .none (KeyedOp.code ⟨"env"⟩ "k" (.move mainCreatedForAnHour : KeyedOp .none)) keyedMain).1 = .ok true := by
    decide
  rw [ran] at told
  cases told

end LedgerVcs
