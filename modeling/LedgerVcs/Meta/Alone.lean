import LedgerVcs.Lib.Interrupted
import LedgerVcs.Meta.Transactions

set_option autoImplicit false

/-! What the repository's operations come to when nothing else goes on. -/

namespace LedgerVcs

open Prog (ofExcept run_bind_ok)

/-- The key's record, if there is a key. -/
def Partition.recorded (partition : Partition) (key : Option String) : Option IdempotencyRecord :=
  key.bind fun text => (partition.idems[text]?).map Item.body

/-- What the key's record is written with. -/
def Outcomes (key : Option String) (request : Request) (outcome : Outcome) (sequence : Nat)
    (recording : List WriteOp) : Prop :=
  match key with
  | none => recording = []
  | some text =>
    ∃ expires_at_us created_at_us, recording = [.put (.idem text)
      { key := text, fingerprint := request, outcome, op_sequence := sequence, expires_at_us, created_at_us }
      (some .absent) none (some expires_at_us)]

section Alone

variable {corpus : Corpus} {env : EnvId} {world after : World}

theorem runs_bind {α β : Type} {act : Act α} {rest : α → Act β} {value : β} :
    runs corpus (act >>= rest) world = (.ok value, after) ↔
      ∃ first middle, runs corpus act world = (.ok first, middle) ∧ runs corpus (rest first) middle = (.ok value, after) :=
  Prog.run_bind_eq_ok

theorem issue_ran {command : Cmd} {response : command.Response}
    (ran : runs corpus (issue command) world = (.ok response, after)) : exec corpus command world = (response, after) := by
  cases ran
  rfl

theorem ofExcept_ran {α : Type} {outcome : Except PyError α} {value : α}
    (ran : runs corpus (ofExcept outcome) world = (.ok value, after)) : outcome = .ok value ∧ world = after := by
  rw [runs, Prog.run_ofExcept] at ran
  exact Prod.ext_iff.mp ran

theorem transact_ran {writes : List WriteOp} (ran : runs corpus (transact env writes) world = (.ok (), after)) :
    ∃ final, (world.partition env).transact_write writes = .ok final ∧ after = world.with_partition env final := by
  obtain ⟨response, middle, issued, ran⟩ := runs_bind.mp ran
  have taken := issue_ran issued
  obtain ⟨rfl, rfl⟩ := ofExcept_ran ran
  cases applied : (world.partition env).transact_write writes with
  | error error =>
    simp only [exec, applied] at taken
    cases taken
  | ok final =>
    simp only [exec, applied] at taken
    cases taken
    exact ⟨final, rfl, rfl⟩

theorem runs_transact {writes : List WriteOp} {final : Partition}
    (applied : (world.partition env).transact_write writes = .ok final) :
    runs corpus (transact env writes) world = (.ok (), world.with_partition env final) := by
  have issued : runs corpus (issue (.transact_write env writes)) world =
      (.ok (.ok ()), world.with_partition env final) := by
    rw [runs_issue]
    simp only [exec, applied]
  rw [transact, runs, run_bind_ok _ issued]
  rfl

/-! ## The key's record -/

theorem recorded_outcome_ran {key : String} {request : Request} {recorded : Option IdempotencyRecord}
    (ran : runs corpus (recorded_outcome env key request) world = (.ok recorded, after)) :
    world = after ∧ recorded = (world.partition env).recorded (some key) ∧
      ∀ record, recorded = some record → record.fingerprint = request := by
  obtain ⟨valid, middle, checked, ran⟩ := runs_bind.mp ran
  obtain ⟨-, rfl⟩ := ofExcept_ran checked
  obtain ⟨response, middle, issued, ran⟩ := runs_bind.mp ran
  cases issue_ran issued
  cases found : (world.partition env).idems[key]? with
  | none =>
    simp only [Partition.get, found] at ran
    cases ran
    exact ⟨rfl, by simp [Partition.recorded, found], fun _ impossible => by cases impossible⟩
  | some item =>
    simp only [Partition.get, found] at ran
    split at ran
    next same =>
      cases ran
      exact ⟨rfl, by simp [Partition.recorded, found], fun record this => Option.some.inj this ▸ same⟩
    next => cases ran

theorem runs_recorded {key : String} {request : Request} {record : IdempotencyRecord} {sk : SortKey}
    (valid : idem_sk key = .ok sk) (found : (world.partition env).recorded (some key) = some record) :
    runs corpus (recorded_outcome env key request) world =
      if record.fingerprint = request then (.ok (some record), world)
      else (.error (.idempotencyMismatch "idempotency key was reused with a different request"), world) := by
  obtain ⟨item, there, rfl⟩ := Option.map_eq_some_iff.mp found
  have issued : runs corpus (issue (.meta_get env (.idem key))) world = (.ok (some item), world) := by
    rw [← there]
    rfl
  have checked : runs corpus (ofExcept (idem_sk key)) world = (.ok sk, world) := by
    rw [runs, Prog.run_ofExcept, valid]
  rw [recorded_outcome, runs, run_bind_ok _ checked, run_bind_ok _ issued]
  dsimp only
  split
  next => rfl
  next => rfl

theorem replay_ran {key : String} {request : Request} {recorded : Option Nat}
    (ran : runs corpus (replay env key request) world = (.ok recorded, after)) :
    world = after ∧ recorded = ((world.partition env).recorded (some key)).map IdempotencyRecord.op_sequence ∧
      ∀ record, (world.partition env).recorded (some key) = some record → record.fingerprint = request := by
  obtain ⟨found, middle, looked, ran⟩ := runs_bind.mp ran
  obtain ⟨rfl, rfl, fits⟩ := recorded_outcome_ran looked
  cases ran
  exact ⟨rfl, rfl, fits⟩

/-! ## The commit path -/

theorem next_sequence_ran {sequence version : Nat}
    (ran : runs corpus (next_sequence env) world = (.ok (sequence, version), after)) :
    world = after ∧ ∃ counter, (world.partition env).seq = some counter ∧ counter.body = sequence ∧
      counter.version = version := by
  obtain ⟨response, middle, issued, ran⟩ := runs_bind.mp ran
  cases issue_ran issued
  cases found : (world.partition env).seq with
  | none =>
    simp only [Partition.get, found] at ran
    cases ran
  | some counter =>
    simp only [Partition.get, found] at ran
    cases ran
    exact ⟨rfl, counter, rfl, rfl, rfl⟩

theorem idempotency_write_ran {key : String} {request : Request} {outcome : Outcome} {sequence : Nat} {write : WriteOp}
    (ran : runs corpus (idempotency_write key request outcome sequence) world = (.ok write, after)) :
    world = after ∧ (∃ sk, idem_sk key = .ok sk) ∧ Outcomes (some key) request outcome sequence [write] := by
  obtain ⟨written, middle, issued, ran⟩ := runs_bind.mp ran
  cases issued
  obtain ⟨created, middle, issued, ran⟩ := runs_bind.mp ran
  cases issued
  obtain ⟨valid, middle, checked, ran⟩ := runs_bind.mp ran
  obtain ⟨fits, rfl⟩ := ofExcept_ran checked
  cases ran
  exact ⟨rfl, ⟨valid, fits⟩, _, _, rfl⟩

/-- What a commit under a key that has no record yet comes to. -/
structure Committed (corpus : Corpus) (env : EnvId) (build : Nat → Nat → Act (List WriteOp)) (key : Option String)
    (request : Request) (outcome : Outcome) (world : World) (sequence : Nat) (after : World) : Prop where
  valid : ∀ text, key = some text → ∃ sk, idem_sk text = .ok sk
  applied : ∃ counter built recording final, (world.partition env).seq = some counter ∧ counter.body = sequence ∧
    runs corpus (build counter.body counter.version) world = (.ok built, world) ∧
    Outcomes key request outcome sequence recording ∧
    (world.partition env).transact_write (built ++ recording) = .ok final ∧ after = world.with_partition env final

theorem commit_attempts_ran {build : Nat → Nat → Act (List WriteOp)} {key : Option String} {request : Request}
    {outcome : Outcome} {retries sequence : Nat} {replayed : Bool}
    (reads : ∀ sequence version, (runs corpus (build sequence version) world).2 = world)
    (missing : (world.partition env).recorded key = none)
    (ran : runs corpus (commit_attempts env build key request outcome retries) world = (.ok (sequence, replayed), after)) :
    replayed = false ∧ Committed corpus env build key request outcome world sequence after := by
  induction retries with
  | zero => cases ran
  | succ retries ih =>
    obtain ⟨⟨number, version⟩, middle, first, ran⟩ := runs_bind.mp ran
    obtain ⟨rfl, counter, found, rfl, rfl⟩ := next_sequence_ran first
    obtain ⟨built, middle, second, ran⟩ := runs_bind.mp ran
    obtain rfl : world = middle := by
      have same := reads counter.body counter.version
      rw [second] at same
      exact same.symm
    -- The writes of the key's record, if there is a key, come in one of two ways and go on as one.
    revert ran
    extract_lets settle
    have rest (recording : List WriteOp) (valid : ∀ text, key = some text → ∃ sk, idem_sk text = .ok sk)
        (written : Outcomes key request outcome counter.body recording)
        (ran : runs corpus (settle recording) world = (.ok (sequence, replayed), after)) :
        replayed = false ∧ Committed corpus env build key request outcome world sequence after := by
      obtain ⟨response, last, issued, ran⟩ := runs_bind.mp ran
      have taken := issue_ran issued
      cases applied : (world.partition env).transact_write (built ++ recording) with
      | ok final =>
        simp only [exec, applied] at taken
        cases taken
        cases ran
        exact ⟨rfl, valid, counter, built, recording, final, found, rfl, second, written, applied, rfl⟩
      | error error =>
        simp only [exec, applied] at taken
        cases taken
        cases error with
        | conflict message sk =>
          dsimp only at ran
          split at ran
          next => exact ih ran
          next =>
            cases key with
            | none => cases ran
            | some text =>
              obtain ⟨again, last, looked, ran⟩ := runs_bind.mp ran
              obtain ⟨rfl, rfl, -⟩ := replay_ran looked
              rw [missing] at ran
              cases ran
        | _ => cases ran
    clear_value settle
    intro ran
    cases key with
    | none => exact rest [] (fun _ impossible => by cases impossible) rfl ran
    | some text =>
      obtain ⟨write, middle, wrote, ran⟩ := runs_bind.mp ran
      obtain ⟨rfl, valid, written⟩ := idempotency_write_ran wrote
      exact rest [write] (fun other same => Option.some.inj same ▸ valid) written ran

theorem commit_with_counter_ran {build : Nat → Nat → Act (List WriteOp)} {key : Option String} {request : Request}
    {outcome : Outcome} {sequence : Nat} {replayed : Bool}
    (reads : ∀ sequence version, (runs corpus (build sequence version) world).2 = world)
    (ran : runs corpus (commit_with_counter env build key request outcome) world = (.ok (sequence, replayed), after)) :
    (replayed = true ∧ world = after ∧ ∃ record, (world.partition env).recorded key = some record ∧
        record.fingerprint = request ∧ record.op_sequence = sequence) ∨
      (replayed = false ∧ (world.partition env).recorded key = none ∧
        Committed corpus env build key request outcome world sequence after) := by
  cases key with
  | none =>
    obtain ⟨fresh, committed⟩ := commit_attempts_ran reads rfl ran
    exact .inr ⟨fresh, rfl, committed⟩
  | some text =>
    obtain ⟨recorded, middle, looked, ran⟩ := runs_bind.mp ran
    obtain ⟨rfl, rfl, fits⟩ := replay_ran looked
    cases found : (world.partition env).recorded (some text) with
    | none =>
      rw [found] at ran
      obtain ⟨fresh, committed⟩ := commit_attempts_ran reads found ran
      exact .inr ⟨fresh, rfl, committed⟩
    | some record =>
      rw [found] at ran
      cases ran
      exact .inl ⟨rfl, rfl, record, rfl, fits record found, rfl⟩

theorem runs_replayed {build : Nat → Nat → Act (List WriteOp)} {key : String} {request : Request} {outcome : Outcome}
    {sk : SortKey} {record : IdempotencyRecord} (valid : idem_sk key = .ok sk)
    (found : (world.partition env).recorded (some key) = some record) :
    runs corpus (commit_with_counter env build (some key) request outcome) world =
      if record.fingerprint = request then (.ok (record.op_sequence, true), world)
      else (.error (.idempotencyMismatch "idempotency key was reused with a different request"), world) := by
  have looked := @runs_recorded corpus env world key request record sk valid found
  by_cases same : record.fingerprint = request
  next =>
    rw [if_pos same] at looked ⊢
    have replayed : runs corpus (replay env key request) world = (.ok (some record.op_sequence), world) := by
      rw [replay, runs, run_bind_ok _ looked]
      rfl
    rw [commit_with_counter, runs, run_bind_ok _ replayed]
    rfl
  next =>
    rw [if_neg same] at looked ⊢
    exact Prog.run_bind_error (Prog.run_bind_error looked _) _

/-- The commit's record, as it is left under its key. -/
theorem committed_recorded {build : Nat → Nat → Act (List WriteOp)} {key : String} {request : Request}
    {outcome : Outcome} {sequence : Nat}
    (committed : Committed corpus env build (some key) request outcome world sequence after) :
    ∃ record, (after.partition env).recorded (some key) = some record ∧ record.fingerprint = request ∧
      record.op_sequence = sequence := by
  obtain ⟨counter, built, recording, final, -, -, -, ⟨expires_at_us, created_at_us, rfl⟩, applied, rfl⟩ := committed.applied
  obtain ⟨middle, -, last⟩ := transact_append.mp applied
  obtain ⟨written, put, done⟩ := transact_ok.mp last
  obtain ⟨-, rfl⟩ := apply_put.mp put
  cases done
  exact ⟨_, by simp [Partition.recorded, Partition.put]; rfl, rfl, rfl⟩

theorem committed_valid {build : Nat → Nat → Act (List WriteOp)} {key : String} {request : Request}
    {outcome : Outcome} {sequence : Nat}
    (committed : Committed corpus env build (some key) request outcome world sequence after) :
    ∃ sk, idem_sk key = .ok sk := committed.valid key rfl

theorem outcomes_accessory {key : Option String} {request : Request} {outcome : Outcome} {sequence : Nat}
    {recording : List WriteOp} (written : Outcomes key request outcome sequence recording) :
    ∀ write ∈ recording, Accessory write := by
  intro write member
  cases key with
  | none =>
    rw [show recording = [] from written] at member
    cases member
  | some text =>
    obtain ⟨expires_at_us, created_at_us, rfl⟩ := written
    rw [List.mem_singleton.mp member]
    trivial

theorem committed_move {build : Nat → Nat → Act (List WriteOp)} {key : Option String} {request : Request}
    {outcome : Outcome} {sequence : Nat} {move : Nat → Nat → Move}
    (builds : ∀ sequence version, ∃ built, runs corpus (build sequence version) world = (.ok built, world) ∧
      Carries (move sequence version) built)
    (committed : Committed corpus env build key request outcome world sequence after) :
    ∃ version writes final, Carries (move sequence version) writes ∧
      (world.partition env).transact_write writes = .ok final ∧ after = world.with_partition env final := by
  obtain ⟨counter, built, recording, final, -, rfl, ran, written, applied, rfl⟩ := committed.applied
  obtain ⟨other, again, carries⟩ := builds counter.body counter.version
  rw [ran] at again
  cases again
  exact ⟨counter.version, _, final, carries_append carries (outcomes_accessory written), applied, rfl⟩

/-! ## Moving a ref -/

/-- When the ref that the mutation puts expires. -/
def Mutation.expiry (mutation : Mutation) (now : Int) : Option Int :=
  match mutation.ttl_us with
  | none => mutation.keep_expiry
  | some ttl_us => some (now + ttl_us)

/-- The ref that the mutation puts. -/
def Mutation.ref (mutation : Mutation) (now : Int) : Ref where
  name := mutation.name
  target := mutation.target
  generation := mutation.generation
  lifecycle := mutation.lifecycle
  expires_at_us := mutation.expiry now
  updated_by := mutation.principal
  updated_at_us := now

/-- The ref could not live. -/
def Mutation.Timeless (mutation : Mutation) (now : Int) : Prop :=
  mutation.lifecycle = .ephemeral ∧ mutation.expiry now = none

instance (mutation : Mutation) (now : Int) : Decidable (mutation.Timeless now) :=
  inferInstanceAs (Decidable (mutation.lifecycle = .ephemeral ∧ mutation.expiry now = none))

def Mutation.move (mutation : Mutation) (now : Int) (sequence version : Nat) : Move where
  name := mutation.name
  placed := some (mutation.ref now)
  condition := mutation.condition
  sequence := sequence
  version := version
  entry :=
    { sequence, kind := mutation.kind, ref := some mutation.name, before := mutation.before,
      after := some mutation.target, principal := mutation.principal, at_us := now }

theorem change_write_runs (change : ChangeId) (commit : ObjectName) :
    ∃ commits, runs corpus (change_write env change commit) world =
      (.ok (.put (.change change) ⟨change, commits⟩ none none none), world) := ⟨_, rfl⟩

theorem build_runs (mutation : Mutation) (now : Int) (sequence version : Nat) :
    ∃ built, runs corpus (mutation.build env (mutation.ref now) now sequence version) world = (.ok built, world) ∧
      Carries (mutation.move now sequence version) built := by
  let emitted : WriteOp := .emit (.ref_updated mutation.name mutation.before mutation.target mutation.generation sequence)
  have carries (changed : List WriteOp) (accessories : ∀ write ∈ changed, Accessory write) :
      Carries (mutation.move now sequence version)
        ((mutation.move now sequence version).write :: counter_writes sequence version ++
          [op_write (mutation.move now sequence version).entry] ++ changed ++ [emitted]) := by
    refine ⟨rfl, rfl, rfl, changed ++ [emitted], fun write member => ?_, by simp [Mutation.move, counter_writes]⟩
    rcases List.mem_append.mp member with before | last
    next => exact accessories write before
    next => rw [List.mem_singleton.mp last]; trivial
  cases change : mutation.change_id with
  | none =>
    refine ⟨_, ?_, carries [] fun _ member => absurd member List.not_mem_nil⟩
    simp only [Mutation.build, change]
    rfl
  | some id =>
    obtain ⟨commits, written⟩ := @change_write_runs corpus env world id mutation.target
    refine ⟨_, ?_, carries [.put (.change id) ⟨id, commits⟩ none none none] fun other member =>
      List.mem_singleton.mp member ▸ trivial⟩
    simp only [Mutation.build, change]
    rw [runs, run_bind_ok _ written]
    rfl

theorem build_reads (mutation : Mutation) (now : Int) (sequence version : Nat) :
    (runs corpus (mutation.build env (mutation.ref now) now sequence version) world).2 = world := by
  obtain ⟨built, returned, -⟩ := @build_runs corpus env world mutation now sequence version
  rw [returned]

/-- The commit that a mutation makes. -/
abbrev Mutation.Commits (corpus : Corpus) (env : EnvId) (mutation : Mutation) (world : World) (sequence : Nat)
    (after : World) : Prop :=
  Committed corpus env (mutation.build env (mutation.ref world.clock) world.clock) mutation.idempotency_key
    mutation.request (.moved mutation.target mutation.generation) world sequence after

theorem get_ref_ran {name : RefName} {ref : Ref} (ran : runs corpus (get_ref env name) world = (.ok ref, after)) :
    world = after ∧ ∃ row, (world.partition env).refs[name]? = some row ∧ row.body = ref := by
  obtain ⟨response, middle, issued, ran⟩ := runs_bind.mp ran
  cases issue_ran issued
  cases found : (world.partition env).refs[name]? with
  | none =>
    simp only [Partition.get, found] at ran
    cases ran
  | some row =>
    simp only [Partition.get, found] at ran
    cases ran
    exact ⟨rfl, row, rfl, rfl⟩

theorem runs_get_ref (name : RefName) :
    runs corpus (get_ref env name) world =
      match (world.partition env).refs[name]? with
      | some row => (.ok row.body, world)
      | none => (.error (.notFound "ref does not exist"), world) := by
  have issued : runs corpus (issue (.meta_get env (.ref name))) world = (.ok (world.partition env).refs[name]?, world) := rfl
  rw [get_ref, runs, run_bind_ok _ issued]
  cases (world.partition env).refs[name]? <;> rfl

theorem mutate_ref_ran {mutation : Mutation} {update : RefUpdate}
    (ran : runs corpus (mutate_ref env mutation) world = (.ok update, after)) :
    ¬ mutation.Timeless world.clock ∧
      ((update.replayed = true ∧ world = after ∧
          (∃ record, (world.partition env).recorded mutation.idempotency_key = some record ∧
            record.fingerprint = mutation.request ∧ record.op_sequence = update.op_sequence) ∧
          ∃ row, (world.partition env).refs[mutation.name]? = some row ∧ row.body = update.ref) ∨
        (update.replayed = false ∧ update.ref = mutation.ref world.clock ∧
          (world.partition env).recorded mutation.idempotency_key = none ∧
          mutation.Commits corpus env world update.op_sequence after)) := by
  obtain ⟨now, middle, issued, ran⟩ := runs_bind.mp ran
  cases issue_ran issued
  obtain ⟨⟨⟩, middle, checked, ran⟩ := runs_bind.mp ran
  obtain ⟨lives, rfl⟩ := ofExcept_ran checked
  obtain ⟨⟨sequence, replayed⟩, middle, handled, ran⟩ := runs_bind.mp ran
  rw [ensure_ok] at lives
  refine ⟨lives, ?_⟩
  have outcome := Prog.run_handling_ok (fun error now returned => ?_) handled
  next =>
    rcases commit_with_counter_ran (build_reads mutation world.clock) outcome with
      ⟨rfl, rfl, record, found, fits, numbered⟩ | ⟨rfl, missing, committed⟩
    next =>
      obtain ⟨ref, middle, read, ran⟩ := runs_bind.mp ran
      obtain ⟨rfl, row, there, rfl⟩ := get_ref_ran read
      cases ran
      exact .inl ⟨rfl, rfl, ⟨record, found, fits, numbered⟩, row, there, rfl⟩
    next =>
      cases ran
      exact .inr ⟨rfl, rfl, missing, committed⟩
  next => cases error <;> exact fun impossible => by cases impossible

theorem runs_mutate_recorded {mutation : Mutation} {key : String} {sk : SortKey} {record : IdempotencyRecord}
    (keyed : mutation.idempotency_key = some key) (valid : idem_sk key = .ok sk)
    (found : (world.partition env).recorded (some key) = some record) :
    runs corpus (mutate_ref env mutation) world =
      if mutation.Timeless world.clock then (.error (.invalidRequest "an ephemeral ref requires a time to live"), world)
      else if record.fingerprint = mutation.request then
        match (world.partition env).refs[mutation.name]? with
        | some row => (.ok ⟨row.body, record.op_sequence, true⟩, world)
        | none => (.error (.notFound "ref does not exist"), world)
      else (.error (.idempotencyMismatch "idempotency key was reused with a different request"), world) := by
  have issued : runs corpus (issue .now_us) world = (.ok world.clock, world) := rfl
  rw [mutate_ref, runs, run_bind_ok _ issued]
  by_cases timeless : mutation.Timeless world.clock
  next =>
    have refused : runs corpus (ofExcept (ensure (¬ mutation.Timeless world.clock)
        (.invalidRequest "an ephemeral ref requires a time to live"))) world =
          (.error (.invalidRequest "an ephemeral ref requires a time to live"), world) := by
      rw [runs, Prog.run_ofExcept, ensure, if_neg (not_not.mpr timeless)]
    rw [if_pos timeless]
    exact Prog.run_bind_error refused _
  next =>
    have allowed : runs corpus (ofExcept (ensure (¬ mutation.Timeless world.clock)
        (.invalidRequest "an ephemeral ref requires a time to live"))) world = (.ok (), world) := by
      rw [runs, Prog.run_ofExcept, ensure_ok.mpr timeless]
    rw [if_neg timeless]
    refine (run_bind_ok _ allowed).trans ?_
    have replayed := @runs_replayed corpus env world
      (mutation.build env (mutation.ref world.clock) world.clock) key mutation.request
      (.moved mutation.target mutation.generation) sk record valid found
    rw [← keyed] at replayed
    -- the handler only describes conflicts, and a mismatch is none
    have handled (handler : PyError → Act (Nat × Bool))
        (passes : handler (.idempotencyMismatch "idempotency key was reused with a different request") =
          .fail (.idempotencyMismatch "idempotency key was reused with a different request")) :
        runs corpus ((commit_with_counter env (mutation.build env (mutation.ref world.clock) world.clock)
          mutation.idempotency_key mutation.request (.moved mutation.target mutation.generation)).handling handler) world =
        if record.fingerprint = mutation.request then (.ok (record.op_sequence, true), world)
        else (.error (.idempotencyMismatch "idempotency key was reused with a different request"), world) := by
      rw [runs, Prog.run_handling, show Prog.run _ _ _ = _ from replayed]
      by_cases fits : record.fingerprint = mutation.request
      next => simp only [fits, if_true]
      next => simp only [fits, if_false, passes]; rfl
    by_cases fits : record.fingerprint = mutation.request
    next =>
      rw [if_pos fits] at handled ⊢
      refine (run_bind_ok _ (handled _ (by rfl))).trans ?_
      have read := @runs_get_ref corpus env world mutation.name
      cases there : (world.partition env).refs[mutation.name]? with
      | some row =>
        rw [there] at read
        exact run_bind_ok _ read
      | none =>
        rw [there] at read
        exact Prog.run_bind_error read _
    next =>
      rw [if_neg fits] at handled ⊢
      exact Prog.run_bind_error (handled _ (by rfl)) _

/-! ## Creations, updates and deletions -/

def create_mutation (name : RefName) (target : ObjectName) (principal : String) (lifecycle : RefLifecycle)
    (ttl_us : Option Int) (change_id : Option ChangeId) (key : Option String) (request : Option Request) : Mutation :=
  { name, target, condition := .absent, generation := 1, kind := .create_ref, principal, lifecycle, ttl_us, change_id,
    idempotency_key := key, before := none, idempotency_request := request, keep_expiry := none }

def update_mutation (name : RefName) (expected : Int) (target : ObjectName) (principal : String)
    (change_id : Option ChangeId) (key : Option String) (request : Option Request) (kind : OpKind) (current : Ref) :
    Mutation :=
  { name, target, condition := .generation_is expected, generation := current.generation + 1, kind, principal,
    lifecycle := current.lifecycle, ttl_us := none, change_id, idempotency_key := key, before := some current.target,
    idempotency_request := request, keep_expiry := current.expires_at_us }

theorem runs_update_ref (name : RefName) (expected : Int) (target : ObjectName) (principal : String)
    (change_id : Option ChangeId) (key : Option String) (request : Option Request) (kind : OpKind) :
    runs corpus (update_ref env name expected target principal change_id key request kind) world =
      match (world.partition env).refs[name]? with
      | none => (.error (.notFound "ref does not exist"), world)
      | some row =>
        if row.body.name.is_tag then (.error (.conflict "tags are written once and then frozen" none), world)
        else runs corpus (mutate_ref env
          (update_mutation name expected target principal change_id key request kind row.body)) world := by
  have read : runs corpus (try_get_ref env name) world =
      (.ok ((world.partition env).refs[name]?.map Item.body), world) := rfl
  rw [update_ref, runs, run_bind_ok _ read]
  cases found : (world.partition env).refs[name]? with
  | none => rfl
  | some row =>
    by_cases tag : row.body.name.is_tag
    next =>
      have refused : runs corpus (ofExcept (ensure (¬ row.body.name.is_tag)
          (.conflict "tags are written once and then frozen" none))) world =
            (.error (.conflict "tags are written once and then frozen" none), world) := by
        rw [runs, Prog.run_ofExcept, ensure, if_neg (not_not.mpr tag)]
      simp only [tag, if_true]
      exact Prog.run_bind_error refused _
    next =>
      have allowed : runs corpus (ofExcept (ensure (¬ row.body.name.is_tag)
          (.conflict "tags are written once and then frozen" none))) world = (.ok (), world) := by
        rw [runs, Prog.run_ofExcept, ensure_ok.mpr tag]
      simp only [tag]
      exact run_bind_ok _ allowed

/-- What `delete_ref` builds from the target it read. -/
def delete_build (name : RefName) (expected : Int) (principal : String) (before : ObjectName)
    (sequence counter_version : Nat) : Act (List WriteOp) := do
  let at_us ← issue .now_us
  return .delete (.ref name) (some (.generation_is expected)) ::
    counter_writes sequence counter_version ++
    [op_write
      { sequence, kind := .delete_ref, ref := some name, before := some before, after := none, principal, at_us },
    .emit (.ref_deleted name before sequence)]

def delete_move (name : RefName) (expected : Int) (principal : String) (before : ObjectName) (now : Int)
    (sequence version : Nat) : Move where
  name := name
  placed := none
  condition := .generation_is expected
  sequence := sequence
  version := version
  entry :=
    { sequence, kind := .delete_ref, ref := some name, before := some before, after := none, principal, at_us := now }

theorem delete_build_runs (name : RefName) (expected : Int) (principal : String) (before : ObjectName)
    (sequence version : Nat) :
    ∃ built, runs corpus (delete_build name expected principal before sequence version) world = (.ok built, world) ∧
      Carries (delete_move name expected principal before world.clock sequence version) built := by
  refine ⟨_, rfl, rfl, rfl, rfl, [.emit (.ref_deleted name before sequence)], fun write member => ?_, rfl⟩
  rw [List.mem_singleton.mp member]
  trivial

theorem delete_ref_ran {name : RefName} {expected : Int} {principal : String} {key : Option String} {sequence : Nat}
    (ran : runs corpus (delete_ref env name expected principal key) world = (.ok sequence, after)) :
    ∃ row, (world.partition env).refs[name]? = some row ∧
      ((world = after ∧ ∃ record, (world.partition env).recorded key = some record ∧
          record.fingerprint = .delete_ref name expected ∧ record.op_sequence = sequence) ∨
        ((world.partition env).recorded key = none ∧
          Committed corpus env (delete_build name expected principal row.body.target) key
            (.delete_ref name expected) (.deleted name) world sequence after)) := by
  obtain ⟨current, middle, read, ran⟩ := runs_bind.mp ran
  obtain ⟨rfl, row, found, rfl⟩ := get_ref_ran read
  obtain ⟨⟨number, replayed⟩, middle, committed, ran⟩ := runs_bind.mp ran
  cases ran
  refine ⟨row, found, ?_⟩
  have reads (number version : Nat) :
      (runs corpus (delete_build name expected principal row.body.target number version) world).2 = world := rfl
  rcases commit_with_counter_ran reads committed with ⟨-, same, record⟩ | ⟨-, missing, applied⟩
  next => exact .inl ⟨same, record⟩
  next => exact .inr ⟨missing, applied⟩

theorem runs_delete_recorded {name : RefName} {expected : Int} {principal : String} {key : String} {sk : SortKey}
    {record : IdempotencyRecord} (valid : idem_sk key = .ok sk)
    (found : (world.partition env).recorded (some key) = some record) :
    runs corpus (delete_ref env name expected principal (some key)) world =
      match (world.partition env).refs[name]? with
      | none => (.error (.notFound "ref does not exist"), world)
      | some _ =>
        if record.fingerprint = .delete_ref name expected then (.ok record.op_sequence, world)
        else (.error (.idempotencyMismatch "idempotency key was reused with a different request"), world) := by
  have read := @runs_get_ref corpus env world name
  cases there : (world.partition env).refs[name]? with
  | none =>
    rw [there] at read
    exact Prog.run_bind_error read _
  | some row =>
    rw [there] at read
    have replayed := @runs_replayed corpus env world (delete_build name expected principal row.body.target) key
      (.delete_ref name expected) (.deleted name) sk record valid found
    refine (run_bind_ok _ read).trans ?_
    by_cases fits : record.fingerprint = .delete_ref name expected
    next =>
      rw [if_pos fits] at replayed
      simp only [fits, if_true]
      exact run_bind_ok _ replayed
    next =>
      rw [if_neg fits] at replayed
      simp only [fits, if_false]
      exact Prog.run_bind_error replayed _

end Alone

end LedgerVcs
