import LedgerVcs.Meta.Alone
import LedgerVcs.Meta.Log

set_option autoImplicit false

namespace LedgerVcs

open Prog (Pool)

/-! ## What other operations leave alone -/

/-- The log's entries and the keys' records are still there. -/
structure Partition.Extends (before after : Partition) : Prop where
  entries : ∀ (number : Nat) (item : Item OpLogEntry), before.ops[number]? = some item → after.ops[number]? = some item
  records : ∀ (key : String) (record : IdempotencyRecord), before.recorded (some key) = some record →
    after.recorded (some key) = some record

/-- Entries and records are written once. -/
def Appends : WriteOp → Prop
  | .put (.op _) _ condition _ _ => condition = some .absent
  | .put (.idem _) _ condition _ _ => condition = some .absent
  | .delete (.op _) _ => False
  | .delete (.idem _) _ => False
  | _ => True

def AppendCmd : Cmd → Prop
  | .transact_write _ writes => ∀ write ∈ writes, Appends write
  | _ => True

theorem extends_self (partition : Partition) : partition.Extends partition := ⟨fun _ _ => id, fun _ _ => id⟩

theorem extends_trans {first second third : Partition} (early : first.Extends second) (late : second.Extends third) :
    first.Extends third :=
  ⟨fun number item found => late.entries number item (early.entries number item found),
    fun key record found => late.records key record (early.records key record found)⟩

theorem apply_extends {partition after : Partition} {write : WriteOp} (appends : Appends write)
    (applied : apply partition write = .ok after) : partition.Extends after := by
  cases write with
  | emit event =>
    cases applied
    exact ⟨fun _ _ => id, fun _ _ => id⟩
  | delete key condition =>
    obtain ⟨-, rfl⟩ := apply_delete.mp applied
    cases key with
    | op | idem => exact appends.elim
    | _ => exact ⟨fun _ _ => id, fun _ _ => id⟩
  | put key body condition generation expires_at_us =>
    obtain ⟨required, rfl⟩ := apply_put.mp applied
    cases key with
    | op sequence =>
      rw [show condition = some .absent from appends, require_absent] at required
      refine ⟨fun number item found => ?_, fun _ _ => id⟩
      have other : ¬ byText OP_SEQ_DIGITS sequence number = .eq := fun same => by
        rw [← Std.LawfulEqCmp.eq_of_compare same] at found
        cases found.symm.trans required
      rw [Partition.put, Std.ExtTreeMap.getElem?_insert, if_neg other]
      exact found
    | idem name =>
      rw [show condition = some .absent from appends, require_absent] at required
      refine ⟨fun _ _ => id, fun key record found => ?_⟩
      obtain ⟨item, there, rfl⟩ := Option.map_eq_some_iff.mp found
      have other : name ≠ key := fun same => by
        rw [← same] at there
        cases there.symm.trans required
      simp [Partition.recorded, Partition.put, Std.ExtTreeMap.getElem?_insert, other, there]
    | _ => exact ⟨fun _ _ => id, fun _ _ => id⟩

theorem transact_extends {partition after : Partition} {writes : List WriteOp} (appends : ∀ write ∈ writes, Appends write)
    (applied : partition.transact_write writes = .ok after) : partition.Extends after := by
  induction writes generalizing partition with
  | nil =>
    cases applied
    exact extends_self _
  | cons write writes ih =>
    obtain ⟨middle, first, rest⟩ := transact_ok.mp applied
    exact extends_trans (apply_extends (appends write List.mem_cons_self) first)
      (ih (fun later member => appends later (List.mem_cons_of_mem _ member)) rest)

theorem exec_extends {corpus : Corpus} {env : EnvId} {world : World} {command : Cmd} (appends : AppendCmd command) :
    (world.partition env).Extends ((exec corpus command world).2.partition env) := by
  cases command with
  | transact_write pk writes =>
    cases applied : (world.partition pk).transact_write writes with
    | error error =>
      simp only [exec, applied]
      exact extends_self _
    | ok after =>
      simp only [exec, applied]
      by_cases same : pk = env
      next =>
        subst same
        rw [partition_with_self]
        exact transact_extends appends applied
      next =>
        rw [partition_with_of_ne _ _ same]
        exact extends_self _
  | _ => exact extends_self _

/-! ## The calls only append -/

section Calls

variable {env : EnvId} {answers : (command : Cmd) → command.Response → Prop}

theorem append_reads (env : EnvId) : CommitReads env AppendCmd := ⟨trivial, trivial, fun _ => trivial⟩

theorem recording_appends {key : Option String} {recording : List WriteOp} (recorded : Recording key recording) :
    ∀ write ∈ recording, Appends write := by
  intro write member
  cases key with
  | none =>
    rw [show recording = [] from recorded] at member
    cases member
  | some key =>
    obtain ⟨record, expires_at_us, rfl⟩ := recorded
    rw [List.mem_singleton.mp member]
    rfl

theorem commit_appends {build : Nat → Nat → Act (List WriteOp)} (key : Option String) (request : Request)
    (outcome : Outcome)
    (builds : ∀ sequence version, (build sequence version).Yields AppendCmd answers fun writes =>
      ∀ write ∈ writes, Appends write) :
    (commit_with_counter env build key request outcome).Yields AppendCmd answers fun _ => True := by
  refine @commit_with_counter_yields env answers (fun _ _ => True) AppendCmd _ build key request outcome
    (append_reads env) (fun _ _ => trivial) (fun sequence version _ => builds sequence version)
    fun writes recording built recorded => ?_
  intro write member
  rcases List.mem_append.mp member with early | late
  next => exact built write early
  next => exact recording_appends recorded write late

theorem build_appends (mutation : Mutation) (ref : Ref) (now : Int) (sequence version : Nat) :
    (mutation.build env ref now sequence version).Yields AppendCmd answers fun writes =>
      ∀ write ∈ writes, Appends write := by
  delta Mutation.build
  extract_lets moved settle
  have rest (changed : List WriteOp) (appends : ∀ write ∈ changed, Appends write) :
      (settle changed).Yields AppendCmd answers fun writes => ∀ write ∈ writes, Appends write := by
    intro write member
    simp only [moved, counter_writes, op_write, List.cons_append, List.nil_append, List.mem_cons, List.mem_append,
      List.not_mem_nil, or_false] at member
    rcases member with rfl | rfl | rfl | early | rfl
    next => trivial
    next => trivial
    next => rfl
    next => exact appends write early
    next => trivial
  clear_value settle
  cases mutation.change_id with
  | none => exact rest [] fun _ member => absurd member List.not_mem_nil
  | some change =>
    refine .bind (.bind (.ask trivial fun item _ => ?_))
    exact rest _ fun write member => List.mem_singleton.mp member ▸ trivial

theorem delete_build_appends (name : RefName) (expected : Int) (principal : String) (before : ObjectName)
    (sequence version : Nat) :
    (delete_build name expected principal before sequence version).Yields AppendCmd answers fun writes =>
      ∀ write ∈ writes, Appends write := by
  refine .bind (.ask trivial fun at_us _ => ?_)
  intro write member
  simp only [counter_writes, op_write, List.cons_append, List.nil_append, List.mem_cons, List.not_mem_nil,
    or_false] at member
  rcases member with rfl | rfl | rfl | rfl
  next => trivial
  next => trivial
  next => rfl
  next => trivial

theorem get_ref_appends (name : RefName) : (get_ref env name).Yields AppendCmd answers fun _ => True := by
  refine .bind (.ask trivial fun item _ => ?_)
  cases item <;> trivial

theorem mutate_ref_appends (mutation : Mutation) : (mutate_ref env mutation).Yields AppendCmd answers fun _ => True := by
  refine .bind (.ask trivial fun now _ => .bind (.ofExcept fun _ _ => .bind (@Prog.Yields.mono _ _ _ _ _ _
    (fun _ => True) _ _ _ ?_ (fun _ fits => fits) ?_)))
  next =>
    refine .handling (commit_appends _ _ _ fun sequence version => build_appends mutation _ now sequence version)
      fun error => ?_
    cases error with
    | conflict => exact .bind (.bind (.bind (.ask trivial fun _ _ => trivial)))
    | _ => trivial
  next =>
    rintro ⟨sequence, replayed⟩ -
    cases replayed with
    | true => exact .bind ((get_ref_appends mutation.name).mono (fun _ fits => fits) fun _ _ => trivial)
    | false => trivial

theorem update_ref_appends (name : RefName) (expected : Int) (target : ObjectName) (principal : String)
    (change_id : Option ChangeId) (key : Option String) (request : Option Request) (kind : OpKind) :
    (update_ref env name expected target principal change_id key request kind).Yields AppendCmd answers
      fun _ => True := by
  refine .bind (.bind (.ask trivial fun item _ => ?_))
  cases item with
  | none => trivial
  | some item => exact .bind (.ofExcept fun _ _ => mutate_ref_appends _)

theorem delete_ref_appends (name : RefName) (expected : Int) (principal : String) (key : Option String) :
    (delete_ref env name expected principal key).Yields AppendCmd answers fun _ => True := by
  refine .bind ((get_ref_appends name).mono (fun _ fits => fits) fun current _ => ?_)
  exact .bind ((commit_appends _ _ _ fun sequence version =>
    delete_build_appends name expected principal current.target sequence version).mono (fun _ fits => fits)
      fun _ _ => trivial)

theorem undo_appends (sequence : Nat) (principal : String) (key : Option String) :
    (undo env sequence principal key).Yields AppendCmd answers fun _ => True := by
  refine .bind (.bind (.ask trivial fun item _ => ?_))
  cases item with
  | none => trivial
  | some item =>
    simp only [Prog.Yields, pure]
    cases item.body.ref with
    | none => trivial
    | some name =>
      refine .bind (.bind (.ask trivial fun seen _ => ?_))
      cases item.body.before with
      | none =>
        cases seen with
        | none => trivial
        | some seen => exact .bind ((delete_ref_appends name _ _ _).mono (fun _ fits => fits) fun _ _ => trivial)
      | some target =>
        cases seen with
        | none => exact mutate_ref_appends _
        | some seen => exact update_ref_appends ..

theorem code_appends (call : RefCall) : (call.code env).Yields AppendCmd answers fun _ => True := by
  cases call with
  | create => exact .bind ((mutate_ref_appends _).mono (fun _ fits => fits) fun _ _ => trivial)
  | update => exact .bind ((update_ref_appends ..).mono (fun _ fits => fits) fun _ _ => trivial)
  | delete => exact .bind ((delete_ref_appends ..).mono (fun _ fits => fits) fun _ _ => trivial)
  | undo => exact .bind ((undo_appends ..).mono (fun _ fits => fits) fun _ _ => trivial)

end Calls

theorem calls_extend {ι : Type} [DecidableEq ι] (corpus : Corpus) (env : EnvId) (calls : ι → RefCall) (world : World)
    {after : Pool ι Cmd Cmd.Response PyError (fun _ => Unit) World}
    (run : Pool.Run (clients corpus)
      (fun before after => (before.partition env).Extends (after.partition env)) (serve env calls world) after) :
    (world.partition env).Extends (after.shared.partition env) := by
  have yields (client : ι) : ((calls client).code env).Yields AppendCmd (fun _ _ => True) fun _ => True :=
    code_appends (calls client)
  exact Pool.run_keeps (I := fun state : World => (world.partition env).Extends (state.partition env)) yields
    (fun _ _ _ _ => trivial) (fun _ _ _ appends _ held => extends_trans held (exec_extends appends))
    (fun _ _ passes held => extends_trans held passes) (extends_self _) run

/-! ## Creations and updates -/

inductive MoveCall
  | create (name : RefName) (target : ObjectName) (principal : String) (lifecycle : RefLifecycle)
      (ttl_us : Option Int) (change_id : Option ChangeId) (request : Option Request)
  | update (name : RefName) (expected : Int) (target : ObjectName) (principal : String)
      (change_id : Option ChangeId) (request : Option Request) (kind : OpKind)

namespace MoveCall

def code (env : EnvId) (key : Option String) : MoveCall → Act RefUpdate
  | .create name target principal lifecycle ttl_us change_id request =>
      create_ref env name target principal lifecycle ttl_us change_id key request
  | .update name expected target principal change_id request kind =>
      update_ref env name expected target principal change_id key request kind

def name : MoveCall → RefName
  | .create name _ _ _ _ _ _ | .update name _ _ _ _ _ _ => name

/-- What the call's fingerprint covers. -/
def request : MoveCall → Request
  | .create name target _ _ _ _ request => request.getD (.ref_mutation .create_ref name target none)
  | .update name expected target _ _ request kind => request.getD (.ref_mutation kind name target (some expected))

/-- A creation of an ephemeral ref says how long it lives. -/
def Lives : MoveCall → Prop
  | .create _ _ _ lifecycle ttl_us _ _ => ¬ (lifecycle = .ephemeral ∧ ttl_us = none)
  | .update _ _ _ _ _ _ _ => True

/-- An update takes neither a tag nor an ephemeral ref that has no expiry. -/
def Admits (call : MoveCall) (current : Ref) : Prop :=
  match call with
  | .create _ _ _ _ _ _ _ => True
  | .update _ _ _ _ _ _ _ =>
    current.name.is_tag = false ∧ ¬ (current.lifecycle = .ephemeral ∧ current.expires_at_us = none)

end MoveCall

section Moves

variable {corpus : Corpus} {env : EnvId} {world after : World} {key : String} {call : MoveCall}

theorem create_timeless {name : RefName} {target : ObjectName} {principal : String} {lifecycle : RefLifecycle}
    {ttl_us : Option Int} {change_id : Option ChangeId} {key : Option String} {request : Option Request} {now : Int} :
    (create_mutation name target principal lifecycle ttl_us change_id key request).Timeless now ↔
      lifecycle = .ephemeral ∧ ttl_us = none := by
  cases ttl_us <;> simp [Mutation.Timeless, Mutation.expiry, create_mutation]

/-- What a mutation that went through leaves under its key. -/
theorem mutation_recorded {mutation : Mutation} {update : RefUpdate} (keyed : mutation.idempotency_key = some key)
    (ran : runs corpus (mutate_ref env mutation) world = (.ok update, after)) (fresh : update.replayed = false) :
    ¬ mutation.Timeless world.clock ∧ update.ref = mutation.ref world.clock ∧ ∃ sk record, idem_sk key = .ok sk ∧
      (after.partition env).recorded (some key) = some record ∧ record.fingerprint = mutation.request ∧
      record.op_sequence = update.op_sequence := by
  obtain ⟨lives, ⟨replayed, -⟩ | ⟨-, placed, -, committed⟩⟩ := mutate_ref_ran ran
  next =>
    rw [replayed] at fresh
    cases fresh
  next =>
    have keyed_commit := committed
    rw [Mutation.Commits, keyed] at keyed_commit
    obtain ⟨record, found, fits, numbered⟩ := committed_recorded keyed_commit
    refine ⟨lives, placed, ?_⟩
    obtain ⟨sk, valid⟩ := committed_valid keyed_commit
    exact ⟨sk, record, valid, found, fits, numbered⟩

theorem move_recorded {update : RefUpdate}
    (ran : runs corpus (call.code env (some key)) world = (.ok update, after)) (fresh : update.replayed = false) :
    call.Lives ∧ ∃ sk record, idem_sk key = .ok sk ∧ (after.partition env).recorded (some key) = some record ∧
      record.fingerprint = call.request ∧ record.op_sequence = update.op_sequence := by
  cases call with
  | create name target principal lifecycle ttl_us change_id request =>
    obtain ⟨lives, -, record⟩ := @mutation_recorded _ _ _ _ _
      (create_mutation name target principal lifecycle ttl_us change_id (some key) request) _ rfl ran fresh
    exact ⟨fun timeless => lives (create_timeless.mpr timeless), record⟩
  | update name expected target principal change_id request kind =>
    rw [MoveCall.code, runs_update_ref] at ran
    cases found : (world.partition env).refs[name]? with
    | none =>
      rw [found] at ran
      cases ran
    | some row =>
      simp only [found] at ran
      split at ran
      next => cases ran
      next =>
        obtain ⟨-, -, record⟩ := @mutation_recorded _ _ _ _ _
          (update_mutation name expected target principal change_id (some key) request kind row.body) _ rfl ran fresh
        exact ⟨trivial, record⟩

theorem mutation_repeats {mutation : Mutation} {sk : SortKey} {record : IdempotencyRecord} {update : RefUpdate}
    {last : World} (keyed : mutation.idempotency_key = some key) (valid : idem_sk key = .ok sk)
    (found : (world.partition env).recorded (some key) = some record) (fits : record.fingerprint = mutation.request) :
    runs corpus (mutate_ref env mutation) world = (.ok update, last) ↔
      last = world ∧ update = ⟨update.ref, record.op_sequence, true⟩ ∧ ¬ mutation.Timeless world.clock ∧
        ∃ row, (world.partition env).refs[mutation.name]? = some row ∧ row.body = update.ref := by
  rw [runs_mutate_recorded keyed valid found, if_pos fits]
  by_cases timeless : mutation.Timeless world.clock
  next => simp [timeless]
  next =>
    cases there : (world.partition env).refs[mutation.name]? with
    | none => simp [timeless]
    | some row =>
      simp only [timeless, if_false, not_false_eq_true, true_and, Prod.mk.injEq, Except.ok.injEq, Option.some.injEq,
        exists_eq_left']
      constructor
      next => rintro ⟨rfl, rfl⟩; exact ⟨rfl, rfl, rfl⟩
      next => rintro ⟨rfl, same, placed⟩; exact ⟨by rw [same, placed], rfl⟩

theorem move_repeats {sk : SortKey} {record : IdempotencyRecord} {update : RefUpdate} {last : World}
    (valid : idem_sk key = .ok sk) (found : (world.partition env).recorded (some key) = some record)
    (fits : record.fingerprint = call.request) (lives : call.Lives) :
    runs corpus (call.code env (some key)) world = (.ok update, last) ↔
      last = world ∧ update = ⟨update.ref, record.op_sequence, true⟩ ∧
        ∃ row, (world.partition env).refs[call.name]? = some row ∧ row.body = update.ref ∧ call.Admits row.body := by
  cases call with
  | create name target principal lifecycle ttl_us change_id request =>
    have lasts : ¬ (create_mutation name target principal lifecycle ttl_us change_id (some key) request).Timeless
        world.clock := fun timeless => lives (create_timeless.mp timeless)
    refine (@mutation_repeats _ _ _ _
      (create_mutation name target principal lifecycle ttl_us change_id (some key) request) _ _ _ _ rfl valid found
      fits).trans ?_
    simp only [lasts, not_false_eq_true, true_and, MoveCall.Admits, and_true]
    rfl
  | update name expected target principal change_id request kind =>
    rw [MoveCall.code, runs_update_ref]
    cases there : (world.partition env).refs[name]? with
    | none => simp [MoveCall.name, there]
    | some row =>
      by_cases tag : row.body.name.is_tag
      next => simp [MoveCall.name, there, MoveCall.Admits, tag]
      next =>
        simp only [tag]
        refine (@mutation_repeats _ _ _ _
          (update_mutation name expected target principal change_id (some key) request kind row.body) _ _ _ _ rfl valid
          found fits).trans ?_
        simp only [MoveCall.name, update_mutation, there, MoveCall.Admits, tag, Option.some.injEq, exists_eq_left', true_and]
        tauto

/-- A run that reports the original commit, and changes nothing. -/
def Repeats (corpus : Corpus) (act : Act RefUpdate) (original : RefUpdate) (world : World) : Prop :=
  ∃ update, runs corpus act world = (.ok update, world) ∧ update.ref.target = original.ref.target ∧
    update.ref.generation = original.ref.generation ∧ update.op_sequence = original.op_sequence

/-- The retry of a keyed creation or update that went through reports its commit exactly if the ref is there with
the target and the generation that the commit gave it. -/
theorem ref_retry_exact (corpus : Corpus) (env : EnvId) (call : MoveCall) (key : String) (first committed later : World)
    (original : RefUpdate) (returned : runs corpus (call.code env (some key)) first = (.ok original, committed))
    (fresh : original.replayed = false) (extends_to : (committed.partition env).Extends (later.partition env)) :
    Repeats corpus (call.code env (some key)) original later ↔
      ∃ row, (later.partition env).refs[call.name]? = some row ∧ row.body.target = original.ref.target ∧
        row.body.generation = original.ref.generation ∧ call.Admits row.body := by
  obtain ⟨lives, sk, record, valid, found, fits, numbered⟩ := move_recorded returned fresh
  have still := extends_to.records key record found
  constructor
  next =>
    rintro ⟨update, ran, target, generation, -⟩
    obtain ⟨-, -, row, there, same, admits⟩ := (move_repeats valid still fits lives).mp ran
    exact ⟨row, there, same ▸ target, same ▸ generation, admits⟩
  next =>
    rintro ⟨row, there, target, generation, admits⟩
    exact ⟨⟨row.body, record.op_sequence, true⟩,
      (move_repeats valid still fits lives).mpr ⟨rfl, rfl, row, there, rfl, admits⟩, target, generation, numbered⟩

end Moves

theorem runs_extends {corpus : Corpus} {env : EnvId} {α : Type} {act : Act α} {result : α → Prop}
    (yields : act.Yields AppendCmd (fun _ _ => True) result) (world : World) :
    (world.partition env).Extends ((runs corpus act world).2.partition env) :=
  yields.run_keeps (I := fun state : World => (world.partition env).Extends (state.partition env))
    (fun _ _ => trivial) (fun _ _ appends held => extends_trans held (exec_extends appends)) (extends_self _)

def movedTarget : ObjectName := ⟨List.replicate DIGEST_BYTES 1, rfl⟩

def mainCreated : MoveCall := .create DEFAULT_REF firstTarget "a" .permanent none none none

/-- A new environment with its main ref, created under a key. -/
def keyedMain : World := (runs .none (mainCreated.code ⟨"env"⟩ (some "k")) newEnv).2

def mainOriginal : RefUpdate := ⟨⟨DEFAULT_REF, firstTarget, 1, .permanent, none, "a", 0⟩, 1, false⟩

theorem main_created : runs .none (mainCreated.code ⟨"env"⟩ (some "k")) newEnv = (.ok mainOriginal, keyedMain) :=
  Prod.ext (by decide) rfl

/-- A retry with nothing in between. -/
theorem ref_retry_exact_at_once :
    Repeats .none (mainCreated.code ⟨"env"⟩ (some "k")) mainOriginal keyedMain ↔
      ∃ row, (keyedMain.partition ⟨"env"⟩).refs[mainCreated.name]? = some row ∧ row.body.target = mainOriginal.ref.target ∧
        row.body.generation = mainOriginal.ref.generation ∧ mainCreated.Admits row.body :=
  ref_retry_exact .none ⟨"env"⟩ mainCreated "k" newEnv keyedMain keyedMain mainOriginal main_created rfl (extends_self _)

/-- Another client's update of the ref that the creation made. -/
def mainMoved : World := (runs .none (update_ref ⟨"env"⟩ DEFAULT_REF 1 movedTarget "b" none none none .update_ref) keyedMain).2

/-- The retry of the creation reports the other client's commit. -/
theorem retry_tells_of_another :
    (keyedMain.partition ⟨"env"⟩).Extends (mainMoved.partition ⟨"env"⟩) ∧
      runs .none (mainCreated.code ⟨"env"⟩ (some "k")) newEnv = (.ok mainOriginal, keyedMain) ∧
      ¬ Repeats .none (mainCreated.code ⟨"env"⟩ (some "k")) mainOriginal mainMoved := by
  refine ⟨runs_extends (update_ref_appends ..) keyedMain, main_created, ?_⟩
  rintro ⟨update, ran, target, -⟩
  have told : (runs .none (mainCreated.code ⟨"env"⟩ (some "k")) mainMoved).1 =
      .ok ⟨⟨DEFAULT_REF, movedTarget, 2, .permanent, none, "b", 0⟩, 1, true⟩ := by decide
  rw [ran] at told
  cases told
  revert target
  decide

/-! ## Deletions and undos -/

section Drops

variable {corpus : Corpus} {env : EnvId} {world after : World} {key : String}

/-- What `undo` does about an entry, given the ref as it is now. -/
def undo_entry (env : EnvId) (sequence : Nat) (principal : String) (key : Option String) (name : RefName)
    (before : Option ObjectName) (current : Option Ref) : Act RefUpdate :=
  match before, current with
  | none, none => .fail (.notFound "ref is already absent")
  | none, some current => do
    let _ ← delete_ref env name current.generation principal key
    return ⟨current, sequence, false⟩
  | some before, none => create_ref env name before principal .permanent none none key none
  | some before, some current => update_ref env name current.generation before principal none key none .undo

theorem runs_undo {sequence : Nat} {principal : String} {key : Option String} {item : Item OpLogEntry} {name : RefName}
    (entry : (world.partition env).ops[sequence]? = some item) (moved : item.body.ref = some name) :
    runs corpus (undo env sequence principal key) world =
      runs corpus (undo_entry env sequence principal key name item.body.before
        ((world.partition env).refs[name]?.map Item.body)) world := by
  have read : runs corpus (get_op env sequence) world = (.ok item.body, world) := by
    have issued : runs corpus (issue (.meta_get env (.op sequence))) world = (.ok (some item), world) := by
      rw [← entry]
      rfl
    rw [get_op, runs, Prog.run_bind_ok _ issued]
    rfl
  have seen : runs corpus (try_get_ref env name) world =
      (.ok ((world.partition env).refs[name]?.map Item.body), world) := rfl
  rw [undo, runs, Prog.run_bind_ok _ read]
  simp only [moved]
  rw [Prog.run_bind_ok _ seen]
  rfl

theorem undo_ran {sequence : Nat} {principal : String} {key : Option String} {update : RefUpdate}
    (ran : runs corpus (undo env sequence principal key) world = (.ok update, after)) :
    ∃ item name, (world.partition env).ops[sequence]? = some item ∧ item.body.ref = some name := by
  obtain ⟨entry, middle, read, ran⟩ := runs_bind.mp ran
  obtain ⟨response, last, issued, returned⟩ := runs_bind.mp read
  cases issue_ran issued
  cases found : (world.partition env).ops[sequence]? with
  | none =>
    simp only [Partition.get, found] at returned
    cases returned
  | some item =>
    simp only [Partition.get, found] at returned
    cases returned
    cases moved : item.body.ref with
    | none =>
      simp only [moved] at ran
      cases ran
    | some name => exact ⟨item, name, rfl, moved⟩

/-- A run that reports the original outcome, and changes nothing. -/
def Reports (corpus : Corpus) (act : Act RefUpdate) (original : RefUpdate) (world : World) : Prop :=
  ∃ update, runs corpus act world = (.ok update, world) ∧ update.ref = original.ref ∧
    update.op_sequence = original.op_sequence

theorem delete_recorded {name : RefName} {expected : Int} {principal : String} {sequence : Nat}
    (ran : runs corpus (delete_ref env name expected principal (some key)) world = (.ok sequence, after))
    (fresh : (world.partition env).recorded (some key) = none) :
    ∃ sk record, idem_sk key = .ok sk ∧ (after.partition env).recorded (some key) = some record ∧
      record.fingerprint = .delete_ref name expected ∧ record.op_sequence = sequence := by
  obtain ⟨row, -, ⟨-, record, found, -⟩ | ⟨-, committed⟩⟩ := delete_ref_ran ran
  next => cases found.symm.trans fresh
  next =>
    obtain ⟨sk, valid⟩ := committed_valid committed
    obtain ⟨record, found, fits, numbered⟩ := committed_recorded committed
    exact ⟨sk, record, valid, found, fits, numbered⟩

theorem mutation_fresh {mutation : Mutation} {update : RefUpdate} (keyed : mutation.idempotency_key = some key)
    (ran : runs corpus (mutate_ref env mutation) world = (.ok update, after))
    (missing : (world.partition env).recorded (some key) = none) : update.replayed = false := by
  obtain ⟨-, ⟨-, -, ⟨record, found, -⟩, -⟩ | ⟨fresh, -⟩⟩ := mutate_ref_ran ran
  next =>
    rw [keyed, missing] at found
    cases found
  next => exact fresh

/-- The retry of a keyed deletion repeats its outcome exactly if there is a ref of that name again. -/
theorem delete_repeats {name : RefName} {expected : Int} {principal : String} {sk : SortKey} {record : IdempotencyRecord}
    (valid : idem_sk key = .ok sk) (found : (world.partition env).recorded (some key) = some record)
    (fits : record.fingerprint = .delete_ref name expected) :
    runs corpus (delete_ref env name expected principal (some key)) world = (.ok record.op_sequence, world) ↔
      ((world.partition env).refs[name]?).isSome := by
  rw [runs_delete_recorded valid found]
  cases (world.partition env).refs[name]? with
  | none => simp
  | some row => simp [fits]

/-- What an undo whose key has a record can come to. -/
theorem undo_entry_replays {sequence : Nat} {principal : String} {name : RefName} {before : Option ObjectName}
    {current : Option (Item Ref)} {sk : SortKey} {record : IdempotencyRecord} {update : RefUpdate}
    (valid : idem_sk key = .ok sk) (found : (world.partition env).recorded (some key) = some record)
    (here : (world.partition env).refs[name]? = current)
    (ran : runs corpus (undo_entry env sequence principal (some key) name before (current.map Item.body)) world =
      (.ok update, after)) :
    ∃ row, current = some row ∧ update.ref = row.body ∧ (before = none ∨ ∃ target, before = some target ∧
      record.fingerprint = .ref_mutation .undo name target (some row.body.generation)) := by
  cases before with
  | none =>
    cases current with
    | none => cases ran
    | some row =>
      obtain ⟨number, middle, -, ran⟩ := runs_bind.mp ran
      cases ran
      exact ⟨row, rfl, rfl, .inl rfl⟩
  | some target =>
    cases current with
    | none =>
      have recreated := @runs_mutate_recorded corpus env world
        (create_mutation name target principal .permanent none none (some key) none) key sk record rfl valid found
      refine absurd (recreated.symm.trans ran) ?_
      simp only [create_mutation, here]
      split
      next => simp
      next => split <;> simp
    | some row =>
      have moved := ran
      rw [show undo_entry env sequence principal (some key) name (some target) ((some row).map Item.body) =
        update_ref env name row.body.generation target principal none (some key) none .undo from rfl, runs_update_ref,
        here] at moved
      simp only at moved
      split at moved
      next => cases moved
      next =>
        rw [runs_mutate_recorded rfl valid found] at moved
        split at moved
        next => cases moved
        next =>
          split at moved
          next fits =>
            simp only [update_mutation, here] at moved
            cases moved
            exact ⟨row, rfl, rfl, .inr ⟨target, rfl, fits⟩⟩
          next => cases moved

theorem undo_recorded {sequence : Nat} {principal : String} {update : RefUpdate} {item : Item OpLogEntry} {name : RefName}
    (entry : (world.partition env).ops[sequence]? = some item) (moved : item.body.ref = some name)
    (ran : runs corpus (undo env sequence principal (some key)) world = (.ok update, after))
    (missing : (world.partition env).recorded (some key) = none) :
    ∃ sk record, idem_sk key = .ok sk ∧ (after.partition env).recorded (some key) = some record ∧
      (item.body.before = none → record.fingerprint = .delete_ref name update.ref.generation ∧
        update.op_sequence = sequence) ∧
      ∀ target, item.body.before = some target → ∀ generation,
        record.fingerprint = .ref_mutation .undo name target (some generation) →
          update.ref.generation = generation + 1 := by
  rw [runs_undo entry moved] at ran
  cases earlier : item.body.before with
  | none =>
    cases current : (world.partition env).refs[name]? with
    | none =>
      rw [earlier, current] at ran
      cases ran
    | some row =>
      rw [earlier, current] at ran
      obtain ⟨number, middle, deleted, ran⟩ := runs_bind.mp ran
      cases ran
      obtain ⟨sk, record, valid, found, fits, -⟩ := delete_recorded deleted missing
      exact ⟨sk, record, valid, found, fun _ => ⟨fits, rfl⟩, fun _ impossible => by cases impossible⟩
  | some target =>
    cases current : (world.partition env).refs[name]? with
    | none =>
      rw [earlier, current] at ran
      have created : runs corpus (mutate_ref env
          (create_mutation name target principal .permanent none none (some key) none)) world = (.ok update, after) := ran
      obtain ⟨-, -, sk, record, valid, found, fits, -⟩ := mutation_recorded rfl created (mutation_fresh rfl created missing)
      refine ⟨sk, record, valid, found, fun impossible => (by cases impossible), fun _ _ generation impossible => ?_⟩
      cases fits.symm.trans impossible
    | some row =>
      rw [earlier, current] at ran
      have updated := ran
      rw [show undo_entry env sequence principal (some key) name (some target) ((some row).map Item.body) =
        update_ref env name row.body.generation target principal none (some key) none .undo from rfl, runs_update_ref,
        current] at updated
      simp only at updated
      split at updated
      next => cases updated
      next =>
        obtain ⟨-, placed, sk, record, valid, found, fits, -⟩ :=
          mutation_recorded rfl updated (mutation_fresh rfl updated missing)
        refine ⟨sk, record, valid, found, fun impossible => (by cases impossible), fun _ _ generation same => ?_⟩
        have expected := fits.symm.trans same
        simp only [Mutation.request, update_mutation, Option.getD_none, Mutation.expected, Request.ref_mutation.injEq,
          Option.some.injEq] at expected
        rw [placed, ← expected.2.2.2]
        rfl

/-- The retry of a keyed deletion reports its outcome exactly if there is a ref of that name again, and the retry of a
keyed undo exactly if it undid a creation and the ref is there again as the undo found it. -/
theorem drop_retry_exact (corpus : Corpus) (env : EnvId) (key : String) (first committed later : World)
    (fresh : (first.partition env).recorded (some key) = none)
    (extends_to : (committed.partition env).Extends (later.partition env)) :
    (∀ name expected principal sequence,
      runs corpus (delete_ref env name expected principal (some key)) first = (.ok sequence, committed) →
        (runs corpus (delete_ref env name expected principal (some key)) later = (.ok sequence, later) ↔
          ((later.partition env).refs[name]?).isSome)) ∧
      ∀ sequence principal original,
        runs corpus (undo env sequence principal (some key)) first = (.ok original, committed) →
          (Reports corpus (undo env sequence principal (some key)) original later ↔
            ∃ item name row, (later.partition env).ops[sequence]? = some item ∧ item.body.ref = some name ∧
              item.body.before = none ∧ (later.partition env).refs[name]? = some row ∧ row.body = original.ref) := by
  refine ⟨fun name expected principal sequence ran => ?_, fun sequence principal original ran => ?_⟩
  next =>
    obtain ⟨sk, record, valid, found, fits, rfl⟩ := delete_recorded ran fresh
    exact delete_repeats valid (extends_to.records key record found) fits
  next =>
    obtain ⟨item, name, logged, moved⟩ := undo_ran ran
    obtain ⟨sk, record, valid, found, deleted, swapped⟩ := undo_recorded logged moved ran fresh
    have still := extends_to.records key record found
    have appended := @runs_extends corpus env _ (undo env sequence principal (some key)) _ (undo_appends ..) first
    rw [ran] at appended
    have entry := extends_to.entries sequence item (appended.entries sequence item logged)
    constructor
    next =>
      rintro ⟨update, again, same, -⟩
      rw [runs_undo entry moved] at again
      obtain ⟨row, here, read, earlier | ⟨target, earlier, fits⟩⟩ := undo_entry_replays valid still rfl again
      next => exact ⟨item, name, row, entry, moved, earlier, here, read.symm.trans same⟩
      next =>
        have risen := swapped target earlier _ fits
        rw [← same, read] at risen
        omega
    next =>
      rintro ⟨item', name', row, entry', moved', earlier, here, same⟩
      obtain rfl : item = item' := Option.some.inj (entry.symm.trans entry')
      obtain rfl : name = name' := Option.some.inj (moved.symm.trans moved')
      obtain ⟨fits, numbered⟩ := deleted earlier
      refine ⟨⟨row.body, sequence, false⟩, ?_, same, numbered.symm⟩
      have repeated : runs corpus (delete_ref env name row.body.generation principal (some key)) later =
          (.ok record.op_sequence, later) :=
        (delete_repeats valid still (same ▸ fits)).mpr (by rw [here]; rfl)
      rw [runs_undo entry moved, earlier, here]
      exact Prog.run_bind_ok _ repeated

end Drops

/-- The main ref's deletion, under a key of its own. -/
def mainDropped : World := (runs .none (delete_ref ⟨"env"⟩ DEFAULT_REF 1 "a" (some "d")) keyedMain).2

theorem main_dropped : runs .none (delete_ref ⟨"env"⟩ DEFAULT_REF 1 "a" (some "d")) keyedMain = (.ok 2, mainDropped) :=
  Prod.ext (by decide) rfl

theorem drop_retry_exact_at_once :
    runs .none (delete_ref ⟨"env"⟩ DEFAULT_REF 1 "a" (some "d")) mainDropped = (.ok 2, mainDropped) ↔
      (((mainDropped.partition ⟨"env"⟩).refs[DEFAULT_REF]?).isSome : Prop) :=
  (drop_retry_exact .none ⟨"env"⟩ "d" keyedMain mainDropped mainDropped (by decide) (extends_self _)).1
    DEFAULT_REF 1 "a" 2 main_dropped

/-- The retry of a deletion that went through finds no ref. -/
theorem deletion_not_repeated :
    runs .none (delete_ref ⟨"env"⟩ DEFAULT_REF 1 "a" (some "d")) keyedMain = (.ok 2, mainDropped) ∧
      (runs .none (delete_ref ⟨"env"⟩ DEFAULT_REF 1 "a" (some "d")) mainDropped).1 =
        .error (.notFound "ref does not exist") :=
  ⟨main_dropped, by decide⟩

end LedgerVcs
