import LedgerVcs.Meta.Chain

set_option autoImplicit false

namespace LedgerVcs

open Prog (Actor Pool)

/-! ## What a step changed -/

/-- Refs, op log, counter, change records and events. -/
def Partition.Same (first second : Partition) : Prop :=
  second.refs = first.refs ∧ second.ops = first.ops ∧ second.seq = first.seq ∧ second.changes = first.changes ∧
    second.outbox = first.outbox

/-- One step of a party, with the states around it. -/
structure Taken (ι : Type) where
  party : ι
  before : World
  after : World

/-- A state, and every step that parties have taken, the latest first. -/
structure Account (ι : Type) where
  state : World
  steps : List (Taken ι)

section Keyed

variable {ι : Type} (corpus : Corpus) (env : EnvId) (calls : ι → RefCall) (key : String)

def Account.exec (party : ι) (command : Cmd) (account : Account ι) : command.Response × Account ι :=
  ((LedgerVcs.exec corpus command account.state).1,
    ⟨(LedgerVcs.exec corpus command account.state).2,
      ⟨party, account.state, (LedgerVcs.exec corpus command account.state).2⟩ :: account.steps⟩)

/-- Each party takes its steps as it likes. -/
def requests (party : ι) : Actor Cmd Cmd.Response (Account ι) := ⟨Account.exec corpus party, fun _ _ => True⟩

/-- A step of a request with the key that commits something. -/
def Commits (taken : Taken ι) : Prop :=
  (calls taken.party).key = some key ∧ ¬ (taken.before.partition env).Same (taken.after.partition env)

/-- The key's record is there. -/
def Remembered (world : World) : Prop := key ∈ (world.partition env).idems

/-- Whatever else goes on leaves the key's record alone, as it does within its lifetime. -/
def Lasting (before after : Account ι) : Prop :=
  after.steps = before.steps ∧ (Remembered env key before.state → Remembered env key after.state)

/-- At most one step of the requests has committed anything, and the key's record tells of it. -/
structure Once (account : Account ι) : Prop where
  once : account.steps.Pairwise fun later earlier => ¬ (Commits env calls key later ∧ Commits env calls key earlier)
  told : ∀ taken ∈ account.steps, Commits env calls key taken → Remembered env key account.state

end Keyed

/-! ## One transaction -/

section Transaction

variable {partition after : Partition} {key : String}

theorem transact_remembers {writes : List WriteOp}
    (spares : ∀ condition, .delete (.idem key) condition ∉ writes)
    (applied : partition.transact_write writes = .ok after) (remembered : key ∈ partition.idems) :
    key ∈ after.idems := by
  induction writes generalizing partition with
  | nil =>
    cases applied
    exact remembered
  | cons write writes ih =>
    obtain ⟨middle, first, rest⟩ := transact_ok.mp applied
    refine ih (fun condition member => spares condition (List.mem_cons_of_mem _ member)) rest ?_
    cases write with
    | emit event =>
      cases first
      exact remembered
    | delete other condition =>
      obtain ⟨-, rfl⟩ := apply_delete.mp first
      cases other with
      | idem other =>
        have different : other ≠ key := fun same => spares condition (same ▸ List.mem_cons_self)
        simpa [Partition.delete, Std.ExtTreeMap.mem_erase, different] using remembered
      | _ => exact remembered
    | put other body condition generation expires_at_us =>
      obtain ⟨-, rfl⟩ := apply_put.mp first
      cases other with
      | idem other => simp [Partition.put, Std.ExtTreeMap.mem_insert, remembered]
      | _ => exact remembered

/-- A move's writes delete no key's record. -/
theorem carries_spares {move : Move} {writes : List WriteOp} (carries : Carries move writes) (condition : Option Condition) :
    .delete (.idem key) condition ∉ writes := by
  obtain ⟨-, -, -, accessories, fit, rfl⟩ := carries
  intro member
  simp only [counter_writes, op_write, List.cons_append, List.nil_append, List.mem_cons, reduceCtorEq, false_or] at member
  rcases member with moved | accessory
  next =>
    cases placed : move.placed with
    | none => simp [Move.write, placed] at moved
    | some ref => simp [Move.write, placed] at moved
  next => exact (fit _ accessory).elim

/-- A request with the key commits only where the key has no record, and leaves one. -/
theorem keyed_transact {move : Move} {built recording : List WriteOp} (carries : Carries move built)
    (recorded : Recording (some key) recording) (applied : partition.transact_write (built ++ recording) = .ok after) :
    key ∉ partition.idems ∧ key ∈ after.idems := by
  obtain ⟨record, expires_at_us, rfl⟩ := recorded
  obtain ⟨middle, first, last⟩ := transact_append.mp applied
  obtain ⟨final, second, done⟩ := transact_ok.mp last
  obtain ⟨absent, rfl⟩ := apply_put.mp second
  cases done
  have missing : key ∉ middle.idems := by
    rw [require_absent] at absent
    rw [Std.ExtTreeMap.mem_iff_isSome_getElem?, show middle.idems[key]? = none from absent]
    exact Bool.false_ne_true
  exact ⟨fun remembered => missing (transact_remembers (carries_spares carries) first remembered),
    by simp [Partition.put]⟩

end Transaction

/-! ## Every interleaving -/

section Together

variable {ι : Type} {corpus : Corpus} {env : EnvId} {calls : ι → RefCall} {key : String}

theorem same_self (partition : Partition) : partition.Same partition := ⟨rfl, rfl, rfl, rfl, rfl⟩

/-- A step of a request keeps the key's record, and commits with the key only where there was none. -/
theorem exec_remembers {party : ι} {command : Cmd} {world : World}
    (fits : KeyedCmd env (calls party).key (fun _ => True) command) :
    (Remembered env key world → Remembered env key (exec corpus command world).2) ∧
      (Commits env calls key ⟨party, world, (exec corpus command world).2⟩ →
        ¬ Remembered env key world ∧ Remembered env key (exec corpus command world).2) := by
  have still (same : (exec corpus command world).2 = world) :
      (Remembered env key world → Remembered env key (exec corpus command world).2) ∧
        (Commits env calls key ⟨party, world, (exec corpus command world).2⟩ →
          ¬ Remembered env key world ∧ Remembered env key (exec corpus command world).2) := by
    rw [same]
    exact ⟨id, fun commits => absurd (same_self _) commits.2⟩
  cases command with
  | now_us | meta_get => exact still rfl
  | transact_write pk writes =>
    obtain ⟨rfl, move, built, recording, rfl, carries, -, recorded⟩ := fits
    cases applied : (world.partition pk).transact_write (built ++ recording) with
    | error error => exact still (by simp only [exec, applied])
    | ok after =>
      have done : (exec corpus (.transact_write pk (built ++ recording)) world).2 = world.with_partition pk after := by
        simp only [exec, applied]
      rw [done, Remembered, Remembered, partition_with_self]
      refine ⟨transact_remembers (carries_spares (carries_append carries (recording_accessory recorded))) applied,
        fun commits => ?_⟩
      rw [commits.1] at recorded
      exact keyed_transact carries recorded applied
  | _ => cases fits

theorem step_once {party : ι} {command : Cmd} {account : Account ι}
    (fits : KeyedCmd env (calls party).key (fun _ => True) command) (once : Once env calls key account) :
    Once env calls key (Account.exec corpus party command account).2 := by
  obtain ⟨keeps, commits⟩ := @exec_remembers _ corpus env calls key party command account.state fits
  refine ⟨List.pairwise_cons.mpr ⟨fun earlier member both => ?_, once.once⟩, fun taken member effective => ?_⟩
  next => exact (commits both.1).1 (once.told earlier member both.2)
  next =>
    rcases List.mem_cons.mp member with rfl | before
    next => exact (commits effective).2
    next => exact keeps (once.told taken before effective)

/-- However requests with one key interleave, among themselves and with others, no two of their steps change
refs, op log, counter, change records or events. -/
theorem one_effect_per_key [DecidableEq ι] (corpus : Corpus) (env : EnvId) (calls : ι → RefCall) (key : String)
    (world : World) {after : Pool ι Cmd Cmd.Response PyError (fun _ => Unit) (Account ι)}
    (run : Pool.Run (requests corpus) (Lasting env key) ⟨⟨world, []⟩, fun party => (calls party).code env⟩ after) :
    after.shared.steps.Pairwise fun later earlier =>
      ¬ (Commits env calls key later ∧ Commits env calls key earlier) := by
  have yields (party : ι) : ((calls party).code env).Yields
      (KeyedCmd env (calls party).key fun _ => True) (fun _ _ => True) fun _ => True :=
    (@code_keyed _ _ (fun _ _ => True) (fun _ _ => trivial) (calls party)).mono (KeyedCmd.mono fun _ _ => trivial)
      fun _ met => met
  have held := Pool.run_keeps (I := Once env calls key) yields (fun _ _ _ _ => trivial)
    (fun party command account fits _ once => step_once fits once)
    (fun first second (lasts : Lasting env key first second) once =>
      ⟨lasts.1 ▸ once.once, fun taken member effective => lasts.2 (once.told taken (lasts.1 ▸ member) effective)⟩)
    ⟨List.Pairwise.nil, fun _ impossible => by cases impossible⟩ run
  exact held.once

end Together

/-- Two retries of one creation. -/
def retries (target : ObjectName) (_ : Bool) : RefCall :=
  .create DEFAULT_REF target "a" .permanent none none (some "k") none

theorem one_effect_per_key_retried :
    ((([(true, 20), (false, 20)].foldl (fun before turn => before.turn (requests .none) turn.1 turn.2)
      (⟨⟨newEnv, []⟩, fun party => (retries firstTarget party).code ⟨"env"⟩⟩ :
        Pool Bool Cmd Cmd.Response PyError (fun _ => Unit) (Account Bool))).shared.steps).Pairwise fun later earlier =>
          ¬ (Commits ⟨"env"⟩ (retries firstTarget) "k" later ∧ Commits ⟨"env"⟩ (retries firstTarget) "k" earlier)) :=
  one_effect_per_key .none ⟨"env"⟩ (retries firstTarget) "k" newEnv (Pool.Run.turns (fun _ _ _ => trivial) _ _)

end LedgerVcs
