import LedgerVcs.Meta.Idempotency
import LedgerVcs.Meta.Retries

set_option autoImplicit false

/-! What undoing an entry brings back. -/

namespace LedgerVcs

open Prog (Pool)

/-! ## A ref as its users see it -/

/-- Whether the ref is there, its target, its lifecycle and its expiry. -/
def Partition.view (partition : Partition) (name : RefName) : Option (ObjectName × RefLifecycle × Option Int) :=
  (partition.refs[name]?).map fun row => (row.body.target, row.body.lifecycle, row.body.expires_at_us)

/-- What the undo of an entry makes of the ref: it points where the entry found it, and lives on as it is. -/
def undone (before : Option ObjectName) (current : Option (ObjectName × RefLifecycle × Option Int)) :
    Option (ObjectName × RefLifecycle × Option Int) :=
  before.map fun target => (target, current.elim (.permanent, none) Prod.snd)

section Views

variable {corpus : Corpus} {env : EnvId} {world after : World} {partition : Partition}

theorem move_view {move : Move} {writes : List WriteOp} {after : Partition} (carries : Carries move writes)
    (applied : partition.transact_write writes = .ok after) :
    after.view move.name = (move.placed.map fun ref => (ref.target, ref.lifecycle, ref.expires_at_us)) ∧
      ∀ other, other ≠ move.name → after.refs[other]? = partition.refs[other]? := by
  obtain ⟨-, -, -, refs, -⟩ := transact_move carries applied
  rw [Partition.view, refs, Move.refs]
  cases move.placed with
  | none =>
    refine ⟨by simp, fun other different => ?_⟩
    simp [Std.ExtTreeMap.getElem?_erase, different.symm]
  | some ref =>
    refine ⟨by simp, fun other different => ?_⟩
    simp [Std.ExtTreeMap.getElem?_insert, different.symm]

theorem undo_entry_view {sequence : Nat} {principal : String} {key : Option String} {name : RefName}
    {before : Option ObjectName} {current : Option (Item Ref)} {update : RefUpdate}
    (here : (world.partition env).refs[name]? = current)
    (ran : runs corpus (undo_entry env sequence principal key name before (current.map Item.body)) world =
      (.ok update, after)) :
    ((world.partition env).recorded key ≠ none ∧ world = after) ∨
      ((world.partition env).recorded key = none ∧
        (after.partition env).view name = undone before ((world.partition env).view name) ∧
        ∀ other, other ≠ name → (after.partition env).refs[other]? = (world.partition env).refs[other]?) := by
  have mutated {mutation : Mutation} (named : mutation.name = name) (keyed : mutation.idempotency_key = key)
      (ran : runs corpus (mutate_ref env mutation) world = (.ok update, after))
      (puts : some (mutation.target, mutation.lifecycle, mutation.expiry world.clock) =
        undone before ((world.partition env).view name)) :
      ((world.partition env).recorded key ≠ none ∧ world = after) ∨
        ((world.partition env).recorded key = none ∧
          (after.partition env).view name = undone before ((world.partition env).view name) ∧
          ∀ other, other ≠ name → (after.partition env).refs[other]? = (world.partition env).refs[other]?) := by
    obtain ⟨-, ⟨-, same, ⟨record, found, -⟩, -⟩ | ⟨-, -, missing, committed⟩⟩ := mutate_ref_ran ran
    next =>
      rw [keyed] at found
      exact .inl ⟨by simp [found], same⟩
    next =>
      rw [keyed] at missing
      obtain ⟨version, writes, final, carries, applied, rfl⟩ := committed_move
        (fun sequence version => build_runs mutation world.clock sequence version) committed
      obtain ⟨seen, others⟩ := move_view carries applied
      rw [partition_with_self]
      refine .inr ⟨missing, ?_, fun other different => others other fun same => different (same.trans named)⟩
      rw [← puts, ← named]
      exact seen
  cases before with
  | none =>
    cases current with
    | none => cases ran
    | some row =>
      obtain ⟨number, middle, deleted, ran⟩ := runs_bind.mp ran
      cases ran
      obtain ⟨seen, there, ⟨same, record, found, -⟩ | ⟨missing, committed⟩⟩ := delete_ref_ran deleted
      next => exact .inl ⟨by simp [found], same⟩
      next =>
        obtain ⟨version, writes, final, carries, applied, rfl⟩ := committed_move
          (fun sequence version => delete_build_runs name _ principal _ sequence version) committed
        obtain ⟨seen, others⟩ := move_view carries applied
        rw [partition_with_self]
        exact .inr ⟨missing, seen, others⟩
  | some target =>
    cases current with
    | none =>
      refine mutated rfl rfl ran ?_
      rw [Partition.view, here]
      rfl
    | some row =>
      rw [show undo_entry env sequence principal key name (some target) ((some row).map Item.body) =
        update_ref env name row.body.generation target principal none key none .undo from rfl, runs_update_ref, here] at ran
      simp only at ran
      split at ran
      next => cases ran
      next =>
        refine mutated rfl rfl ran ?_
        rw [Partition.view, here]
        rfl

end Views

/-! ## Entries and the steps that appended them -/

section Entries

variable {ι : Type} {corpus : Corpus} {env : EnvId} {calls : ι → RefCall}

/-- The step appended the entry. -/
def Appended (env : EnvId) (taken : Taken ι) (number : Nat) (item : Item OpLogEntry) : Prop :=
  (taken.before.partition env).ops[number]? = none ∧ (taken.after.partition env).ops[number]? = some item

/-- Whatever else goes on leaves the environment alone. -/
def LeavesEnv (env : EnvId) (before after : Account ι) : Prop :=
  after.steps = before.steps ∧ after.state.partition env = before.state.partition env

/-- A later entry of the same ref, or the ref is as the step left it. -/
def LeftStanding (env : EnvId) (state : World) (taken : Taken ι) (number : Nat) (name : RefName) : Prop :=
  (∃ later item, number < later ∧ (state.partition env).ops[later]? = some item ∧ item.body.ref = some name) ∨
    (state.partition env).refs[name]? = (taken.after.partition env).refs[name]?

/-- What holds of every entry that a step has appended. -/
structure Lasts (env : EnvId) (state : World) (taken : Taken ι) (number : Nat) (item : Item OpLogEntry) (name : RefName) :
    Prop where
  logged : (state.partition env).ops[number]? = some item
  standing : LeftStanding env state taken number name
  creates : item.body.before = none → (taken.before.partition env).refs[name]? = none

/-- The log counts on, and its entries last. -/
structure Logged (env : EnvId) (account : Account ι) : Prop where
  counts : Counts (account.state.partition env)
  lasts : ∀ taken ∈ account.steps, ∀ number item name, Appended env taken number item → item.body.ref = some name →
    Lasts env account.state taken number item name

/-- A move that records no target before it is a creation. -/
theorem moves_before {answers : (command : Cmd) → command.Response → Prop} {tally : Nat → Nat → Prop} {call : RefCall}
    {move : Move} (fits : call.Moves answers tally env move) (nothing : move.entry.before = none) :
    move.condition = .absent := by
  cases call with
  | create => exact fits.2.1
  | update =>
    obtain ⟨_, _, puts⟩ := fits
    cases puts.2.2.2.1.symm.trans nothing
  | delete =>
    obtain ⟨_, _, drops⟩ := fits
    cases drops.2.2.2.1.symm.trans nothing
  | undo =>
    obtain ⟨_, _, _, _, kinds⟩ := fits
    rcases kinds with ⟨_, _, _, _, drops⟩ | ⟨_, _, _, puts⟩ | ⟨_, _, _, _, _, _, puts⟩
    next => cases drops.2.2.2.1.symm.trans nothing
    next => exact puts.2.1
    next => cases puts.2.2.2.1.symm.trans nothing

theorem idle_logged {account : Account ι} {party : ι} {state : World} (logged : Logged env account)
    (same : state.partition env = account.state.partition env) :
    Logged env (⟨state, ⟨party, account.state, state⟩ :: account.steps⟩ : Account ι) := by
  refine ⟨?_, fun taken member number item name appended moved => ?_⟩
  next =>
    rw [same]
    exact logged.counts
  next =>
    rcases List.mem_cons.mp member with rfl | before
    next =>
      have kept := appended.2
      rw [same] at kept
      cases appended.1.symm.trans kept
    next =>
      obtain ⟨entry, standing, creates⟩ := logged.lasts taken before number item name appended moved
      refine ⟨?_, ?_, creates⟩
      next =>
        rw [same]
        exact entry
      next =>
        rw [LeftStanding, same]
        exact standing

theorem moving_logged {account : Account ι} {party : ι} {move : Move} {writes : List WriteOp} {final : Partition}
    (logged : Logged env account) (carries : Carries move writes) (tallied : move.sequence = move.version)
    (creates : move.entry.before = none → move.condition = .absent)
    (applied : (account.state.partition env).transact_write writes = .ok final) :
    Logged env (⟨account.state.with_partition env final,
      ⟨party, account.state, account.state.with_partition env final⟩ :: account.steps⟩ : Account ι) := by
  obtain ⟨required, version, missing, refs, -, ops, -⟩ := transact_move carries applied
  obtain ⟨-, others⟩ := move_view carries applied
  have current {number : Nat} {item : Item OpLogEntry} (found : final.ops[number]? = some item) :
      (number = move.sequence ∧ item = ⟨move.entry, 1, none, none⟩) ∨
        (number ≠ move.sequence ∧ (account.state.partition env).ops[number]? = some item) := by
    rw [ops, Std.ExtTreeMap.getElem?_insert] at found
    split at found
    next same => exact .inl ⟨(Std.LawfulEqCmp.eq_of_compare same).symm, (Option.some.inj found).symm⟩
    next different =>
      exact .inr ⟨fun same => different (Std.LawfulEqCmp.compare_eq_iff_eq.mpr same.symm), found⟩
  refine ⟨?_, fun taken member number item name appended moved => ?_⟩
  next =>
    rw [partition_with_self]
    exact move_counts logged.counts carries tallied applied
  next =>
    rcases List.mem_cons.mp member with rfl | before
    next =>
      obtain ⟨absent, found⟩ := appended
      rw [partition_with_self] at found
      rcases current found with ⟨rfl, rfl⟩ | ⟨-, impossible⟩
      next =>
        obtain rfl := Option.some.inj (carries.2.1.symm.trans moved)
        refine ⟨?_, .inr rfl, fun nothing => ?_⟩
        next =>
          rw [partition_with_self]
          exact found
        next =>
          rw [creates nothing] at required
          exact require_absent.mp required
      next => cases absent.symm.trans impossible
    next =>
      obtain ⟨entry, standing, created⟩ := logged.lasts taken before number item name appended moved
      have different : number ≠ move.sequence := fun same => by
        rw [← same] at missing
        cases missing.symm.trans entry
      have kept {other : Nat} {found : Item OpLogEntry} (there : (account.state.partition env).ops[other]? = some found) :
          final.ops[other]? = some found := by
        have apart : move.sequence ≠ other := fun same => by
          rw [same] at missing
          cases missing.symm.trans there
        rw [ops, Std.ExtTreeMap.getElem?_insert, if_neg fun same => apart (Std.LawfulEqCmp.eq_of_compare same)]
        exact there
      refine ⟨?_, ?_, created⟩
      next =>
        rw [partition_with_self]
        exact kept entry
      next =>
        rw [LeftStanding, partition_with_self]
        rcases standing with ⟨later, other, above, found, same⟩ | there
        next => exact .inl ⟨later, other, above, kept found, same⟩
        next =>
          by_cases same : name = move.name
          next =>
            -- The new entry is the log's last, and it is of this ref.
            refine .inl ⟨move.sequence, ⟨move.entry, 1, none, none⟩, ?_, ?_, ?_⟩
            next =>
              obtain ⟨count, faithful, counted⟩ := logged.counts
              have within := ((faithful.dense number).mp (by rw [entry]; rfl)).2
              have next := Option.some.inj (version.symm.trans counted)
              omega
            next =>
              rw [ops]
              exact Std.ExtTreeMap.getElem?_insert_self
            next => rw [same]; exact carries.2.1
          next =>
            right
            rw [others name same]
            exact there

theorem step_logged {party : ι} {command : Cmd} {account : Account ι}
    (fits : RefCmd env ((calls party).Moves (Counted env) Eq env) command) (logged : Logged env account) :
    Logged env (Account.exec corpus party command account).2 := by
  cases command with
  | now_us | meta_get => exact idle_logged logged rfl
  | transact_write pk writes =>
    obtain ⟨rfl, move, carries, met⟩ := fits
    cases applied : (account.state.partition pk).transact_write writes with
    | error error =>
      have same : (exec corpus (.transact_write pk writes) account.state).2 = account.state := by
        simp only [exec, applied]
      rw [Account.exec, same]
      exact idle_logged logged rfl
    | ok final =>
      have done : (exec corpus (.transact_write pk writes) account.state).2 = account.state.with_partition pk final := by
        simp only [exec, applied]
      rw [Account.exec, done]
      exact moving_logged logged carries (moves_tally met) (moves_before met) applied
  | _ => cases fits

theorem run_logged [DecidableEq ι] {world : World} (fresh : Fresh (world.partition env))
    {after : Pool ι Cmd Cmd.Response PyError (fun _ => Unit) (Account ι)}
    (run : Pool.Run (requests corpus) (LeavesEnv env) ⟨⟨world, []⟩, fun party => (calls party).code env⟩ after) :
    Logged env after.shared := by
  have yields (party : ι) : ((calls party).code env).Yields
      (RefCmd env ((calls party).Moves (Counted env) Eq env)) (Counted env) fun _ => True :=
    code_yields (fun item fits => fits rfl item rfl) _
  refine Pool.run_keeps (I := Logged env) yields
    (fun _ command account logged => exec_counted logged.counts command)
    (fun party command account fits _ logged => step_logged fits logged)
    (fun first second (passes : LeavesEnv env first second) logged => ?_)
    ⟨fresh_counts fresh, fun taken impossible => by cases impossible⟩ run
  obtain ⟨steps, same⟩ := passes
  refine ⟨by rw [same]; exact logged.counts, fun taken member number item name appended moved => ?_⟩
  obtain ⟨entry, standing, creates⟩ := logged.lasts taken (steps ▸ member) number item name appended moved
  refine ⟨?_, ?_, creates⟩
  next =>
    rw [same]
    exact entry
  next =>
    rw [LeftStanding, same]
    exact standing

end Entries

/-! ## Undoing the latest entry of a ref -/

/-- The ref is as it was before the step, and every other ref as it is. -/
def Restores (env : EnvId) (name : RefName) (earlier now later : World) : Prop :=
  (later.partition env).view name = (earlier.partition env).view name ∧
    ∀ other, other ≠ name → (later.partition env).refs[other]? = (now.partition env).refs[other]?

/-- A creation; a move of a ref that was where the entry says and has kept its lifecycle and its expiry; or the deletion
of a permanent ref that had no expiry and was where the entry says. -/
def Undoable (entry : OpLogEntry) (earlier later : Partition) (name : RefName) : Prop :=
  match entry.before, later.view name with
  | none, _ => True
  | some target, some (_, lifecycle, expires_at_us) => earlier.view name = some (target, lifecycle, expires_at_us)
  | some target, none => earlier.view name = some (target, .permanent, none)

/-- In every state that any number of calls reach in any order of their steps, a successful undo of the latest entry of
a ref restores the ref exactly if its key has no record and the entry is undoable, or the key has a record and the
entry had changed nothing that is seen. -/
theorem undo_exact {ι : Type} [DecidableEq ι] (corpus : Corpus) (env : EnvId) (calls : ι → RefCall) (world : World)
    (fresh : Fresh (world.partition env)) {after : Pool ι Cmd Cmd.Response PyError (fun _ => Unit) (Account ι)}
    (run : Pool.Run (requests corpus) (LeavesEnv env) ⟨⟨world, []⟩, fun party => (calls party).code env⟩ after)
    (taken : Taken ι) (member : taken ∈ after.shared.steps) (number : Nat) (item : Item OpLogEntry) (name : RefName)
    (appended : Appended env taken number item) (moved : item.body.ref = some name)
    (latest : ∀ (later : Nat) (other : Item OpLogEntry), (after.shared.state.partition env).ops[later]? = some other →
      other.body.ref = some name → later ≤ number)
    (principal : String) (key : Option String) (update : RefUpdate) (final : World)
    (ran : runs corpus (undo env number principal key) after.shared.state = (.ok update, final)) :
    Restores env name taken.before after.shared.state final ↔
      match (after.shared.state.partition env).recorded key with
      | none => Undoable item.body (taken.before.partition env) (taken.after.partition env) name
      | some _ => (taken.after.partition env).view name = (taken.before.partition env).view name := by
  obtain ⟨logged, standing, creates⟩ := (run_logged fresh run).lasts taken member number item name appended moved
  have here : (after.shared.state.partition env).refs[name]? = (taken.after.partition env).refs[name]? := by
    rcases standing with ⟨later, other, above, found, same⟩ | here
    next =>
      have within := latest later other found same
      omega
    next => exact here
  have seen : (after.shared.state.partition env).view name = (taken.after.partition env).view name := by
    rw [Partition.view, here, Partition.view]
  rw [runs_undo logged moved] at ran
  rcases undo_entry_view rfl ran with ⟨recorded, rfl⟩ | ⟨recorded, changed, others⟩
  next =>
    cases found : (after.shared.state.partition env).recorded key with
    | none => exact absurd found recorded
    | some record =>
      rw [Restores, seen]
      exact ⟨And.left, fun same => ⟨same, fun _ _ => rfl⟩⟩
  next =>
    rw [recorded, Restores, changed, seen]
    refine (and_iff_left others).trans ?_
    rw [Undoable, undone]
    cases earlier : item.body.before with
    | none => simp [Partition.view, creates earlier]
    | some target => cases (taken.after.partition env).view name <;> exact eq_comm

/-! ## Two undos -/

/-- One client has created the main ref, the other has yet to begin. -/
def createdAlone : Account Bool :=
  ((⟨⟨newEnv, []⟩, fun party => (createAndDelete firstTarget party).code ⟨"env"⟩⟩ :
    Pool Bool Cmd Cmd.Response PyError (fun _ => Unit) (Account Bool)).turn (requests .none) true 20).shared

/-- The step that created it. -/
def createdStep : Taken Bool := createdAlone.steps.head (by decide)

def createdEntry : Item OpLogEntry :=
  ⟨⟨1, .create_ref, some DEFAULT_REF, none, some firstTarget, "a", 0⟩, 1, none, none⟩

def createdUndone : World := (runs .none (undo ⟨"env"⟩ 1 "b" none) createdAlone.state).2

theorem undo_exact_created :
    Restores ⟨"env"⟩ DEFAULT_REF createdStep.before createdAlone.state createdUndone := by
  refine (undo_exact .none ⟨"env"⟩ (createAndDelete firstTarget) newEnv newEnv_fresh
    (Pool.Run.turns (fun _ _ _ => trivial) [(true, 20)] _) createdStep (List.head_mem _) 1 createdEntry DEFAULT_REF
    ⟨by decide, by decide⟩ rfl (fun later other found _ => ?_) "b" none
    ⟨⟨DEFAULT_REF, firstTarget, 1, .permanent, none, "a", 0⟩, 1, false⟩ createdUndone
    (Prod.ext (by decide) rfl)).mpr trivial
  have rows : ∀ row ∈ (createdAlone.state.partition ⟨"env"⟩).ops.toList, row.1 ≤ 1 := by decide
  exact rows (later, other) (Std.ExtTreeMap.mem_toList_iff_getElem?_eq_some.mpr found)

/-- An ephemeral ref. -/
def shortLived : World :=
  (runs .none (create_ref ⟨"env"⟩ DEFAULT_REF firstTarget "a" .ephemeral (some 100) none none none) newEnv).2

def shortLivedDropped : World := (runs .none (delete_ref ⟨"env"⟩ DEFAULT_REF 1 "a" none) shortLived).2

/-- The deletion's undo brings it back as a permanent ref without expiry. -/
theorem brought_back_for_good :
    (runs .none (undo ⟨"env"⟩ 2 "a" none) shortLivedDropped).1.toBool = true ∧
      ¬ Restores ⟨"env"⟩ DEFAULT_REF shortLived shortLivedDropped
        (runs .none (undo ⟨"env"⟩ 2 "a" none) shortLivedDropped).2 := by
  refine ⟨by decide, fun restores => ?_⟩
  have before : (shortLived.partition ⟨"env"⟩).view DEFAULT_REF = some (firstTarget, .ephemeral, some 100) := by
    decide
  have after : ((runs .none (undo ⟨"env"⟩ 2 "a" none) shortLivedDropped).2.partition ⟨"env"⟩).view DEFAULT_REF =
      some (firstTarget, .permanent, none) := by decide
  cases before.symm.trans (restores.1.symm.trans after)

end LedgerVcs
