import Mathlib.Tactic

set_option autoImplicit false

/-! Code that leaves its state behind also when it fails. -/

abbrev Failing (σ ε : Type) := ExceptT ε (StateM σ)

namespace Failing

variable {σ ε α β : Type}

def exec (act : Failing σ ε α) (state : σ) : Except ε α × σ := act.run.run state

/-- From a state that meets the precondition, it returns with the one postcondition or fails with the other. -/
def Triple (pre : σ → Prop) (act : Failing σ ε α) (post : α → σ → Prop) (failed : σ → Prop) : Prop :=
  ∀ state, pre state →
    match act.exec state with
    | (.ok value, after) => post value after
    | (.error _, after) => failed after

/-- The answer of code that has its own effect on the state. -/
def ofStep (step : σ → Except ε α × σ) : Failing σ ε α := ExceptT.mk fun state => step state

theorem exec_ofStep (step : σ → Except ε α × σ) (state : σ) : (ofStep step).exec state = step state := rfl

theorem exec_bind (act : Failing σ ε α) (rest : α → Failing σ ε β) (state : σ) :
    (act >>= rest).exec state =
      match act.exec state with
      | (.ok value, after) => (rest value).exec after
      | (.error error, after) => (.error error, after) := by
  simp only [exec, ExceptT.run_bind, StateT.run_bind]
  cases act.run.run state with
  | mk outcome after => cases outcome <;> rfl

theorem exec_bind_ok {act : Failing σ ε α} {rest : α → Failing σ ε β} {state after : σ} {value : β} :
    (act >>= rest).exec state = (.ok value, after) ↔
      ∃ first middle, act.exec state = (.ok first, middle) ∧ (rest first).exec middle = (.ok value, after) := by
  rw [exec_bind]
  rcases act.exec state with ⟨error | first, middle⟩
  next => simp
  next =>
    constructor
    next => exact fun ran => ⟨first, middle, rfl, ran⟩
    next =>
      rintro ⟨other, later, same, ran⟩
      cases same
      exact ran

theorem exec_map_ok {act : Failing σ ε α} {f : α → β} {state after : σ} {value : β} :
    (f <$> act).exec state = (.ok value, after) ↔ ∃ first, act.exec state = (.ok first, after) ∧ f first = value := by
  rw [← bind_pure_comp, exec_bind_ok]
  constructor
  next =>
    rintro ⟨first, middle, ran, returned⟩
    cases returned
    exact ⟨first, ran, rfl⟩
  next =>
    rintro ⟨first, ran, rfl⟩
    exact ⟨first, after, ran, rfl⟩

theorem exec_liftExcept (outcome : Except ε α) (state : σ) : (liftExcept outcome : Failing σ ε α).exec state = (outcome, state) := by
  cases outcome <;> rfl

/-! ## Rules -/

section Rules

variable {pre : σ → Prop} {post : α → σ → Prop} {failed : σ → Prop}

theorem triple_pure {value : α} (met : ∀ state, pre state → post value state) : Triple pre (pure value : Failing σ ε α) post failed :=
  fun state holds => met state holds

theorem triple_bind {act : Failing σ ε α} {rest : α → Failing σ ε β} {middle : α → σ → Prop} {post : β → σ → Prop}
    (first : Triple pre act middle failed) (others : ∀ value, Triple (middle value) (rest value) post failed) :
    Triple pre (act >>= rest) post failed := by
  intro state holds
  have here := first state holds
  rw [exec_bind]
  cases ran : act.exec state with
  | mk outcome after =>
    rw [ran] at here
    cases outcome with
    | error error => exact here
    | ok value => exact others value after here

theorem triple_mono {act : Failing σ ε α} {stronger : σ → Prop} {weaker : α → σ → Prop} {fails : σ → Prop}
    (triple : Triple pre act post failed) (before : ∀ state, stronger state → pre state)
    (after : ∀ value state, post value state → weaker value state) (fail : ∀ state, failed state → fails state) :
    Triple stronger act weaker fails := by
  intro state holds
  have here := triple state (before state holds)
  cases ran : act.exec state with
  | mk outcome later =>
    rw [ran] at here
    cases outcome with
    | error error => exact fail later here
    | ok value => exact after value later here

/-- What holds whatever the state is taken out of the precondition. -/
theorem triple_fact {act : Failing σ ε α} {fact : Prop} (triple : fact → Triple pre act post failed) :
    Triple (fun state => pre state ∧ fact) act post failed := fun state met => triple met.2 state met.1

theorem triple_step {step : σ → Except ε α × σ}
    (met : ∀ state, pre state → match step state with | (.ok value, after) => post value after | (.error _, after) => failed after) :
    Triple pre (ofStep step) post failed := met

theorem triple_except {outcome : Except ε α} (fails : ∀ state, pre state → failed state) :
    Triple pre (liftExcept outcome : Failing σ ε α) (fun value state => pre state ∧ outcome = .ok value) failed := by
  intro state holds
  rw [exec_liftExcept]
  cases outcome with
  | error error => exact fails state holds
  | ok value => exact ⟨holds, rfl⟩

theorem triple_throw {error : ε} (fails : ∀ state, pre state → failed state) : Triple pre (throw error : Failing σ ε α) post failed :=
  fun state holds => fails state holds

/-- A loop that keeps what each of its rounds keeps; the list given is what it has been through. -/
theorem triple_foldlM {δ : Type} {round : β → δ → Failing σ ε β} {invariant : List δ → β → σ → Prop} {items : List δ} {start : β}
    (rounds : ∀ done item so_far, item ∈ items → Triple (invariant done so_far) (round so_far item) (invariant (done ++ [item])) failed)
    (done : List δ) : Triple (invariant done start) (items.foldlM round start) (invariant (done ++ items)) failed := by
  induction items generalizing done start with
  | nil =>
    rw [List.foldlM_nil, List.append_nil]
    exact triple_pure fun _ holds => holds
  | cons item items ih =>
    rw [List.foldlM_cons]
    refine triple_bind (rounds done item start List.mem_cons_self) fun so_far => ?_
    have later := @ih so_far (fun done other so_far member => rounds done other so_far (List.mem_cons_of_mem _ member)) (done ++ [item])
    rwa [List.append_assoc, List.singleton_append] at later

end Rules

end Failing
