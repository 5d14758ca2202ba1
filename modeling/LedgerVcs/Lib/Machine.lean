import Mathlib.Tactic

set_option autoImplicit false

/-! Deterministic machines and what holds along their runs. -/

namespace Machine

variable {S A : Type} (step : S → A → S)

def run (actions : List A) (state : S) : S := actions.foldl step state

/-- Each action of a run, in the state it is taken from. -/
def Along (may : S → A → Prop) : List A → S → Prop
  | [], _ => True
  | action :: actions, state => may state action ∧ Along may actions (step state action)

instance Along.decidable {may : S → A → Prop} [∀ state action, Decidable (may state action)] :
    (actions : List A) → (state : S) → Decidable (Along step may actions state)
  | [], _ => isTrue trivial
  | action :: actions, state =>
    have := @decidable may _ actions (step state action)
    inferInstanceAs (Decidable (may state action ∧ Along step may actions (step state action)))

/-- Every state of a run, the first and the last included. -/
def Throughout (holds : S → Prop) : List A → S → Prop
  | [], state => holds state
  | action :: actions, state => holds state ∧ Throughout holds actions (step state action)

variable {step} {may : S → A → Prop} {holds : S → Prop} {state : S}

@[simp] theorem run_nil : run step [] state = state := rfl

@[simp] theorem run_cons (action : A) (actions : List A) :
    run step (action :: actions) state = run step actions (step state action) := rfl

theorem run_append (first second : List A) :
    run step (first ++ second) state = run step second (run step first state) :=
  List.foldl_append

theorem along_append {first second : List A} :
    Along step may (first ++ second) state ↔
      Along step may first state ∧ Along step may second (run step first state) := by
  induction first generalizing state with
  | nil => simp [Along]
  | cons action first ih => simp only [List.cons_append, Along, ih, run_cons, and_assoc]

theorem along_true (actions : List A) (state : S) : Along step (fun _ _ => True) actions state := by
  induction actions generalizing state with
  | nil => trivial
  | cons action actions ih => exact ⟨trivial, ih _⟩

theorem Throughout.last {actions : List A} (always : Throughout step holds actions state) :
    holds (run step actions state) := by
  induction actions generalizing state with
  | nil => exact always
  | cons action actions ih => exact ih always.2

/-- What every action that may be taken keeps, every run of such actions keeps. -/
theorem run_keeps {I : S → Prop} {actions : List A} (keeps : ∀ state action, may state action → I state → I (step state action))
    (along : Along step may actions state) (initially : I state) : I (run step actions state) := by
  induction actions generalizing state with
  | nil => exact initially
  | cons action actions ih => exact ih along.2 (keeps _ _ along.1 initially)

/-- A property that the invariant gives, and that an action which may not be taken destroys, holds throughout
exactly the runs of actions that may be taken. -/
theorem throughout_iff_along {I : S → Prop} {actions : List A} (gives : ∀ state, I state → holds state)
    (keeps : ∀ state action, may state action → I state → I (step state action))
    (destroyed : ∀ state action, I state → holds (step state action) → may state action) (initially : I state) :
    Throughout step holds actions state ↔ Along step may actions state := by
  induction actions generalizing state with
  | nil => exact ⟨fun _ => trivial, fun _ => gives _ initially⟩
  | cons action actions ih =>
    constructor
    next =>
      rintro ⟨-, rest⟩
      have first : holds (step state action) := by
        cases actions with
        | nil => exact rest
        | cons => exact rest.1
      have fits := destroyed _ _ initially first
      exact ⟨fits, (ih (keeps _ _ fits initially)).mp rest⟩
    next =>
      rintro ⟨fits, rest⟩
      exact ⟨gives _ initially, (ih (keeps _ _ fits initially)).mpr rest⟩

/-! ## Machines that answer -/

section Answering

variable {T Q R : Type}

/-- The answers to questions that are put one after the other, and the state in which the last one is left. -/
def answers (serve : Q → S → R × S) : List Q → S → List R × S
  | [], state => ([], state)
  | question :: questions, state =>
    let served := serve question state
    let rest := answers serve questions served.2
    (served.1 :: rest.1, rest.2)

/-- Two machines whose states stay related, and that answer each question alike in related states, answer every
run of questions alike. -/
theorem answers_agree {serve : Q → S → R × S} {serve' : Q → T → R × T} {related : S → T → Prop} {questions : List Q}
    (agree : ∀ question ∈ questions, ∀ state state', related state state' →
      (serve question state).1 = (serve' question state').1 ∧ related (serve question state).2 (serve' question state').2)
    {state : S} {state' : T} (initially : related state state') :
    (answers serve questions state).1 = (answers serve' questions state').1 ∧
      related (answers serve questions state).2 (answers serve' questions state').2 := by
  induction questions generalizing state state' with
  | nil => exact ⟨rfl, initially⟩
  | cons question questions ih =>
    obtain ⟨same, later⟩ := agree question List.mem_cons_self state state' initially
    obtain ⟨others, last⟩ := ih (fun next there => agree next (List.mem_cons_of_mem _ there)) later
    refine ⟨?_, last⟩
    simp only [answers]
    rw [same, others]

end Answering

end Machine
