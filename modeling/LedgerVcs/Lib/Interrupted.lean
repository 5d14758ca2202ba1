import LedgerVcs.Lib.Prog

set_option autoImplicit false

/-! Programs that run alone, to their end or up to an interruption. -/

namespace Prog

variable {C : Type} {R : C → Type} {ε α β W : Type} {exec : (command : C) → W → R command × W}

theorem run_bind_eq_ok {p : Prog C R ε α} {rest : α → Prog C R ε β} {state after : W} {value : β} :
    run exec (p >>= rest) state = (.ok value, after) ↔
      ∃ first middle, run exec p state = (.ok first, middle) ∧ run exec (rest first) middle = (.ok value, after) := by
  rw [run_bind]
  constructor
  next =>
    intro returns
    rcases done : run exec p state with ⟨outcome, middle⟩
    rw [done] at returns
    cases outcome with
    | error error => cases returns
    | ok first => exact ⟨first, middle, rfl, returns⟩
  next =>
    rintro ⟨first, middle, done, returns⟩
    rw [done]
    exact returns

theorem run_bind_error {p : Prog C R ε α} {state after : W} {error : ε}
    (raises : run exec p state = (.error error, after)) (rest : α → Prog C R ε β) :
    run exec (p >>= rest) state = (.error error, after) := by
  rw [run_bind, raises]

/-- A handler that only raises leaves the results of what it guards. -/
theorem run_handling_ok {p : Prog C R ε α} {handler : ε → Prog C R ε α} {state after : W} {value : α}
    (raises : ∀ error now returned, (run exec (handler error) now).1 ≠ .ok returned)
    (returns : run exec (p.handling handler) state = (.ok value, after)) : run exec p state = (.ok value, after) := by
  rw [run_handling] at returns
  rcases done : run exec p state with ⟨outcome, middle⟩
  rw [done] at returns
  cases outcome with
  | ok returned => exact returns
  | error error => exact absurd (congrArg Prod.fst returns) (raises error middle value)

theorem run_handled {p : Prog C R ε α} {state after : W} {value : α}
    (returns : run exec p state = (.ok value, after)) (handler : ε → Prog C R ε α) :
    run exec (p.handling handler) state = (.ok value, after) := by
  rw [run_handling, returns]

theorem run_ensuring {p : Prog C R ε α} {cleanup : Prog C R ε Unit} {state middle after : W} {outcome : Except ε α}
    (body : run exec p state = (outcome, middle)) (cleaned : run exec cleanup middle = (.ok (), after)) :
    run exec (p.ensuring cleanup) state = (outcome, after) := by
  have attempted : run exec p.attempt state = (.ok outcome, middle) := by rw [run_attempt, body]
  refine (run_bind_ok exec attempted).trans ?_
  exact (run_bind_ok exec cleaned).trans (run_ofExcept exec outcome after)

theorem run_ensuring_ok {p : Prog C R ε α} {cleanup : Prog C R ε Unit} {state after : W} {value : α}
    (returns : run exec (p.ensuring cleanup) state = (.ok value, after)) :
    ∃ middle, run exec p state = (.ok value, middle) ∧ run exec cleanup middle = (.ok (), after) := by
  obtain ⟨outcome, middle, attempted, returns⟩ := run_bind_eq_ok.mp returns
  obtain ⟨⟨⟩, last, cleaned, returns⟩ := run_bind_eq_ok.mp returns
  rw [run_attempt] at attempted
  rw [run_ofExcept] at returns
  have same : outcome = .ok value ∧ last = after := Prod.ext_iff.mp returns
  obtain ⟨rfl, rfl⟩ := same
  exact ⟨middle, Prod.ext (Except.ok.inj (Prod.ext_iff.mp attempted).1) (Prod.ext_iff.mp attempted).2, cleaned⟩

theorem Yields.run_still {commands : C → Prop} {answers : (command : C) → R command → Prop} {post : α → Prop}
    {p : Prog C R ε α} (yields : p.Yields commands answers post)
    (answered : ∀ command state, answers command (exec command state).1)
    (still : ∀ command state, commands command → (exec command state).2 = state) (state : W) :
    (p.run exec state).2 = state :=
  yields.run_keeps answered (I := fun now => now = state)
    (fun command now fits same => (still command now fits).trans same) rfl

/-- Two states that answer alike. -/
theorem Yields.run_alike {commands : C → Prop} {answers : (command : C) → R command → Prop} {post : α → Prop}
    {p : Prog C R ε α} {A : W → W → Prop} (yields : p.Yields commands answers post)
    (answered : ∀ command state, answers command (exec command state).1)
    (same : ∀ command state other, commands command → A state other →
      (exec command state).1 = (exec command other).1 ∧ A (exec command state).2 (exec command other).2)
    {state other : W} (start : A state other) :
    (p.run exec state).1 = (p.run exec other).1 ∧ A (p.run exec state).2 (p.run exec other).2 := by
  induction p generalizing state other with
  | done | fail => exact ⟨rfl, start⟩
  | call command next ih =>
    obtain ⟨response, later⟩ := same command state other yields.1 start
    rw [run_call, run_call, ← response]
    exact ih _ (yields.2 _ (answered command state)) later

/-- The program can be stopped, before its end or at it, with the state as it then is. -/
def Leaves (exec : (command : C) → W → R command × W) (p : Prog C R ε α) (state after : W) : Prop :=
  ∃ count, (run exec (p.cut count) state).2 = after

theorem leaves_end {p : Prog C R ε α} {state after : W} (finished : p.value.isSome ∨ ∃ error, p = .fail error)
    (leaves : Leaves exec p state after) : after = state := by
  obtain ⟨count, rfl⟩ := leaves
  cases p with
  | done | fail => cases count <;> rfl
  | call command next =>
    rcases finished with impossible | ⟨error, impossible⟩
    next => cases impossible
    next => cases impossible

theorem leaves_call {command : C} {next : R command → Prog C R ε α} {state after : W}
    (leaves : Leaves exec (.call command next) state after) :
    after = state ∨ Leaves exec (next (exec command state).1) (exec command state).2 after := by
  obtain ⟨count, same⟩ := leaves
  cases count with
  | zero => exact .inl same.symm
  | succ count => exact .inr ⟨count, same⟩

/-- It stops in the first part, or the first part comes to its end. -/
theorem leaves_bind {p : Prog C R ε α} {rest : α → Prog C R ε β} {state after : W}
    (leaves : Leaves exec (p >>= rest) state after) :
    Leaves exec p state after ∨
      ∃ value middle, run exec p state = (.ok value, middle) ∧ Leaves exec (rest value) middle after := by
  induction p generalizing state with
  | done value => exact .inr ⟨value, state, rfl, leaves⟩
  | fail error => exact .inl ⟨0, (leaves_end (.inr ⟨error, rfl⟩) leaves).symm⟩
  | call command next ih =>
    rcases leaves_call leaves with rfl | later
    next => exact .inl ⟨0, rfl⟩
    next =>
      rcases ih _ later with ⟨count, stopped⟩ | through
      next => exact .inl ⟨count + 1, stopped⟩
      next => exact .inr through

theorem Yields.leaves {commands : C → Prop} {answers : (command : C) → R command → Prop} {post : α → Prop}
    {p : Prog C R ε α} {I : W → Prop} (yields : p.Yields commands answers post)
    (answered : ∀ command state, answers command (exec command state).1)
    (keeps : ∀ command state, commands command → I state → I (exec command state).2) {state after : W}
    (holds : I state) (leaves : Leaves exec p state after) : I after := by
  obtain ⟨count, rfl⟩ := leaves
  exact (yields.cut count).run_keeps answered keeps holds

end Prog
