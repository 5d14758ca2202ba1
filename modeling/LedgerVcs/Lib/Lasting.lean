import LedgerVcs.Lib.Prog

set_option autoImplicit false

/-! Programs that never raise, and programs that go through again once they have gone through. -/

namespace Prog

variable {C : Type} {R : C → Type} {ε α β W : Type} {commands : C → Prop}

/-- Every command is of the set, and none of the responses that it can have makes the program raise. -/
def Unfailing (commands : C → Prop) (answers : (command : C) → R command → Prop) : Prog C R ε α → Prop
  | .done _ => True
  | .fail _ => False
  | .call command next =>
      commands command ∧ ∀ response, answers command response → (next response).Unfailing commands answers

/-- Every command is of the set, and the program raises at the first response that is not good. -/
def Strict (commands : C → Prop) (good : (command : C) → R command → Prop) : Prog C R ε α → Prop
  | .done _ => True
  | .fail _ => True
  | .call command next =>
      commands command ∧ ∀ response, (good command response → (next response).Strict commands good) ∧
        (¬ good command response → ∃ error, next response = .fail error)

namespace Unfailing

variable {answers : (command : C) → R command → Prop}

theorem bind {p : Prog C R ε α} {rest : α → Prog C R ε β} (first : p.Unfailing commands answers)
    (second : ∀ value, (rest value).Unfailing commands answers) : (p >>= rest).Unfailing commands answers := by
  induction p with
  | done value => exact second value
  | fail => exact first.elim
  | call command next ih => exact ⟨first.1, fun response fits => ih response (first.2 response fits)⟩

theorem ask {command : C} (fits : commands command) :
    (ask command : Prog C R ε (R command)).Unfailing commands answers :=
  ⟨fits, fun _ _ => trivial⟩

theorem mapM {δ : Type} {items : List δ} {round : δ → Prog C R ε β}
    (each : ∀ item ∈ items, (round item).Unfailing commands answers) :
    (items.mapM round).Unfailing commands answers := by
  induction items with
  | nil => trivial
  | cons item items ih =>
    rw [List.mapM_cons]
    refine bind (each item List.mem_cons_self) fun _ => ?_
    exact bind (ih fun later member => each later (List.mem_cons_of_mem _ member)) fun _ => trivial

end Unfailing

theorem Strict.bind {good : (command : C) → R command → Prop} {p : Prog C R ε α} {rest : α → Prog C R ε β}
    (first : p.Strict commands good) (second : ∀ value, (rest value).Strict commands good) :
    (p >>= rest).Strict commands good := by
  induction p with
  | done value => exact second value
  | fail => trivial
  | call command next ih =>
    refine ⟨first.1, fun response => ⟨fun fits => ih response ((first.2 response).1 fits), fun bad => ?_⟩⟩
    obtain ⟨error, stops⟩ := (first.2 response).2 bad
    exact ⟨error, congrArg (Prog.bind · rest) stops⟩

theorem Strict.takes {good answers : (command : C) → R command → Prop} {p : Prog C R ε α} (strict : p.Strict commands good) :
    p.Yields commands answers fun _ => True := by
  induction p with
  | done | fail => trivial
  | call command next ih =>
    refine ⟨strict.1, fun response _ => ?_⟩
    by_cases fine : good command response
    next => exact ih response ((strict.2 response).1 fine)
    next =>
      obtain ⟨error, stops⟩ := (strict.2 response).2 fine
      rw [stops]
      trivial

/-- A strict program that goes through on a machine it leaves as it is returns the same wherever its good responses
are what they are there. -/
theorem Strict.repeats {good answers : (command : C) → R command → Prop} {machine : (command : C) → W → R command × W}
    {p : Prog C R ε α} {state after : W} {value : α} (strict : p.Strict commands good)
    (still : ∀ command, commands command → (machine command state).2 = state)
    (same : ∀ command response, commands command → good command (machine command state).1 →
      answers command response → response = (machine command state).1)
    (through : p.run machine state = (.ok value, after)) :
    p.attempt.Yields commands answers fun outcome => outcome = .ok value := by
  induction p with
  | done returned =>
    cases through
    rfl
  | fail => cases through
  | call command next ih =>
    refine ⟨strict.1, fun response answered => ?_⟩
    rw [run_call, still command strict.1] at through
    by_cases fine : good command (machine command state).1
    next =>
      rw [same command response strict.1 fine answered]
      exact ih _ ((strict.2 _).1 fine) through
    next =>
      obtain ⟨error, stops⟩ := (strict.2 _).2 fine
      rw [stops] at through
      cases through

namespace Meets

variable {actor : Actor C R W} {contract : Contract W} {state : W}

theorem and {p : Prog C R ε α} {post other : Except ε α → W → Prop} (meets : p.Meets actor contract post state)
    (too : p.Meets actor contract other state) :
    p.Meets actor contract (fun outcome after => post outcome after ∧ other outcome after) state := by
  induction p generalizing state with
  | done | fail => exact fun later passes => ⟨meets later passes, too later passes⟩
  | call command next ih =>
    intro later passes fits
    obtain ⟨kept, rest⟩ := meets later passes fits
    exact ⟨kept, ih _ rest (too later passes fits).2⟩

/-- What everyone's steps keep, the party's own too, still holds when the program is through. -/
theorem kept {p : Prog C R ε α} {post : Except ε α → W → Prop} {invariant : W → Prop}
    (meets : p.Meets actor contract post state)
    (relies : ∀ before after, contract.rely before after → invariant before → invariant after)
    (guarantees : ∀ before after, contract.guarantee before after → invariant before → invariant after)
    (holds : invariant state) :
    p.Meets actor contract (fun outcome after => post outcome after ∧ invariant after) state := by
  induction p generalizing state with
  | done | fail => exact fun later passes => ⟨meets later passes, relies _ _ passes holds⟩
  | call command next ih =>
    intro later passes fits
    obtain ⟨within, rest⟩ := meets later passes fits
    exact ⟨within, ih _ rest (guarantees _ _ within (relies _ _ passes holds))⟩

/-- A part whose outcome is known, raised or not, and what comes after it. -/
theorem andThen {p : Prog C R ε α} {rest : α → Prog C R ε β} {Q : Except ε α → W → Prop}
    {goal : Except ε β → W → Prop} (first : p.Meets actor contract Q state)
    (failed : ∀ error after, Q (.error error) after → goal (.error error) after)
    (goes : ∀ value after, Q (.ok value) after → (rest value).Meets actor contract goal after) :
    (p >>= rest).Meets actor contract goal state := by
  refine bind (first.mono fun outcome after met => ?_)
  cases outcome with
  | ok value => exact goes value after met
  | error error => exact failed error after met

theorem handling {p : Prog C R ε α} {handler : ε → Prog C R ε α} {Q goal : Except ε α → W → Prop}
    (body : p.Meets actor contract Q state)
    (finished : ∀ value after, Q (.ok value) after → (Prog.done value : Prog C R ε α).Meets actor contract goal after)
    (handled : ∀ error after, Q (.error error) after → (handler error).Meets actor contract goal after) :
    (p.handling handler).Meets actor contract goal state := by
  refine bind (attempt (body.mono fun outcome after met => ?_))
  cases outcome with
  | ok value => exact finished value after met
  | error error => exact handled error after met

theorem unfailing {answers : (command : C) → R command → Prop} {invariant : W → Prop} {p : Prog C R ε α}
    (sure : p.Unfailing commands answers) (holds : invariant state)
    (stable : ∀ before after, contract.rely before after → invariant before → invariant after)
    (answered : ∀ command before, invariant before → answers command (actor.exec command before).1)
    (keeps : ∀ command before, commands command → actor.may command before → invariant before →
      contract.guarantee before (actor.exec command before).2 ∧ invariant (actor.exec command before).2) :
    p.Meets actor contract (fun outcome after => invariant after ∧ ∃ value, outcome = .ok value) state := by
  induction p generalizing state with
  | done value => exact fun later passes => ⟨stable _ _ passes holds, value, rfl⟩
  | fail => exact sure.elim
  | call command next ih =>
    intro later passes fits
    have held := stable _ _ passes holds
    obtain ⟨kept, still⟩ := keeps command later sure.1 fits held
    exact ⟨kept, ih _ (sure.2 _ (answered command later held)) still⟩

/-- Once it has gone through, a strict program goes through in every state that has only grown, when a good
response stays the same as the state grows. -/
theorem again {good : (command : C) → R command → Prop} {grows : W → W → Prop} {p : Prog C R ε α}
    (strict : p.Strict commands good)
    (trans : ∀ {first second third}, grows first second → grows second third → grows first third)
    (spreads : ∀ before after, contract.rely before after → grows before after)
    (takes : ∀ command before, commands command → actor.may command before →
      contract.guarantee before (actor.exec command before).2 ∧ grows before (actor.exec command before).2)
    (lasting : ∀ command before after, commands command → good command (actor.exec command before).1 →
      grows before after → (actor.exec command after).1 = (actor.exec command before).1) :
    p.Meets actor contract (Returns fun _ after => grows state after ∧ ∀ later, grows after later →
      p.Meets actor contract (fun outcome _ => ∃ value, outcome = .ok value) later) state := by
  induction p generalizing state with
  | done value => exact fun later passes => ⟨spreads _ _ passes, fun _ _ _ _ => ⟨value, rfl⟩⟩
  | fail => exact fun _ _ => trivial
  | call command next ih =>
    intro here passes fits
    obtain ⟨kept, grown⟩ := takes command here strict.1 fits
    refine ⟨kept, ?_⟩
    by_cases fine : good command (actor.exec command here).1
    next =>
      refine (ih _ ((strict.2 _).1 fine)).mono fun outcome after met => ?_
      cases outcome with
      | error => trivial
      | ok value =>
        obtain ⟨more, repeats⟩ := met
        refine ⟨trans (spreads _ _ passes) (trans grown more), fun later since last passes' fits' => ?_⟩
        have through : grows after last := trans since (spreads _ _ passes')
        obtain ⟨kept', grown'⟩ := takes command last strict.1 fits'
        refine ⟨kept', ?_⟩
        rw [lasting command here last strict.1 fine (trans grown (trans more through))]
        exact repeats _ (trans through grown')
    next =>
      obtain ⟨error, stops⟩ := (strict.2 _).2 fine
      rw [stops]
      exact fun _ _ => trivial

end Meets

end Prog
