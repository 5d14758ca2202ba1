import Mathlib.Logic.Function.Basic
import Mathlib.Logic.Relation
import Mathlib.Tactic

set_option autoImplicit false

/-! Programs over atomic commands. A program runs alone, or interleaves command by command with others
that share its state. -/

inductive Prog (C : Type) (R : C → Type) (ε α : Type)
  | done (value : α)
  | fail (error : ε)
  | call (command : C) (next : R command → Prog C R ε α)

namespace Prog

variable {C : Type} {R : C → Type} {ε α β : Type}

def bind : Prog C R ε α → (α → Prog C R ε β) → Prog C R ε β
  | .done value, rest => rest value
  | .fail error, _ => .fail error
  | .call command next, rest => .call command fun response => (next response).bind rest

instance : Monad (Prog C R ε) where
  pure := .done
  bind := bind

def ask (command : C) : Prog C R ε (R command) := .call command .done

def ofExcept : Except ε α → Prog C R ε α
  | .ok value => .done value
  | .error error => .fail error

/-- Runs `body` and hands its outcome over as a value. -/
def attempt : Prog C R ε α → Prog C R ε (Except ε α)
  | .done value => .done (.ok value)
  | .fail error => .done (.error error)
  | .call command next => .call command fun response => (next response).attempt

/-- `try: body except: handler` -/
def handling (body : Prog C R ε α) (handler : ε → Prog C R ε α) : Prog C R ε α :=
  body.attempt.bind fun
    | .ok value => .done value
    | .error error => handler error

/-- `try: body finally: cleanup` -/
def ensuring (body : Prog C R ε α) (cleanup : Prog C R ε Unit) : Prog C R ε α :=
  body.attempt.bind fun outcome => cleanup.bind fun _ => ofExcept outcome

/-- The first commands of a program, which is then interrupted. -/
def cut : Nat → Prog C R ε α → Prog C R ε Unit
  | 0, _ => .done ()
  | _ + 1, .done _ => .done ()
  | _ + 1, .fail error => .fail error
  | count + 1, .call command next => .call command fun response => (next response).cut count

/-- Interrupted as often as there are numbers, each time after so many commands, and then run to its end. -/
def retried (p : Prog C R ε α) : List Nat → Prog C R ε α
  | [] => p
  | count :: counts => (p.cut count).attempt.bind fun _ => p.retried counts

/-- What a finished program returned. -/
def value : Prog C R ε α → Option α
  | .done value => some value
  | _ => none

theorem value_eq_some {p : Prog C R ε α} {returned : α} : p.value = some returned ↔ p = .done returned := by
  cases p <;> simp [value]

/-- What a program that failed raised. -/
def raised : Prog C R ε α → Option ε
  | .fail error => some error
  | _ => none

theorem raised_eq_some {p : Prog C R ε α} {error : ε} : p.raised = some error ↔ p = .fail error := by
  cases p <;> simp [raised]

@[simp] theorem pure_bind (value : α) (rest : α → Prog C R ε β) :
    (pure value : Prog C R ε α) >>= rest = rest value := rfl

@[simp] theorem done_bind (value : α) (rest : α → Prog C R ε β) :
    (Prog.done value : Prog C R ε α) >>= rest = rest value := rfl

@[simp] theorem fail_bind (error : ε) (rest : α → Prog C R ε β) :
    (Prog.fail error : Prog C R ε α) >>= rest = .fail error := rfl

@[simp] theorem call_bind (command : C) (next : R command → Prog C R ε α) (rest : α → Prog C R ε β) :
    Prog.call command next >>= rest = .call command fun response => next response >>= rest := rfl

@[simp] theorem ask_bind (command : C) (rest : R command → Prog C R ε β) :
    (ask command : Prog C R ε (R command)) >>= rest = .call command rest := rfl

theorem bind_pure (p : Prog C R ε α) : p >>= pure = p := by
  induction p with
  | done | fail => rfl
  | call command next ih => exact congrArg (Prog.call command) (funext ih)

theorem bind_bind {γ : Type} (p : Prog C R ε α) (f : α → Prog C R ε β) (g : β → Prog C R ε γ) :
    p >>= f >>= g = p >>= fun value => f value >>= g := by
  induction p with
  | done | fail => rfl
  | call command next ih => exact congrArg (Prog.call command) (funext ih)

instance : LawfulMonad (Prog C R ε) := LawfulMonad.mk' _ bind_pure (fun _ _ => rfl) bind_bind

/-! ## Running alone -/

section Alone

variable {W : Type} (exec : (command : C) → W → R command × W)

def run : Prog C R ε α → W → Except ε α × W
  | .done value, state => (.ok value, state)
  | .fail error, state => (.error error, state)
  | .call command next, state => (next (exec command state).1).run (exec command state).2

@[simp] theorem run_pure (value : α) (state : W) :
    run exec (pure value : Prog C R ε α) state = (.ok value, state) := rfl

@[simp] theorem run_done (value : α) (state : W) :
    run exec (.done value : Prog C R ε α) state = (.ok value, state) := rfl

@[simp] theorem run_fail (error : ε) (state : W) :
    run exec (.fail error : Prog C R ε α) state = (.error error, state) := rfl

@[simp] theorem run_call (command : C) (next : R command → Prog C R ε α) (state : W) :
    run exec (.call command next) state = run exec (next (exec command state).1) (exec command state).2 :=
  rfl

@[simp] theorem run_ask (command : C) (state : W) :
    run exec (ask command : Prog C R ε (R command)) state =
      (.ok (exec command state).1, (exec command state).2) := rfl

theorem run_bind (p : Prog C R ε α) (rest : α → Prog C R ε β) (state : W) :
    run exec (p >>= rest) state =
      match run exec p state with
      | (.ok value, after) => run exec (rest value) after
      | (.error error, after) => (.error error, after) := by
  induction p generalizing state with
  | done | fail => rfl
  | call command next ih => exact ih _ _

theorem run_bind_ok {p : Prog C R ε α} {rest : α → Prog C R ε β} {state after : W} {value : α}
    (returns : run exec p state = (.ok value, after)) :
    run exec (p >>= rest) state = run exec (rest value) after := by
  rw [run_bind, returns]

/-- A loop whose rounds read the state and leave it alone. -/
theorem run_foldlM {δ : Type} {items : List δ} {round : β → δ → Prog C R ε β} {value : β → δ → β} {state : W}
    (rounds : ∀ so_far, ∀ item ∈ items, run exec (round so_far item) state = (.ok (value so_far item), state))
    (start : β) : run exec (items.foldlM round start) state = (.ok (items.foldl value start), state) := by
  induction items generalizing start with
  | nil => rfl
  | cons item items ih =>
    rw [List.foldlM_cons, run_bind_ok exec (rounds start item List.mem_cons_self), List.foldl_cons]
    exact ih (fun so_far later member => rounds so_far later (List.mem_cons_of_mem _ member)) _

theorem run_mapM {δ : Type} {round : δ → Prog C R ε β}
    (rounds : ∀ item state, ∃ value, (run exec (round item) state).1 = .ok value) (items : List δ) (state : W) :
    ∃ values, run exec (items.mapM round) state =
      (.ok values, items.foldl (fun before item => (run exec (round item) before).2) state) := by
  induction items generalizing state with
  | nil => exact ⟨[], rfl⟩
  | cons item items ih =>
    obtain ⟨value, returns⟩ := rounds item state
    obtain ⟨values, rest⟩ := ih (run exec (round item) state).2
    refine ⟨value :: values, ?_⟩
    rw [List.mapM_cons, run_bind_ok exec (Prod.ext returns rfl), run_bind_ok exec rest]
    rfl

theorem run_mapM_reads {δ : Type} {items : List δ} {round : δ → Prog C R ε β} {value : δ → β} {state : W}
    (rounds : ∀ item ∈ items, run exec (round item) state = (.ok (value item), state)) :
    run exec (items.mapM round) state = (.ok (items.map value), state) := by
  induction items with
  | nil => rfl
  | cons item items ih =>
    rw [List.mapM_cons, run_bind_ok exec (rounds item List.mem_cons_self),
      run_bind_ok exec (ih fun later member => rounds later (List.mem_cons_of_mem _ member)), List.map_cons]
    rfl

/-- As far as a number of commands takes it. -/
def advance : Nat → Prog C R ε α → W → Prog C R ε α × W
  | 0, p, state => (p, state)
  | _ + 1, .done value, state => (.done value, state)
  | _ + 1, .fail error, state => (.fail error, state)
  | commands + 1, .call command next, state =>
      advance commands (next (exec command state).1) (exec command state).2

theorem run_attempt (p : Prog C R ε α) (state : W) :
    run exec p.attempt state = (.ok (run exec p state).1, (run exec p state).2) := by
  induction p generalizing state with
  | done | fail => rfl
  | call command next ih => exact ih _ _

theorem run_handling (p : Prog C R ε α) (handler : ε → Prog C R ε α) (state : W) :
    run exec (p.handling handler) state =
      match run exec p state with
      | (.ok value, after) => (.ok value, after)
      | (.error error, after) => run exec (handler error) after := by
  rw [handling]
  refine (run_bind exec p.attempt _ state).trans ?_
  rw [run_attempt]
  cases run exec p state with
  | mk outcome after => cases outcome <;> rfl

@[simp] theorem run_ofExcept (outcome : Except ε α) (state : W) :
    run exec (ofExcept outcome : Prog C R ε α) state = (outcome, state) := by
  cases outcome <;> rfl

end Alone

/-- Machines that step alike, but for what one of them remembers besides. -/
theorem run_project {W V : Type} {fine : (command : C) → W → R command × W} {coarse : (command : C) → V → R command × V}
    {project : W → V} (alike : ∀ command state, coarse command (project state) =
      ((fine command state).1, project (fine command state).2)) (p : Prog C R ε α) (state : W) :
    run coarse p (project state) = ((run fine p state).1, project (run fine p state).2) := by
  induction p generalizing state with
  | done | fail => rfl
  | call command next ih =>
    rw [run_call, alike]
    exact ih _ _

/-! ## What a program can take and return -/

/-- Every command the program takes is of the set, and if every response is one its command can have, what
it returns meets the postcondition. -/
def Yields (commands : C → Prop) (answers : (command : C) → R command → Prop) (post : α → Prop) :
    Prog C R ε α → Prop
  | .done value => post value
  | .fail _ => True
  | .call command next =>
      commands command ∧ ∀ response, answers command response → (next response).Yields commands answers post

namespace Yields

variable {commands : C → Prop} {answers : (command : C) → R command → Prop} {post : α → Prop}

theorem bind {p : Prog C R ε α} {rest : α → Prog C R ε β} {goal : β → Prop}
    (first : p.Yields commands answers fun value => (rest value).Yields commands answers goal) :
    (p >>= rest).Yields commands answers goal := by
  induction p with
  | done value => exact first
  | fail => trivial
  | call command next ih => exact ⟨first.1, fun response fits => ih response (first.2 response fits)⟩

theorem ask {command : C} {Q : R command → Prop} (fits : commands command)
    (met : ∀ response, answers command response → Q response) :
    (ask command : Prog C R ε (R command)).Yields commands answers Q :=
  ⟨fits, met⟩

theorem mono {p : Prog C R ε α} {more : C → Prop} {weaker : α → Prop} (yields : p.Yields commands answers post)
    (within : ∀ command, commands command → more command) (weaken : ∀ value, post value → weaker value) :
    p.Yields more answers weaker := by
  induction p with
  | done value => exact weaken value yields
  | fail => trivial
  | call command next ih =>
    exact ⟨within _ yields.1, fun response fits => ih response (yields.2 response fits)⟩

theorem and {p : Prog C R ε α} {other : α → Prop} (yields : p.Yields commands answers post)
    (too : p.Yields commands answers other) :
    p.Yields commands answers fun value => post value ∧ other value := by
  induction p with
  | done value => exact ⟨yields, too⟩
  | fail => trivial
  | call command next ih =>
    exact ⟨yields.1, fun response fits => ih response (yields.2 response fits) (too.2 response fits)⟩

theorem both {p : Prog C R ε α} {more : C → Prop} {other : α → Prop} (yields : p.Yields commands answers post)
    (too : p.Yields more answers other) :
    p.Yields (fun command => commands command ∧ more command) answers fun value => post value ∧ other value := by
  induction p with
  | done value => exact ⟨yields, too⟩
  | fail => trivial
  | call command next ih =>
    exact ⟨⟨yields.1, too.1⟩, fun response fits => ih response (yields.2 response fits) (too.2 response fits)⟩

theorem ofExcept {outcome : Except ε α} (met : ∀ value, outcome = .ok value → post value) :
    (ofExcept outcome : Prog C R ε α).Yields commands answers post := by
  cases outcome with
  | ok value => exact met value rfl
  | error => trivial

theorem attempt {p : Prog C R ε α} {Q : Except ε α → Prop}
    (body : p.Yields commands answers fun value => Q (.ok value)) (failed : ∀ error, Q (.error error)) :
    p.attempt.Yields commands answers Q := by
  induction p with
  | done value => exact body
  | fail error => exact failed error
  | call command next ih => exact ⟨body.1, fun response fits => ih response (body.2 response fits)⟩

theorem handling {p : Prog C R ε α} {handler : ε → Prog C R ε α} (body : p.Yields commands answers post)
    (failed : ∀ error, (handler error).Yields commands answers post) :
    (p.handling handler).Yields commands answers post :=
  bind (attempt body failed)

theorem ensuring {p : Prog C R ε α} {cleanup : Prog C R ε Unit} (body : p.Yields commands answers post)
    (after : cleanup.Yields commands answers fun _ => True) :
    (p.ensuring cleanup).Yields commands answers post := by
  refine bind (attempt (Q := fun outcome => ∀ value, outcome = .ok value → post value) ?_ ?_ |>.mono
    (fun _ fits => fits) fun outcome met => ?_)
  next => exact body.mono (fun _ fits => fits) fun _ met _ same => Except.ok.inj same ▸ met
  next => intro error value same; cases same
  next =>
    exact bind (after.mono (fun _ fits => fits) fun _ _ => ofExcept met)

theorem cut {p : Prog C R ε α} (body : p.Yields commands answers post) (count : Nat) :
    (p.cut count).Yields commands answers fun _ => True := by
  induction p generalizing count with
  | done | fail => cases count <;> simp [Prog.cut, Yields]
  | call command next ih =>
    cases count with
    | zero => trivial
    | succ count => exact ⟨body.1, fun response fits => ih response (body.2 response fits) count⟩

theorem retried {p : Prog C R ε α} (body : p.Yields commands answers post) (counts : List Nat) :
    (p.retried counts).Yields commands answers post := by
  induction counts with
  | nil => exact body
  | cons count counts ih =>
    exact bind (attempt ((cut body count).mono (fun _ fits => fits) fun _ _ => ih) fun _ => ih)

/-- A loop that accumulates keeps what each round keeps. -/
theorem foldlM {δ : Type} {invariant : β → Prop} {items : List δ} {round : β → δ → Prog C R ε β} {start : β}
    (initially : invariant start)
    (keeps : ∀ so_far item, item ∈ items → invariant so_far →
      (round so_far item).Yields commands answers invariant) :
    (items.foldlM round start).Yields commands answers invariant := by
  induction items generalizing start with
  | nil => exact initially
  | cons item items ih =>
    rw [List.foldlM_cons]
    refine bind ((keeps start item List.mem_cons_self initially).mono (fun _ fits => fits) ?_)
    intro middle held
    exact ih held fun so_far later member => keeps so_far later (List.mem_cons_of_mem _ member)

theorem mapM {δ : Type} {items : List δ} {round : δ → Prog C R ε β}
    (each : ∀ item ∈ items, (round item).Yields commands answers fun _ => True) :
    (items.mapM round).Yields commands answers fun _ => True := by
  induction items with
  | nil => trivial
  | cons item items ih =>
    rw [List.mapM_cons]
    refine bind ((each item List.mem_cons_self).mono (fun _ fits => fits) fun _ _ => ?_)
    exact bind ((ih fun later member => each later (List.mem_cons_of_mem _ member)).mono (fun _ fits => fits)
      fun _ _ => trivial)

theorem run {W : Type} {exec : (command : C) → W → R command × W} {p : Prog C R ε α}
    (yields : p.Yields commands answers post) (answered : ∀ command state, answers command (exec command state).1)
    {state after : W} {value : α} (returns : p.run exec state = (.ok value, after)) : post value := by
  induction p generalizing state with
  | done =>
    cases returns
    exact yields
  | fail => cases returns
  | call command next ih => exact ih _ (yields.2 _ (answered command state)) returns

theorem run_within {W : Type} {exec : (command : C) → W → R command × W} {p : Prog C R ε α} {I : W → Prop}
    (yields : p.Yields commands answers post)
    (answered : ∀ command state, commands command → I state → answers command (exec command state).1)
    (keeps : ∀ command state, commands command → I state → I (exec command state).2) {state : W} (holds : I state) :
    I (p.run exec state).2 ∧ ∀ value, (p.run exec state).1 = .ok value → post value := by
  induction p generalizing state with
  | done value => exact ⟨holds, fun _ returned => Except.ok.inj returned ▸ yields⟩
  | fail => exact ⟨holds, fun _ impossible => by cases impossible⟩
  | call command next ih =>
    exact ih _ (yields.2 _ (answered command state yields.1 holds)) (keeps command state yields.1 holds)

theorem run_keeps {W : Type} {exec : (command : C) → W → R command × W} {p : Prog C R ε α}
    {I : W → Prop} (yields : p.Yields commands answers post)
    (answered : ∀ command state, answers command (exec command state).1)
    (keeps : ∀ command state, commands command → I state → I (exec command state).2)
    {state : W} (holds : I state) : I (p.run exec state).2 := by
  induction p generalizing state with
  | done | fail => exact holds
  | call command next ih =>
    exact ih _ (yields.2 _ (answered command state)) (keeps command state yields.1 holds)

end Yields

/-! ## Relying on the others -/

/-- A party that runs a program: what its commands do to the shared state, and which of them the runs at
hand let it take from a state. -/
structure Actor (C : Type) (R : C → Type) (W : Type) where
  exec : (command : C) → W → R command × W
  may : C → W → Prop

/-- What a party takes for granted of everyone else's steps, and what it promises of its own. -/
structure Contract (W : Type) where
  rely : W → W → Prop
  guarantee : W → W → Prop
  rely_refl : ∀ state, rely state state
  rely_trans : ∀ {first second third}, rely first second → rely second third → rely first third

section Together

variable {W : Type}

/-- From the state on, whatever the others do within the contract, each step of the program is within
it too, and its outcome meets the postcondition then and later. -/
def Meets (actor : Actor C R W) (contract : Contract W) :
    Prog C R ε α → (Except ε α → W → Prop) → W → Prop
  | .done value, post, state => ∀ later, contract.rely state later → post (.ok value) later
  | .fail error, post, state => ∀ later, contract.rely state later → post (.error error) later
  | .call command next, post, state =>
      ∀ later, contract.rely state later → actor.may command later →
        contract.guarantee later (actor.exec command later).2 ∧
          (next (actor.exec command later).1).Meets actor contract post (actor.exec command later).2

namespace Meets

variable {actor : Actor C R W} {contract : Contract W} {post : Except ε α → W → Prop} {state : W}

theorem later {p : Prog C R ε α} {after : W} (meets : p.Meets actor contract post state)
    (passes : contract.rely state after) : p.Meets actor contract post after := by
  cases p with
  | done | fail => exact fun final more => meets final (contract.rely_trans passes more)
  | call command next => exact fun final more => meets final (contract.rely_trans passes more)

theorem mono {p : Prog C R ε α} {weaker : Except ε α → W → Prop}
    (meets : p.Meets actor contract post state)
    (weaken : ∀ outcome after, post outcome after → weaker outcome after) :
    p.Meets actor contract weaker state := by
  induction p generalizing state with
  | done | fail => exact fun final more => weaken _ _ (meets final more)
  | call command next ih =>
    intro final more fits
    obtain ⟨kept, rest⟩ := meets final more fits
    exact ⟨kept, ih _ rest⟩

theorem bind {p : Prog C R ε α} {rest : α → Prog C R ε β} {goal : Except ε β → W → Prop}
    (meets : p.Meets actor contract
      (fun outcome after =>
        match outcome with
        | .ok value => (rest value).Meets actor contract goal after
        | .error error => goal (.error error) after) state) :
    (p >>= rest).Meets actor contract goal state := by
  induction p generalizing state with
  | done value => exact meets state (contract.rely_refl state)
  | fail error => exact meets
  | call command next ih =>
    intro final more fits
    obtain ⟨kept, after⟩ := meets final more fits
    exact ⟨kept, ih _ after⟩

theorem attempt {p : Prog C R ε α} {goal : Except ε (Except ε α) → W → Prop}
    (meets : p.Meets actor contract (fun outcome after => goal (.ok outcome) after) state) :
    p.attempt.Meets actor contract goal state := by
  induction p generalizing state with
  | done | fail => exact meets
  | call command next ih =>
    intro final more fits
    obtain ⟨kept, after⟩ := meets final more fits
    exact ⟨kept, ih _ after⟩

theorem of_yields {commands : C → Prop} {answers : (command : C) → R command → Prop} {result : α → Prop}
    {invariant : W → Prop} {p : Prog C R ε α} (yields : p.Yields commands answers result)
    (holds : invariant state)
    (stable : ∀ before after, contract.rely before after → invariant before → invariant after)
    (answered : ∀ command before, invariant before → answers command (actor.exec command before).1)
    (keeps : ∀ command before, commands command → actor.may command before → invariant before →
      contract.guarantee before (actor.exec command before).2 ∧ invariant (actor.exec command before).2) :
    p.Meets actor contract
      (fun outcome after => invariant after ∧ ∀ value, outcome = .ok value → result value) state := by
  induction p generalizing state with
  | done value => exact fun final more => ⟨stable _ _ more holds, fun _ same => Except.ok.inj same ▸ yields⟩
  | fail error => exact fun final more => ⟨stable _ _ more holds, fun _ same => by cases same⟩
  | call command next ih =>
    intro final more fits
    have held := stable _ _ more holds
    obtain ⟨kept, still⟩ := keeps command final yields.1 fits held
    exact ⟨kept, ih _ (yields.2 _ (answered command final held)) still⟩

theorem of_stable {p : Prog C R ε α} (meets : p.Meets actor contract post state) :
    p.Meets actor contract (fun outcome after => ∀ later, contract.rely after later → post outcome later) state := by
  induction p generalizing state with
  | done | fail => exact fun final more later passes => meets later (contract.rely_trans more passes)
  | call command next ih =>
    intro final more fits
    obtain ⟨kept, rest⟩ := meets final more fits
    exact ⟨kept, ih _ rest⟩

theorem free {p : Prog C R ε α}
    (within : ∀ command before, actor.may command before →
      contract.guarantee before (actor.exec command before).2) :
    p.Meets actor contract (fun _ _ => True) state := by
  induction p generalizing state with
  | done | fail => exact fun _ _ => trivial
  | call command next ih => exact fun final _ fits => ⟨within command final fits, ih _⟩

/-- A postcondition on what a program returns, of no concern when it raises. -/
def Returns (goal : α → W → Prop) : Except ε α → W → Prop
  | .ok value, after => goal value after
  | .error _, _ => True

theorem seq {p : Prog C R ε α} {rest : α → Prog C R ε β} {Q : α → W → Prop} {final : β → W → Prop}
    (first : p.Meets actor contract (Returns Q) state)
    (second : ∀ value after, Q value after → (rest value).Meets actor contract (Returns final) after) :
    (p >>= rest).Meets actor contract (Returns final) state := by
  refine bind (first.mono fun outcome after met => ?_)
  cases outcome with
  | ok value => exact second value after met
  | error => trivial

theorem pure {value : α} {goal : α → W → Prop} (holds : ∀ later, contract.rely state later → goal value later) :
    (pure value : Prog C R ε α).Meets actor contract (Returns goal) state :=
  holds

theorem ask {command : C} {goal : R command → W → Prop}
    (stable : ∀ response before after, contract.rely before after → goal response before → goal response after)
    (takes : ∀ later, contract.rely state later → actor.may command later →
      contract.guarantee later (actor.exec command later).2 ∧
        goal (actor.exec command later).1 (actor.exec command later).2) :
    (ask command : Prog C R ε (R command)).Meets actor contract (Returns goal) state := by
  intro later passes fits
  obtain ⟨kept, met⟩ := takes later passes fits
  exact ⟨kept, fun final more => stable _ _ _ more met⟩

theorem ofExcept {outcome : Except ε α} {goal : α → W → Prop}
    (holds : ∀ value, outcome = .ok value → ∀ later, contract.rely state later → goal value later) :
    (ofExcept outcome : Prog C R ε α).Meets actor contract (Returns goal) state := by
  cases outcome with
  | ok value => exact holds value rfl
  | error => exact fun _ _ => trivial

theorem ensuring {p : Prog C R ε α} {cleanup : Prog C R ε Unit} {goal : α → W → Prop}
    (body : p.Meets actor contract
      (fun outcome after => cleanup.Meets actor contract (Returns fun _ later => Returns goal outcome later) after)
      state) :
    (p.ensuring cleanup).Meets actor contract (Returns goal) state := by
  refine bind (attempt (body.mono fun outcome after cleaned => ?_))
  refine bind (cleaned.of_stable.mono fun ended later met => ?_)
  cases ended with
  | error => trivial
  | ok =>
    cases outcome with
    | ok value => exact met
    | error => exact fun _ _ => trivial

/-- A program that is run to its end from wherever its interruptions can leave the state. -/
theorem retried {commands : C → Prop} {answers : (command : C) → R command → Prop} {result : α → Prop}
    {I : W → Prop} {p : Prog C R ε α} (yields : p.Yields commands answers result)
    (stable : ∀ before after, contract.rely before after → I before → I after)
    (answered : ∀ command before, I before → answers command (actor.exec command before).1)
    (keeps : ∀ command before, commands command → actor.may command before → I before →
      contract.guarantee before (actor.exec command before).2 ∧ I (actor.exec command before).2)
    (whole : ∀ before, I before → p.Meets actor contract post before) (counts : List Nat)
    (holds : I state) : (p.retried counts).Meets actor contract post state := by
  induction counts generalizing state with
  | nil => exact whole state holds
  | cons count counts ih =>
    exact bind (attempt ((of_yields (yields.cut count) holds stable answered keeps).mono fun _ _ kept => ih kept.1))

/-- A loop whose invariant follows the items it has been through. -/
theorem foldlM {δ : Type} {items : List δ} {round : β → δ → Prog C R ε β} {I : List δ → β → W → Prop}
    {start : β}
    (stable : ∀ through so_far before after, contract.rely before after →
      I through so_far before → I through so_far after)
    (rounds : ∀ through item rest, items = through ++ item :: rest → ∀ so_far before,
      I through so_far before →
        (round so_far item).Meets actor contract (Returns (I (through ++ [item]))) before)
    (initially : I [] start state) :
    (items.foldlM round start).Meets actor contract (Returns (I items)) state := by
  suffices whole : ∀ rest through so_far before, items = through ++ rest → I through so_far before →
      (rest.foldlM round so_far).Meets actor contract (Returns (I items)) before by
    exact whole items [] start state rfl initially
  intro rest
  induction rest with
  | nil =>
    intro through so_far before split held
    rw [List.append_nil] at split
    exact fun later passes => split ▸ stable _ _ _ _ passes held
  | cons item rest ih =>
    intro through so_far before split held
    rw [List.foldlM_cons]
    refine seq (rounds through item rest split so_far before held) fun value after next => ?_
    exact ih (through ++ [item]) value after (by simpa using split) next

theorem mapM {δ : Type} {items : List δ} {round : δ → Prog C R ε β} {I : List δ → W → Prop}
    (stable : ∀ through before after, contract.rely before after →
      I through before → I through after)
    (rounds : ∀ through item rest, items = through ++ item :: rest → ∀ before, I through before →
      (round item).Meets actor contract (Returns fun _ after => I (through ++ [item]) after) before)
    (initially : I [] state) :
    (items.mapM round).Meets actor contract (Returns fun _ after => I items after) state := by
  suffices whole : ∀ rest through before, items = through ++ rest → I through before →
      (rest.mapM round).Meets actor contract (Returns fun _ after => I items after) before by
    exact whole items [] state rfl initially
  intro rest
  induction rest with
  | nil =>
    intro through before split held
    rw [List.append_nil] at split
    exact fun later passes => split ▸ stable _ _ _ passes held
  | cons item rest ih =>
    intro through before split held
    rw [List.mapM_cons]
    refine seq (rounds through item rest split before held) fun value after next => ?_
    refine seq (ih (through ++ [item]) after (by simpa using split) next) fun values last met => ?_
    exact fun later passes => stable _ _ _ passes met

end Meets

end Together

/-! ## Running together -/

/-- Programs at whatever point each has reached, and the state they share. -/
structure Pool (ι C : Type) (R : C → Type) (ε : Type) (α : ι → Type) (W : Type) where
  shared : W
  procs : (party : ι) → Prog C R ε (α party)

namespace Pool

variable {ι C : Type} {R : C → Type} {ε : Type} {α : ι → Type} {W : Type}

/-- One command of one program, or a change from outside. -/
inductive Step [DecidableEq ι] (actors : ι → Actor C R W) (outside : W → W → Prop) :
    Pool ι C R ε α W → Pool ι C R ε α W → Prop
  | act (pool : Pool ι C R ε α W) (party : ι) (command : C) (next : R command → Prog C R ε (α party))
      (turn : pool.procs party = .call command next) (fits : (actors party).may command pool.shared) :
      Step actors outside pool
        ⟨((actors party).exec command pool.shared).2,
          Function.update pool.procs party (next ((actors party).exec command pool.shared).1)⟩
  | outside (pool : Pool ι C R ε α W) (after : W) (passes : outside pool.shared after) :
      Step actors outside pool ⟨after, pool.procs⟩

/-- Any number of steps, in any order. -/
def Run [DecidableEq ι] (actors : ι → Actor C R W) (outside : W → W → Prop) :
    Pool ι C R ε α W → Pool ι C R ε α W → Prop :=
  Relation.ReflTransGen (Step actors outside)

variable {actors : ι → Actor C R W} {outside : W → W → Prop} {contracts : ι → Contract W}
  {posts : (party : ι) → Except ε (α party) → W → Prop}

def Meets (actors : ι → Actor C R W) (contracts : ι → Contract W)
    (posts : (party : ι) → Except ε (α party) → W → Prop) (pool : Pool ι C R ε α W) : Prop :=
  ∀ party, (pool.procs party).Meets (actors party) (contracts party) (posts party) pool.shared

theorem step_meets [DecidableEq ι] {before after : Pool ι C R ε α W}
    (compatible : ∀ party other, party ≠ other → ∀ first second,
      (contracts other).guarantee first second → (contracts party).rely first second)
    (weather : ∀ party first second, outside first second → (contracts party).rely first second)
    (meets : before.Meets actors contracts posts) (step : Step actors outside before after) :
    after.Meets actors contracts posts := by
  intro party
  cases step with
  | act mover command next turn fits =>
    have moved := meets mover
    rw [turn] at moved
    obtain ⟨kept, rest⟩ := moved before.shared ((contracts mover).rely_refl _) fits
    by_cases same : party = mover
    next =>
      subst same
      simpa only [Function.update_self] using rest
    next =>
      simp only [Function.update_of_ne same]
      exact (meets party).later (compatible party mover same _ _ kept)
  | outside changed passes => exact (meets party).later (weather party _ _ passes)

theorem run_meets [DecidableEq ι] {before after : Pool ι C R ε α W}
    (compatible : ∀ party other, party ≠ other → ∀ first second,
      (contracts other).guarantee first second → (contracts party).rely first second)
    (weather : ∀ party first second, outside first second → (contracts party).rely first second)
    (meets : before.Meets actors contracts posts) (run : Run actors outside before after) :
    after.Meets actors contracts posts := by
  induction run with
  | refl => exact meets
  | tail _ step ih => exact step_meets compatible weather ih step

theorem Run.advance [DecidableEq ι] {party : ι} {invariant : W → Prop}
    (allowed : ∀ command state, invariant state →
      (actors party).may command state ∧ invariant ((actors party).exec command state).2)
    (commands : Nat) (pool : Pool ι C R ε α W) (holds : invariant pool.shared) :
    Run actors outside pool
      ⟨(Prog.advance (actors party).exec commands (pool.procs party) pool.shared).2,
        Function.update pool.procs party
          (Prog.advance (actors party).exec commands (pool.procs party) pool.shared).1⟩ := by
  induction commands generalizing pool with
  | zero =>
    rw [Prog.advance, Function.update_eq_self]
    exact .refl
  | succ commands ih =>
    cases turn : pool.procs party with
    | done value =>
      rw [Prog.advance, ← turn, Function.update_eq_self]
      exact .refl
    | fail error =>
      rw [Prog.advance, ← turn, Function.update_eq_self]
      exact .refl
    | call command next =>
      obtain ⟨fits, still⟩ := allowed command pool.shared holds
      refine .head (.act pool party command next turn fits) ?_
      have later := ih ⟨((actors party).exec command pool.shared).2,
        Function.update pool.procs party (next ((actors party).exec command pool.shared).1)⟩ still
      simp only [Function.update_self, Function.update_idem] at later
      exact later

/-- The party takes up to that many commands. -/
def turn [DecidableEq ι] (actors : ι → Actor C R W) (party : ι) (commands : Nat) (pool : Pool ι C R ε α W) :
    Pool ι C R ε α W :=
  ⟨(Prog.advance (actors party).exec commands (pool.procs party) pool.shared).2,
    Function.update pool.procs party (Prog.advance (actors party).exec commands (pool.procs party) pool.shared).1⟩

theorem Run.turns [DecidableEq ι] (free : ∀ party command state, (actors party).may command state)
    (turns : List (ι × Nat)) (pool : Pool ι C R ε α W) :
    Run actors outside pool (turns.foldl (fun before turn => before.turn actors turn.1 turn.2) pool) := by
  induction turns generalizing pool with
  | nil => exact .refl
  | cons turn turns ih =>
    exact (@Run.advance _ _ _ _ _ _ actors outside _ turn.1 (fun _ => True)
      (fun command state _ => ⟨free turn.1 command state, trivial⟩) turn.2 pool trivial).trans (ih _)

theorem run_keeps [DecidableEq ι] {I : W → Prop} {commands : ι → C → Prop}
    {answers : (command : C) → R command → Prop} {results : (party : ι) → α party → Prop}
    {before after : Pool ι C R ε α W}
    (yields : ∀ party, (before.procs party).Yields (commands party) answers (results party))
    (answered : ∀ party command state, I state → answers command ((actors party).exec command state).1)
    (keeps : ∀ party command state, commands party command → (actors party).may command state → I state →
      I ((actors party).exec command state).2)
    (weather : ∀ first second, outside first second → I first → I second)
    (holds : I before.shared) (run : Run actors outside before after) : I after.shared := by
  suffices both : I after.shared ∧
      ∀ party, (after.procs party).Yields (commands party) answers (results party) from both.1
  induction run with
  | refl => exact ⟨holds, yields⟩
  | tail _ step ih =>
    obtain ⟨held, goes⟩ := ih
    cases step with
    | act mover command next turn fits =>
      have moved := goes mover
      rw [turn] at moved
      refine ⟨keeps mover command _ moved.1 fits held, fun party => ?_⟩
      by_cases same : party = mover
      next =>
        subst same
        simpa only [Function.update_self] using moved.2 _ (answered party command _ held)
      next => simpa only [Function.update_of_ne same] using goes party
    | outside changed passes => exact ⟨weather _ _ passes held, goes⟩

theorem run_holds [DecidableEq ι] {I : W → Prop} {before after : Pool ι C R ε α W}
    (compatible : ∀ party other, party ≠ other → ∀ first second,
      (contracts other).guarantee first second → (contracts party).rely first second)
    (weather : ∀ party first second, outside first second → (contracts party).rely first second)
    (kept : ∀ party first second, (contracts party).guarantee first second → I first → I second)
    (spared : ∀ first second, outside first second → I first → I second)
    (meets : before.Meets actors contracts posts) (holds : I before.shared)
    (run : Run actors outside before after) : I after.shared := by
  induction run with
  | refl => exact holds
  | @tail middle last early step ih =>
    cases step with
    | act mover command next turn fits =>
      have moved := run_meets compatible weather meets early mover
      rw [turn] at moved
      exact kept mover _ _ (moved _ ((contracts mover).rely_refl _) fits).1 ih
    | outside changed passes => exact spared _ _ passes ih

theorem Meets.returned {pool : Pool ι C R ε α W} (meets : pool.Meets actors contracts posts) {party : ι}
    {value : α party} (finished : pool.procs party = .done value) :
    posts party (.ok value) pool.shared := by
  have outcome := meets party
  rw [finished] at outcome
  exact outcome _ ((contracts party).rely_refl _)

end Pool

/-! ## Keeping the history -/

/-- One command a party took, and what it was told. -/
structure Event (ι C : Type) (R : C → Type) where
  party : ι
  command : C
  response : R command

/-- A state and everything that happened to it, the latest first. -/
structure Traced (ι C : Type) (R : C → Type) (W : Type) where
  state : W
  trace : List (Event ι C R)

namespace Traced

variable {ι C : Type} {R : C → Type} {W : Type}

def exec (machine : (command : C) → W → R command × W) (party : ι) (command : C)
    (world : Traced ι C R W) : R command × Traced ι C R W :=
  ((machine command world.state).1,
    ⟨(machine command world.state).2, ⟨party, command, (machine command world.state).1⟩ :: world.trace⟩)

end Traced

end Prog
