import LedgerVcs.Lib.Prog

set_option autoImplicit false

/-! What a program does, given all it has been told. -/

namespace Prog

variable {C : Type} {R : C → Type} {ε α β : Type}

/-- A command, and what it was answered. -/
structure Exchange (C : Type) (R : C → Type) where
  command : C
  response : R command

/-- Each command is one that may be taken after what the program has been told, the latest first, and what it
has been told when it ends meets the postcondition. Only responses that the commands can have count. -/
def Recalls (takes : List (Exchange C R) → C → Prop) (answers : (command : C) → R command → Prop) :
    Prog C R ε α → (Except ε α → List (Exchange C R) → Prop) → List (Exchange C R) → Prop
  | .done value, post, told => post (.ok value) told
  | .fail error, post, told => post (.error error) told
  | .call command next, post, told =>
      takes told command ∧
        ∀ response, answers command response → (next response).Recalls takes answers post (⟨command, response⟩ :: told)

/-- The program, each command of which is another program. -/
def through {C' : Type} {R' : C' → Type} (implementation : (command : C) → Prog C' R' ε (R command)) :
    Prog C R ε α → Prog C' R' ε α
  | .done value => .done value
  | .fail error => .fail error
  | .call command next => (implementation command).bind fun response => (next response).through implementation

namespace Recalls

variable {takes : List (Exchange C R) → C → Prop} {answers : (command : C) → R command → Prop}
  {post : Except ε α → List (Exchange C R) → Prop} {told : List (Exchange C R)}

theorem mono {p : Prog C R ε α} {weaker : Except ε α → List (Exchange C R) → Prop}
    (recalls : p.Recalls takes answers post told) (weaken : ∀ outcome later, post outcome later → weaker outcome later) :
    p.Recalls takes answers weaker told := by
  induction p generalizing told with
  | done | fail => exact weaken _ _ recalls
  | call command next ih => exact ⟨recalls.1, fun response fits => ih response (recalls.2 response fits)⟩

theorem bind {p : Prog C R ε α} {rest : α → Prog C R ε β} {goal : Except ε β → List (Exchange C R) → Prop}
    (recalls : p.Recalls takes answers
      (fun outcome later =>
        match outcome with
        | .ok value => (rest value).Recalls takes answers goal later
        | .error error => goal (.error error) later) told) :
    (p >>= rest).Recalls takes answers goal told := by
  induction p generalizing told with
  | done | fail => exact recalls
  | call command next ih => exact ⟨recalls.1, fun response fits => ih response (recalls.2 response fits)⟩

theorem asking {command : C} {rest : R command → Prog C R ε β} {goal : Except ε β → List (Exchange C R) → Prop}
    (may : takes told command)
    (goes : ∀ response, answers command response →
      (rest response).Recalls takes answers goal (⟨command, response⟩ :: told)) :
    (ask command >>= rest).Recalls takes answers goal told := ⟨may, goes⟩

theorem attempt {p : Prog C R ε α} {goal : Except ε (Except ε α) → List (Exchange C R) → Prop}
    (recalls : p.Recalls takes answers (fun outcome later => goal (.ok outcome) later) told) :
    p.attempt.Recalls takes answers goal told := by
  induction p generalizing told with
  | done | fail => exact recalls
  | call command next ih => exact ⟨recalls.1, fun response fits => ih response (recalls.2 response fits)⟩

/-- A part whose outcome is known, raised or not, and what comes after it. -/
theorem andThen {p : Prog C R ε α} {rest : α → Prog C R ε β} {Q : Except ε α → List (Exchange C R) → Prop}
    {goal : Except ε β → List (Exchange C R) → Prop} (first : p.Recalls takes answers Q told)
    (failed : ∀ error later, Q (.error error) later → goal (.error error) later)
    (goes : ∀ value later, Q (.ok value) later → (rest value).Recalls takes answers goal later) :
    (p >>= rest).Recalls takes answers goal told := by
  refine bind (first.mono fun outcome later met => ?_)
  cases outcome with
  | ok value => exact goes value later met
  | error error => exact failed error later met

theorem handling {p : Prog C R ε α} {handler : ε → Prog C R ε α} {Q goal : Except ε α → List (Exchange C R) → Prop}
    (body : p.Recalls takes answers Q told) (finished : ∀ value later, Q (.ok value) later → goal (.ok value) later)
    (handled : ∀ error later, Q (.error error) later → (handler error).Recalls takes answers goal later) :
    (p.handling handler).Recalls takes answers goal told := by
  refine bind (attempt (body.mono fun outcome later met => ?_))
  cases outcome with
  | ok value => exact finished value later met
  | error error => exact handled error later met

theorem cut {p : Prog C R ε α} (recalls : p.Recalls takes answers post told) (count : Nat) :
    (p.cut count).Recalls takes answers (fun _ _ => True) told := by
  induction p generalizing told count with
  | done | fail => cases count <;> trivial
  | call command next ih =>
    cases count with
    | zero => trivial
    | succ count => exact ⟨recalls.1, fun response fits => ih response (recalls.2 response fits) count⟩

theorem ofExcept {outcome : Except ε α} (met : post outcome told) :
    (Prog.ofExcept outcome : Prog C R ε α).Recalls takes answers post told := by
  cases outcome <;> exact met

/-- A loop whose invariant follows the items it has been through. -/
theorem foldlM {δ : Type} {items : List δ} {round : β → δ → Prog C R ε β}
    {I : List δ → β → List (Exchange C R) → Prop} {start : β} {failed : ε → List (Exchange C R) → Prop}
    (rounds : ∀ through item rest, items = through ++ item :: rest → ∀ so_far later, I through so_far later →
      (round so_far item).Recalls takes answers
        (fun outcome after =>
          match outcome with
          | .ok value => I (through ++ [item]) value after
          | .error error => failed error after) later)
    (initially : I [] start told) :
    (items.foldlM round start).Recalls takes answers
      (fun outcome after =>
        match outcome with
        | .ok value => I items value after
        | .error error => failed error after) told := by
  suffices whole : ∀ rest through so_far later, items = through ++ rest → I through so_far later →
      (rest.foldlM round so_far).Recalls takes answers
        (fun outcome after =>
          match outcome with
          | .ok value => I items value after
          | .error error => failed error after) later by
    exact whole items [] start told rfl initially
  intro rest
  induction rest with
  | nil =>
    intro through so_far later split held
    rw [List.append_nil] at split
    exact split ▸ held
  | cons item rest ih =>
    intro through so_far later split held
    rw [List.foldlM_cons]
    refine (rounds through item rest split so_far later held).andThen (fun _ _ met => met) fun value after next => ?_
    exact ih (through ++ [item]) value after (by simpa using split) next

theorem mapM {δ : Type} {items : List δ} {round : δ → Prog C R ε β} {I : List δ → List β → List (Exchange C R) → Prop}
    {failed : ε → List (Exchange C R) → Prop}
    (rounds : ∀ through item rest, items = through ++ item :: rest → ∀ values later, I through values later →
      (round item).Recalls takes answers
        (fun outcome after =>
          match outcome with
          | .ok value => I (through ++ [item]) (values ++ [value]) after
          | .error error => failed error after) later)
    (initially : I [] [] told) :
    (items.mapM round).Recalls takes answers
      (fun outcome after =>
        match outcome with
        | .ok values => I items values after
        | .error error => failed error after) told := by
  suffices whole : ∀ rest through values later, items = through ++ rest → I through values later →
      (rest.mapM round).Recalls takes answers
        (fun outcome after =>
          match outcome with
          | .ok more => I items (values ++ more) after
          | .error error => failed error after) later from whole items [] [] told rfl initially
  intro rest
  induction rest with
  | nil =>
    intro through values later split held
    rw [List.append_nil] at split
    have whole : I items (values ++ []) later := by rwa [split, List.append_nil]
    exact whole
  | cons item rest ih =>
    intro through values later split held
    rw [List.mapM_cons]
    refine (rounds through item rest split values later held).andThen (fun _ _ met => met) fun value after next => ?_
    refine (ih (through ++ [item]) (values ++ [value]) after (by simpa using split) next).andThen (fun _ _ met => met)
      fun more last met => ?_
    have whole : I items (values ++ value :: more) last := by simpa using met
    exact whole

/-- What a program has been told, it goes on having been told. -/
theorem suffix {p : Prog C R ε α} (recalls : p.Recalls takes answers post told) :
    p.Recalls takes answers (fun outcome later => post outcome later ∧ told <:+ later) told := by
  suffices whole : ∀ before, before <:+ told →
      p.Recalls takes answers (fun outcome later => post outcome later ∧ before <:+ later) told from
    whole told List.suffix_rfl
  induction p generalizing told with
  | done | fail => exact fun before kept => ⟨recalls, kept⟩
  | call command next ih =>
    exact fun before kept => ⟨recalls.1, fun response fits =>
      ih response (recalls.2 response fits) before (kept.trans (List.suffix_cons _ _))⟩

theorem free (p : Prog C R ε α) (told : List (Exchange C R)) :
    p.Recalls (fun _ _ => True) answers (fun _ _ => True) told := by
  induction p generalizing told with
  | done | fail => trivial
  | call command next ih => exact ⟨trivial, fun response _ => ih response _⟩

theorem anyhow {commands : C → Prop} {result : α → Prop} {p : Prog C R ε α} (yields : p.Yields commands answers result)
    (may : ∀ command told, commands command → takes told command) :
    p.Recalls takes answers (fun outcome _ => ∀ value, outcome = .ok value → result value) told := by
  induction p generalizing told with
  | done value => exact fun _ same => Except.ok.inj same ▸ yields
  | fail error => exact fun _ same => by cases same
  | call command next ih => exact ⟨may command told yields.1, fun response fits => ih _ (yields.2 response fits)⟩

theorem of_yields {C' : Type} {R' : C' → Type} {commands : C' → Prop} {answers' : (command : C') → R' command → Prop}
    {result : α → Prop} {p : Prog C' R' ε α} {embed : C' → C} {decode : (command : C') → R (embed command) → R' command}
    (yields : p.Yields commands answers' result)
    (may : ∀ command told, commands command → takes told (embed command))
    (answered : ∀ command response, answers (embed command) response → answers' command (decode command response)) :
    (p.through fun command => Prog.call (embed command) fun response => .done (decode command response)).Recalls takes
      answers (fun outcome _ => ∀ value, outcome = .ok value → result value) told := by
  induction p generalizing told with
  | done value => exact fun _ same => Except.ok.inj same ▸ yields
  | fail error => exact fun _ same => by cases same
  | call command next ih =>
    exact ⟨may command told yields.1, fun response fits => ih _ (yields.2 _ (answered command response fits))⟩

/-- A program that takes only commands of a set keeps whatever each of them keeps. -/
theorem keeping {commands : C → Prop} {result : α → Prop} {K : List (Exchange C R) → Prop} {p : Prog C R ε α}
    (yields : p.Yields commands answers result)
    (may : ∀ command told, commands command → K told → takes told command)
    (keeps : ∀ command response told, commands command → K told → K (⟨command, response⟩ :: told)) (holds : K told) :
    p.Recalls takes answers (fun _ later => K later) told := by
  induction p generalizing told with
  | done | fail => exact holds
  | call command next ih =>
    exact ⟨may command told yields.1 holds, fun response fits =>
      ih response (yields.2 response fits) (keeps command response told yields.1 holds)⟩

/-- A part that is written in other commands, and what it has been told in them. -/
theorem through {C' : Type} {R' : C' → Type} {embed : C' → C} {decode : (command : C') → R (embed command) → R' command}
    {lower : Exchange C R → Option (Exchange C' R')} {takes' : List (Exchange C' R') → C' → Prop}
    {answers' : (command : C') → R' command → Prop} {post' : Except ε α → List (Exchange C' R') → Prop} {p : Prog C' R' ε α}
    (lowers : ∀ command response, lower ⟨embed command, response⟩ = some ⟨command, decode command response⟩)
    (may : ∀ command told, takes' (told.filterMap lower) command → takes told (embed command))
    (answered : ∀ command response, answers (embed command) response → answers' command (decode command response))
    (recalls : p.Recalls takes' answers' post' (told.filterMap lower)) :
    (p.through fun command => Prog.call (embed command) fun response => .done (decode command response)).Recalls takes
      answers (fun outcome later => post' outcome (later.filterMap lower)) told := by
  induction p generalizing told with
  | done | fail => exact recalls
  | call command next ih =>
    refine ⟨may command told recalls.1, fun response fits => ih _ ?_⟩
    rw [List.filterMap_cons, lowers]
    exact recalls.2 _ (answered command response fits)

end Recalls

/-! ## Running together -/

section Together

variable {ι W : Type}

/-- What a party has been told. -/
def Traced.told [DecidableEq ι] (party : ι) (world : Traced ι C R W) : List (Exchange C R) :=
  world.trace.filterMap fun event => if event.party = party then some ⟨event.command, event.response⟩ else none

variable [DecidableEq ι] {machine : (command : C) → W → R command × W} {party : ι}

theorem told_exec_self (command : C) (world : Traced ι C R W) :
    (Traced.exec machine party command world).2.told party =
      ⟨command, (machine command world.state).1⟩ :: world.told party := by
  simp [Traced.told, Traced.exec]

theorem told_exec_of_ne {other : ι} (different : other ≠ party) (command : C) (world : Traced ι C R W) :
    (Traced.exec machine party command world).2.told other = world.told other := by
  simp [Traced.told, Traced.exec, Ne.symm different]

theorem mem_told {world : Traced ι C R W} {exchange : Exchange C R} :
    exchange ∈ world.told party ↔ ⟨party, exchange.command, exchange.response⟩ ∈ world.trace := by
  rw [Traced.told, List.mem_filterMap]
  constructor
  next =>
    rintro ⟨⟨other, command, response⟩, member, same⟩
    split at same
    next mine => cases mine; cases same; exact member
    next => cases same
  next => exact fun member => ⟨_, member, if_pos rfl⟩

variable {α : ι → Type} {may : ι → C → Traced ι C R W → Prop} {outside : Traced ι C R W → Traced ι C R W → Prop}
  {takes : ι → List (Exchange C R) → C → Prop} {answers : (command : C) → R command → Prop}
  {posts : (party : ι) → Except ε (α party) → List (Exchange C R) → Prop} {I : Traced ι C R W → Prop}

/-- What every command keeps that a party can take after what it has been told, every interleaving keeps. -/
theorem Pool.run_recalls {before after : Pool ι C R ε α (Traced ι C R W)}
    (recalls : ∀ party, (before.procs party).Recalls (takes party) answers (posts party) (before.shared.told party))
    (answered : ∀ command world, I world → answers command (machine command world.state).1)
    (keeps : ∀ party command world, takes party (world.told party) command → may party command world → I world →
      I (Traced.exec machine party command world).2)
    (silent : ∀ first second, outside first second → second.trace = first.trace)
    (weather : ∀ first second, outside first second → I first → I second) (holds : I before.shared)
    (run : Pool.Run (fun party => ⟨Traced.exec machine party, may party⟩) outside before after) :
    I after.shared ∧
      ∀ party, (after.procs party).Recalls (takes party) answers (posts party) (after.shared.told party) := by
  induction run with
  | refl => exact ⟨holds, recalls⟩
  | tail _ step ih =>
    obtain ⟨held, goes⟩ := ih
    cases step with
    | act mover command next turn fits =>
      have moved := goes mover
      rw [turn] at moved
      refine ⟨keeps mover command _ moved.1 fits held, fun party => ?_⟩
      by_cases same : party = mover
      next =>
        subst same
        simp only [Function.update_self, told_exec_self]
        exact moved.2 _ (answered command _ held)
      next =>
        simp only [Function.update_of_ne same, told_exec_of_ne same]
        exact goes party
    | outside changed passes =>
      refine ⟨weather _ _ passes held, fun party => ?_⟩
      dsimp only
      rw [Traced.told, silent _ _ passes]
      exact goes party

end Together

end Prog
