import LedgerVcs.Lib.Prog

set_option autoImplicit false

/-! Runs that follow a script. -/

namespace Prog

variable {ι C : Type} {R : C → Type} {ε β W : Type} {α : ι → Type}

/-- The actor may take each of the first commands of the program. -/
def Admitted (actor : Actor C R W) : Nat → Prog C R ε β → W → Prop
  | commands + 1, .call command next, state =>
      actor.may command state ∧ Admitted actor commands (next (actor.exec command state).1) (actor.exec command state).2
  | _, _, _ => True

instance Admitted.decidable {actor : Actor C R W} [∀ command state, Decidable (actor.may command state)] :
    (commands : Nat) → (p : Prog C R ε β) → (state : W) → Decidable (Admitted actor commands p state)
  | 0, .done _, _ => isTrue trivial
  | 0, .fail _, _ => isTrue trivial
  | 0, .call _ _, _ => isTrue trivial
  | _ + 1, .done _, _ => isTrue trivial
  | _ + 1, .fail _, _ => isTrue trivial
  | commands + 1, .call command next, state =>
    have := @decidable actor _ commands (next (actor.exec command state).1) (actor.exec command state).2
    inferInstanceAs (Decidable (actor.may command state ∧ _))

namespace Pool

/-- Some commands of one party, or a change from outside. -/
inductive Cue (ι W : Type)
  | turn (party : ι) (commands : Nat)
  | weather (change : W → W)

variable [DecidableEq ι] (actors : ι → Actor C R W)

def cue (pool : Pool ι C R ε α W) : Cue ι W → Pool ι C R ε α W
  | .turn party commands => pool.turn actors party commands
  | .weather change => ⟨change pool.shared, pool.procs⟩

def play (script : List (Cue ι W)) (pool : Pool ι C R ε α W) : Pool ι C R ε α W := script.foldl (cue actors) pool

/-- Every command that the script has the parties take is one that they may take. -/
def Plays : List (Cue ι W) → Pool ι C R ε α W → Prop
  | [], _ => True
  | .turn party commands :: script, pool =>
      Admitted (actors party) commands (pool.procs party) pool.shared ∧ Plays script (pool.turn actors party commands)
  | .weather change :: script, pool => Plays script ⟨change pool.shared, pool.procs⟩

instance Plays.decidable [∀ party command state, Decidable ((actors party).may command state)] :
    (script : List (Cue ι W)) → (pool : Pool ι C R ε α W) → Decidable (Plays actors script pool)
  | [], _ => isTrue trivial
  | .turn party commands :: script, pool =>
    have := @decidable _ script (pool.turn actors party commands)
    inferInstanceAs (Decidable (_ ∧ _))
  | .weather _ :: script, _ => decidable script _

variable {actors} {outside : W → W → Prop}

theorem Run.admitted {party : ι} (commands : Nat) (pool : Pool ι C R ε α W)
    (admitted : Admitted (actors party) commands (pool.procs party) pool.shared) :
    Run actors outside pool (pool.turn actors party commands) := by
  induction commands generalizing pool with
  | zero =>
    rw [turn, Prog.advance, Function.update_eq_self]
    exact .refl
  | succ commands ih =>
    cases next : pool.procs party with
    | done | fail =>
      rw [turn, next, Prog.advance, ← next, Function.update_eq_self]
      exact .refl
    | call command rest =>
      rw [next] at admitted
      refine .head (.act pool party command rest next admitted.1) ?_
      have later := ih ⟨((actors party).exec command pool.shared).2,
        Function.update pool.procs party (rest ((actors party).exec command pool.shared).1)⟩
        (by simpa only [Function.update_self] using admitted.2)
      simp only [turn, Function.update_self, Function.update_idem] at later
      rw [turn, next, Prog.advance]
      exact later

theorem Run.play {script : List (Cue ι W)} {pool : Pool ι C R ε α W}
    (weather : ∀ change, .weather change ∈ script → ∀ state, outside state (change state))
    (plays : Plays actors script pool) : Run actors outside pool (pool.play actors script) := by
  induction script generalizing pool with
  | nil => exact .refl
  | cons cue script ih =>
    have later {pool : Pool ι C R ε α W} (plays : Plays actors script pool) :=
      ih (fun change member => weather change (List.mem_cons_of_mem _ member)) plays
    cases cue with
    | turn party commands => exact (Run.admitted commands pool plays.1).trans (later plays.2)
    | weather change =>
      exact .head (.outside pool _ (weather change List.mem_cons_self pool.shared)) (later plays)

end Pool

end Prog
