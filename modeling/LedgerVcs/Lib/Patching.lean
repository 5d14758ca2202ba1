import Mathlib.Tactic

set_option autoImplicit false

/-!
# Patching a map of paths

A map gives a path nothing, a leaf, or the value `inner`, which marks what has others below it. A step sets a path to a
leaf, with inner nodes on the way to it and nothing below it, or removes it with all that is below it.
-/

namespace Patching

variable {κ β : Type} [DecidableEq κ] [DecidableEq β]

abbrev Map (κ β : Type) := List κ → Option β

abbrev Step (κ β : Type) := List κ × Option β

def put (inner : β) (step : Step κ β) (map : Map κ β) (other : List κ) : Option β :=
  if other = step.1 then step.2
  else if step.1 <+: other then none
  else if step.2 ≠ none ∧ other ≠ [] ∧ other <+: step.1 then some inner
  else map other

def patch (inner : β) (map : Map κ β) (steps : List (Step κ β)) : Map κ β :=
  steps.foldl (fun map step => put inner step map) map

def leaf (inner : β) (map : Map κ β) (path : List κ) : Option β := (map path).filter (· ≠ inner)

/-- What has something below it is an inner node. -/
structure Nested (inner : β) (map : Map κ β) : Prop where
  root : map [] = none
  above : ∀ path other, path ≠ [] → path <+: other → path ≠ other → map other ≠ none → map path = some inner

/-- No path that is removed is on the way to one that has been set before, or the other way round. -/
def Ordered (steps : List (Step κ β)) : Prop :=
  steps.Pairwise fun first second => first.2 ≠ none → second.2 = none → ¬ first.1 <+: second.1 ∧ ¬ second.1 <+: first.1

/-- The steps set and remove just the leaves that are not the same in both maps. -/
structure Leads (inner : β) (same : Option β → Option β → Prop) (old new : Map κ β) (steps : List (Step κ β)) : Prop where
  sets : ∀ path value, (path, some value) ∈ steps → leaf inner new path = some value
  removes : ∀ path, (path, none) ∈ steps → leaf inner old path ≠ none ∧ ¬ same (leaf inner old path) (leaf inner new path)
  complete : ∀ path, ¬ same (leaf inner old path) (leaf inner new path) → (path, leaf inner new path) ∈ steps
  ordered : Ordered steps

variable {inner : β} {map old new : Map κ β} {path other : List κ} {value : Option β} {same : Option β → Option β → Prop}
  {steps : List (Step κ β)}

omit [DecidableEq κ] in
theorem leaf_eq_some {held : β} : leaf inner map path = some held ↔ map path = some held ∧ held ≠ inner := by
  rw [leaf, Option.filter_eq_some_iff, decide_eq_true_iff]

omit [DecidableEq κ] in
theorem leaf_ne_none : leaf inner map path ≠ none ↔ map path ≠ none ∧ map path ≠ some inner := by
  cases held : map path with
  | none => simp [leaf, held]
  | some value => simp [leaf, held, Option.filter_some]

omit [DecidableEq κ] in
/-- There is one leaf at most on the way to a path. -/
theorem Nested.leaves (nested : Nested inner map) (first : leaf inner map path ≠ none) (second : leaf inner map other ≠ none)
    (above : path <+: other ∨ other <+: path) : path = other := by
  have onward {path other : List κ} (first : leaf inner map path ≠ none) (second : leaf inner map other ≠ none)
      (above : path <+: other) : path = other := by
    by_contra proper
    have nonempty : path ≠ [] := by
      rintro rfl
      exact (leaf_ne_none.mp first).1 nested.root
    exact (leaf_ne_none.mp first).2 (nested.above path other nonempty above proper (leaf_ne_none.mp second).1)
  rcases above with above | above
  next => exact onward first second above
  next => exact (onward second first above).symm

section Reaching

omit [DecidableEq κ] in
theorem Leads.plain (leads : Leads inner same old new steps) {step : Step κ β} (member : step ∈ steps) : step.2 ≠ some inner := by
  obtain ⟨path, value⟩ := step
  rintro rfl
  exact (leaf_eq_some.mp (leads.sets path inner member)).2 rfl

end Reaching

/-! ## Inner nodes -/

omit [DecidableEq β] in
theorem Nested.put (nested : Nested inner map) (nonempty : path ≠ []) : Nested inner (put inner (path, value) map) := by
  constructor
  next =>
    rw [Patching.put, if_neg nonempty.symm, if_neg (mt List.prefix_nil.mp nonempty), if_neg fun way => way.2.1 rfl]
    exact nested.root
  next =>
    intro higher other start above proper there
    have shorter : higher.length < other.length := by
      have upto := above.length_le
      rcases Nat.lt_or_ge higher.length other.length with less | more
      next => exact less
      next => exact absurd (above.eq_of_length (Nat.le_antisymm upto more)) proper
    have inside (within : other <+: path) (sets : value ≠ none) : Patching.put inner (path, value) map higher = some inner := by
      have long := within.length_le
      have apart : higher ≠ path := by rintro rfl; omega
      have longer : ¬ path <+: higher := fun below => absurd below.length_le (by omega)
      exact (if_neg apart).trans ((if_neg longer).trans (if_pos ⟨sets, start, above.trans within⟩))
    rw [Patching.put] at there
    split_ifs at there with here below way
    next =>
      subst here
      exact inside List.prefix_rfl there
    next => exact absurd rfl there
    next => exact inside way.2.2 way.1
    next =>
      have held := nested.above higher other start above proper there
      have apart : higher ≠ path := by rintro rfl; exact below above
      rw [Patching.put, if_neg apart, if_neg fun under => below (under.trans above), held, ite_self]

omit [DecidableEq β] in
theorem Nested.patch (nested : Nested inner map) (nonempty : ∀ step ∈ steps, step.1 ≠ []) : Nested inner (patch inner map steps) := by
  induction steps generalizing map with
  | nil => exact nested
  | cons step steps ih =>
    obtain ⟨here, later⟩ := List.forall_mem_cons.mp nonempty
    exact ih (nested.put here) later

end Patching
