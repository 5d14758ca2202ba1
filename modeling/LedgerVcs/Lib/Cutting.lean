import Mathlib.Tactic

set_option autoImplicit false

/-!
# Cutting a list from the front

The rule `cut` looks at what is left and gives the length of the next piece. What a piece is depends on the list from
where it begins only, so two lists with a common tail have the same pieces from any place of it where both begin one.
-/

namespace Cutting

variable {α : Type}

inductive Cuts (cut : List α → Nat) : List α → List (List α) → Prop
  | done : Cuts cut [] []
  | piece {data : List α} {pieces : List (List α)} (some : data ≠ []) (rest : Cuts cut (data.drop (cut data)) pieces) :
      Cuts cut data (data.take (cut data) :: pieces)

/-- Where a piece that ends before the end of a front is decided by the front. -/
def Decided (cut : List α → Nat) : Prop :=
  ∀ front tail other : List α, cut (front ++ tail) < front.length → cut (front ++ other) = cut (front ++ tail)

variable {cut : List α → Nat}

theorem Cuts.unique {data : List α} {pieces others : List (List α)} (first : Cuts cut data pieces) (second : Cuts cut data others) :
    pieces = others := by
  induction first generalizing others with
  | done =>
    cases second with
    | done => rfl
    | piece some => exact absurd rfl some
  | piece some rest ih =>
    cases second with
    | done => exact absurd rfl some
    | piece some rest' => exact congrArg _ (ih rest')

theorem Cuts.flatten {data : List α} {pieces : List (List α)} (cuts : Cuts cut data pieces) : pieces.flatten = data := by
  induction cuts with
  | done => rfl
  | piece some rest ih => rw [List.flatten_cons, ih, List.take_append_drop]

theorem Cuts.head {data : List α} {pieces : List (List α)} (cuts : Cuts cut data pieces) :
    pieces = [] ∨ ∃ rest, pieces = data.take (cut data) :: rest ∧ Cuts cut (data.drop (cut data)) rest := by
  cases cuts with
  | done => exact .inl rfl
  | piece some rest => exact .inr ⟨_, rfl, rest⟩

theorem Cuts.after {data : List α} {front back : List (List α)} (cuts : Cuts cut data (front ++ back)) :
    Cuts cut (data.drop front.flatten.length) back := by
  induction front generalizing data with
  | nil => exact cuts
  | cons piece front ih =>
    cases cuts with
    | piece some rest =>
      have later := ih rest
      rw [List.drop_drop] at later
      by_cases inside : cut data ≤ data.length
      next => rwa [List.flatten_cons, List.length_append, List.length_take, min_eq_left inside]
      next =>
        -- nothing is left, however far beyond the end the rule points
        have beyond : data.length ≤ cut data := Nat.le_of_not_le inside
        rw [List.drop_eq_nil_of_le (by omega)] at later
        rwa [List.flatten_cons, List.length_append, List.length_take, min_eq_right beyond, List.drop_eq_nil_of_le (by omega)]

/-- From a place of a common tail where both lists begin a piece, they have the same pieces. -/
theorem Cuts.rejoin {data data' tail : List α} {front front' back back' : List (List α)} (first : Cuts cut data (front ++ back))
    (second : Cuts cut data' (front' ++ back')) (left : data.drop front.flatten.length = tail)
    (left' : data'.drop front'.flatten.length = tail) : back = back' :=
  (left ▸ first.after).unique (left' ▸ second.after)

/-- The pieces that end before the end of a common front are the same, and the next one of either list reaches that end. -/
theorem Cuts.front (decided : Decided cut) {shared tail other : List α} {pieces others : List (List α)}
    (first : Cuts cut (shared ++ tail) pieces) (second : Cuts cut (shared ++ other) others) :
    ∃ front rest rest', pieces = front ++ rest ∧ others = front ++ rest' ∧
      ∀ piece, piece ∈ rest.head? ∨ piece ∈ rest'.head? → shared.length ≤ (front ++ [piece]).flatten.length := by
  generalize whole : shared ++ tail = data at first
  induction first generalizing shared others with
  | done =>
    obtain ⟨rfl, rfl⟩ := List.append_eq_nil_iff.mp whole
    exact ⟨[], [], others, rfl, rfl, fun piece _ => Nat.zero_le _⟩
  | @piece data pieces some rest ih =>
    subst whole
    by_cases early : cut (shared ++ tail) < shared.length
    next =>
      have same := decided shared tail other early
      rcases second.head with rfl | ⟨others, rfl, rest'⟩
      next =>
        have none := congrArg List.length second.flatten
        rw [List.flatten_nil, List.length_nil, List.length_append] at none
        omega
      next =>
        rw [same, List.drop_append_of_le_length early.le] at rest'
        rw [List.drop_append_of_le_length early.le] at ih
        obtain ⟨front, left, left', rfl, rfl, reach⟩ := ih rest' rfl
        refine ⟨_ :: front, left, left', rfl, ?_, fun piece member => ?_⟩
        next => rw [same, List.take_append_of_le_length early.le, List.take_append_of_le_length early.le, List.cons_append]
        next =>
          have later := reach piece member
          rw [List.length_drop] at later
          rw [List.cons_append, List.flatten_cons, List.length_append, List.length_take, List.length_append]
          omega
    next =>
      refine ⟨[], _, others, rfl, rfl, fun piece member => ?_⟩
      rw [List.nil_append, List.flatten_singleton]
      rcases member with member | member
      next =>
        cases member
        rw [List.length_take, List.length_append]
        omega
      next =>
        rcases second.head with rfl | ⟨others, rfl, -⟩
        next => cases member
        next =>
          cases member
          have late : ¬ cut (shared ++ other) < shared.length := fun early' => early (decided shared other tail early' ▸ early')
          rw [List.length_take, List.length_append]
          omega

theorem straddled {pieces : List (List α)} {place : Nat} (inside : place < pieces.flatten.length) :
    ∃ front piece back, pieces = front ++ piece :: back ∧ front.flatten.length ≤ place ∧ place < front.flatten.length + piece.length := by
  induction pieces generalizing place with
  | nil => cases inside
  | cons piece pieces ih =>
    rw [List.flatten_cons, List.length_append] at inside
    by_cases first : place < piece.length
    next => exact ⟨[], piece, pieces, rfl, Nat.zero_le _, by simpa using first⟩
    next =>
      obtain ⟨front, next, back, rfl, after, before⟩ := @ih (place - piece.length) (by omega)
      refine ⟨piece :: front, next, back, rfl, ?_, ?_⟩
      all_goals rw [List.flatten_cons, List.length_append]; omega

end Cutting
