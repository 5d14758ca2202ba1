import Mathlib.Tactic
import Mathlib.Data.List.Sort

set_option autoImplicit false

/-! Lists in the order of a key. -/

namespace Ordered

variable {α β : Type} [LinearOrder β] (key : α → β)

/-- Strictly ascending. -/
def Ascending (items : List α) : Prop := items.Pairwise fun left right => key left < key right

/-- How many of the items come before one. -/
def rank (items : List α) (item : α) : Nat := (items.filter fun other => key other < key item).length

variable {key} {items : List α} {item : α}

theorem rank_perm {others : List α} (same : items.Perm others) : rank key items item = rank key others item :=
  (same.filter _).length_eq

theorem Ascending.nodup (ascending : Ascending key items) : items.Nodup :=
  ascending.imp fun before same => absurd (congrArg key same) before.ne

theorem Ascending.inj (ascending : Ascending key items) {other : α} (first : item ∈ items) (second : other ∈ items)
    (same : key item = key other) : item = other := by
  by_contra different
  have apart : items.Pairwise fun left right => key left ≠ key right ∧ key right ≠ key left :=
    ascending.imp fun before => ⟨before.ne, before.ne'⟩
  have : Std.Symm fun left right => key left ≠ key right ∧ key right ≠ key left := ⟨fun _ _ both => ⟨both.2, both.1⟩⟩
  exact (apart.forall first second different).1 same

theorem mem_take (ascending : Ascending key items) (count : Nat) :
    item ∈ items.take count ↔ item ∈ items ∧ rank key items item < count := by
  induction items generalizing count with
  | nil => simp
  | cons first rest ih =>
    obtain ⟨least, others⟩ := List.pairwise_cons.mp ascending
    cases count with
    | zero => simp
    | succ count =>
      rw [List.take_succ_cons, List.mem_cons, List.mem_cons, ih others]
      by_cases same : item = first
      next =>
        subst same
        have none : rank key (item :: rest) item = 0 := by
          rw [rank, List.length_eq_zero_iff, List.filter_eq_nil_iff]
          intro other member
          rw [decide_eq_true_eq, not_lt]
          rcases List.mem_cons.mp member with rfl | later
          next => exact le_refl _
          next => exact (least other later).le
        simp [none]
      next =>
        simp only [same, false_or]
        refine and_congr_right fun member => ?_
        have behind : rank key (first :: rest) item = rank key rest item + 1 := by
          rw [rank, List.filter_cons_of_pos (by simpa using least item member), List.length_cons, rank]
        omega

/-- A list cut at some length has everything that comes before one of its items. -/
theorem take_closed (ascending : Ascending key items) {count : Nat} {other : α} (taken : item ∈ items.take count)
    (member : other ∈ items) (before : key other ≤ key item) : other ∈ items.take count := by
  rw [mem_take ascending] at taken ⊢
  refine ⟨member, lt_of_le_of_lt ?_ taken.2⟩
  refine (List.monotone_filter_right items fun third earlier => ?_).length_le
  rw [decide_eq_true_eq] at earlier ⊢
  exact lt_of_lt_of_le earlier before

/-- Two ascending orders of one list order any two of its items the same way. -/
theorem agree {γ : Type} [LinearOrder γ] {other_key : α → γ} {left right : α} (ascending : Ascending key items)
    (too : Ascending other_key items) (first : left ∈ items) (second : right ∈ items)
    (before : key left < key right) : other_key left < other_key right := by
  induction items with
  | nil => cases first
  | cons least rest ih =>
    obtain ⟨below, others⟩ := List.pairwise_cons.mp ascending
    obtain ⟨below', others'⟩ := List.pairwise_cons.mp too
    rcases List.mem_cons.mp first with rfl | later
    next =>
      rcases List.mem_cons.mp second with rfl | last
      next => exact absurd before (lt_irrefl _)
      next => exact below' right last
    next =>
      rcases List.mem_cons.mp second with rfl | last
      next => exact absurd before (not_lt_of_gt (below left later))
      next => exact ih others others' later last

/-- Sorting items of different keys. -/
theorem insertionSort_ascending (apart : items.Pairwise fun left right => key left ≠ key right) :
    Ascending key (items.insertionSort fun left right => key left ≤ key right) := by
  have : Std.Total fun left right : α => key left ≤ key right := ⟨fun left right => le_total (key left) (key right)⟩
  have : IsTrans α fun left right => key left ≤ key right := ⟨fun _ _ _ => le_trans⟩
  have sorted := List.pairwise_insertionSort (fun left right : α => key left ≤ key right) items
  have different := apart.perm (List.perm_insertionSort (fun left right => key left ≤ key right) items).symm
    fun ne => ne.symm
  exact (List.pairwise_and_iff.mpr ⟨sorted, different⟩).imp fun both => lt_of_le_of_ne both.1 both.2

end Ordered
