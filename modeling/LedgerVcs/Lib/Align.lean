import LedgerVcs.Lib.Routing

set_option autoImplicit false

/-! Walking two ascending lists together. -/

namespace Align

open Routing (Ascending)

variable {κ α : Type} [LT κ] [DecidableLT κ]

/-- Each item with the one of the same key in the other list, if there is one. -/
def align (key : α → κ) : List α → List α → List (Option α × Option α)
  | [], [] => []
  | item :: left, [] => (some item, none) :: align key left []
  | [], item :: right => (none, some item) :: align key [] right
  | first :: left, second :: right =>
    if key first < key second then (some first, none) :: align key left (second :: right)
    else if key second < key first then (none, some second) :: align key (first :: left) right
    else (some first, some second) :: align key left right
termination_by left right => left.length + right.length

variable [LE κ] [DecidableEq κ] [Std.IsLinearOrder κ] [Std.LawfulOrderLT κ] {key : α → κ}

/-- The item of that key, if the list has one. -/
def named (key : α → κ) (items : List α) (sought : κ) : Option α := items.find? fun item => key item = sought

omit [DecidableLT κ] [Std.IsLinearOrder κ] in
theorem named_later {item : α} {items : List α} {sought : κ} (before : key item < sought) :
    named key (item :: items) sought = named key items sought :=
  List.find?_cons_of_neg (by simpa using Std.ne_of_lt before)

omit [LT κ] [DecidableLT κ] [LE κ] [Std.IsLinearOrder κ] [Std.LawfulOrderLT κ] in
theorem named_first (item : α) (items : List α) : named key (item :: items) (key item) = some item :=
  List.find?_cons_of_pos (by simp)

omit [DecidableLT κ] [Std.IsLinearOrder κ] in
theorem named_missing {items : List α} {sought : κ} (behind : ∀ item ∈ items, sought < key item) :
    named key items sought = none :=
  List.find?_eq_none.mpr fun item member => by simpa using (Std.ne_of_lt (behind item member)).symm

/-- An ascending list is known from what it has under each key. -/
theorem named_inj {left right : List α} (first : Ascending key left) (second : Ascending key right)
    (same : ∀ sought, named key left sought = named key right sought) : left = right := by
  have held {items others : List α} {item : α} (same : ∀ sought, named key items sought = named key others sought)
      (first : named key items (key item) = some item) : item ∈ others :=
    List.mem_of_find?_eq_some ((same (key item)).symm.trans first)
  induction left generalizing right with
  | nil =>
    cases right with
    | nil => rfl
    | cons other right => cases (same (key other)).trans (named_first other right)
  | cons item left ih =>
    cases right with
    | nil => cases (same (key item)).symm.trans (named_first item left)
    | cons other right =>
      obtain ⟨behind, rest⟩ := List.pairwise_cons.mp first
      obtain ⟨behind', rest'⟩ := List.pairwise_cons.mp second
      have heads : item = other := by
        rcases List.mem_cons.mp (held same (named_first item left)) with equal | later
        next => exact equal
        next =>
          rcases List.mem_cons.mp (held (fun sought => (same sought).symm) (named_first other right)) with equal | later'
          next => exact equal.symm
          next => exact absurd (Std.lt_trans (behind' item later) (behind other later')) Std.lt_irrefl
      subst heads
      refine congrArg _ (ih rest rest' fun sought => ?_)
      by_cases after : key item < sought
      next => rw [← named_later after, same, named_later after]
      next =>
        have ahead {items : List α} (behind : ∀ entry ∈ items, key item < key entry) : named key items sought = none :=
          named_missing fun entry member => Std.lt_of_le_of_lt (Std.not_lt.mp after) (behind entry member)
        rw [ahead behind, ahead behind']

/-- Both lists, key by key. -/
def Aligned (key : α → κ) (left right : List α) (keys : List κ) : Prop :=
  keys.Pairwise (· < ·) ∧ (∀ sought, sought ∈ keys ↔ ∃ item, (item ∈ left ∨ item ∈ right) ∧ key item = sought) ∧
    align key left right = keys.map fun sought => (named key left sought, named key right sought)

omit [LE κ] [Std.IsLinearOrder κ] [Std.LawfulOrderLT κ] in
/-- One key before all the others. -/
theorem aligned_cons {left right left' right' : List α} {keys : List κ} {next : κ} (aligned : Aligned key left' right' keys)
    (behind : ∀ item, item ∈ left' ∨ item ∈ right' → next < key item)
    (now : align key left right = (named key left next, named key right next) :: align key left' right')
    (later : ∀ sought, next < sought →
      named key left sought = named key left' sought ∧ named key right sought = named key right' sought)
    (known : ∀ sought, (∃ item, (item ∈ left ∨ item ∈ right) ∧ key item = sought) ↔
      sought = next ∨ ∃ item, (item ∈ left' ∨ item ∈ right') ∧ key item = sought) :
    Aligned key left right (next :: keys) := by
  obtain ⟨ascending, members, same⟩ := aligned
  have after (sought : κ) (member : sought ∈ keys) : next < sought := by
    obtain ⟨item, here, rfl⟩ := (members sought).mp member
    exact behind item here
  refine ⟨List.pairwise_cons.mpr ⟨after, ascending⟩, fun sought => ?_, ?_⟩
  next => rw [List.mem_cons, members, known]
  next =>
    rw [now, same, List.map_cons]
    refine congrArg _ (List.map_congr_left fun sought member => ?_)
    rw [(later sought (after sought member)).1, (later sought (after sought member)).2]

theorem align_keys {left right : List α} (first : Ascending key left) (second : Ascending key right) :
    ∃ keys, Aligned key left right keys := by
  induction left, right using align.induct key with
  | case1 => exact ⟨[], .nil, by simp, by simp [align]⟩
  | case2 item left ih =>
    obtain ⟨behind, rest⟩ := List.pairwise_cons.mp first
    obtain ⟨keys, aligned⟩ := ih rest second
    refine ⟨key item :: keys, aligned_cons aligned (by simpa using behind) ?_ (fun sought after => ?_) (by simp [eq_comm])⟩
    next => rw [align, named_first]; rfl
    next => exact ⟨named_later after, rfl⟩
  | case3 item right ih =>
    obtain ⟨behind, rest⟩ := List.pairwise_cons.mp second
    obtain ⟨keys, aligned⟩ := ih first rest
    refine ⟨key item :: keys, aligned_cons aligned (by simpa using behind) ?_ (fun sought after => ?_) (by simp [eq_comm])⟩
    next => rw [align, named_first]; rfl
    next => exact ⟨rfl, named_later after⟩
  | case4 item left other right before ih =>
    obtain ⟨behind, rest⟩ := List.pairwise_cons.mp first
    obtain ⟨above, -⟩ := List.pairwise_cons.mp second
    obtain ⟨keys, aligned⟩ := ih rest second
    have ahead : ∀ entry ∈ other :: right, key item < key entry :=
      List.forall_mem_cons.mpr ⟨before, fun entry member => Std.lt_trans before (above entry member)⟩
    refine ⟨key item :: keys, aligned_cons aligned (fun entry => Or.rec (behind entry) (ahead entry)) ?_
      (fun sought after => ⟨named_later after, rfl⟩) fun sought => ?_⟩
    next => rw [align, if_pos before, named_first, named_missing ahead]
    next => simp [eq_comm, or_and_right, exists_or, or_assoc]
  | case5 item left other right notBefore after ih =>
    obtain ⟨above, -⟩ := List.pairwise_cons.mp first
    obtain ⟨behind, rest⟩ := List.pairwise_cons.mp second
    obtain ⟨keys, aligned⟩ := ih first rest
    have ahead : ∀ entry ∈ item :: left, key other < key entry :=
      List.forall_mem_cons.mpr ⟨after, fun entry member => Std.lt_trans after (above entry member)⟩
    refine ⟨key other :: keys, aligned_cons aligned (fun entry => Or.rec (ahead entry) (behind entry)) ?_
      (fun sought later => ⟨rfl, named_later later⟩) fun sought => ?_⟩
    next => rw [align, if_neg notBefore, if_pos after, named_first, named_missing ahead]
    next =>
      simp only [List.mem_cons, or_and_right, exists_or, exists_eq_left, @eq_comm _ sought]
      exact or_left_comm
  | case6 item left other right notBefore notAfter ih =>
    have same : key item = key other := Std.le_antisymm (Std.not_lt.mp notAfter) (Std.not_lt.mp notBefore)
    obtain ⟨behind, rest⟩ := List.pairwise_cons.mp first
    obtain ⟨behind', rest'⟩ := List.pairwise_cons.mp second
    obtain ⟨keys, aligned⟩ := ih rest rest'
    refine ⟨key item :: keys, aligned_cons aligned (fun entry => Or.rec (behind entry) (same ▸ behind' entry)) ?_
      (fun sought later => ⟨named_later later, named_later (same ▸ later)⟩) fun sought => ?_⟩
    next => rw [align, if_neg notBefore, if_neg notAfter, named_first, same, named_first]
    next =>
      simp only [List.mem_cons, or_and_right, exists_or, exists_eq_left, ← same, @eq_comm _ sought]
      exact or_or_distrib_left.symm

end Align
