import Mathlib.Data.List.Basic
import Mathlib.Tactic

set_option autoImplicit false

/-! Rounds over a list, each of which looks at the first few items and drops those not worth keeping. -/

namespace Sweeping

variable {α : Type} {keep : α → Bool} {limit : Nat} {items : List α}

def round (keep : α → Bool) (limit : Nat) (items : List α) : List α :=
  (items.take limit).filter keep ++ items.drop limit

def rounds (keep : α → Bool) (limit count : Nat) (items : List α) : List α := (round keep limit)^[count] items

/-- Some item not worth keeping has as many kept ones before it as a round looks at. -/
def Blocked (keep : α → Bool) (limit : Nat) (items : List α) : Prop :=
  ∃ before item after, items = before ++ item :: after ∧ keep item = false ∧ limit ≤ (before.filter keep).length

theorem mem_round {item : α} (member : item ∈ items) (kept : keep item) : item ∈ round keep limit items := by
  rw [← List.take_append_drop limit items, List.mem_append] at member
  rcases member with early | late
  next => exact List.mem_append_left _ (List.mem_filter.mpr ⟨early, kept⟩)
  next => exact List.mem_append_right _ late

theorem mem_rounds {item : α} (member : item ∈ items) (kept : keep item) (count : Nat) :
    item ∈ rounds keep limit count items := by
  induction count generalizing items with
  | zero => exact member
  | succ count ih => exact ih (mem_round member kept)

theorem blocked_round : Blocked keep limit (round keep limit items) ↔ Blocked keep limit items := by
  constructor
  next =>
    rintro ⟨before, item, after, split, dropped, crowded⟩
    -- What a round leaves of its page is kept, so the item is one the round did not look at.
    rcases List.append_eq_append_iff.mp split with ⟨rest, rfl, below⟩ | ⟨rest, above, below⟩
    next =>
      refine ⟨items.take limit ++ rest, item, after, ?_, dropped, ?_⟩
      next => rw [List.append_assoc, ← below, List.take_append_drop]
      next => simpa [List.filter_append, List.filter_filter] using crowded
    next =>
      cases rest with
      | nil =>
        have tail : items.drop limit = item :: after := below.symm
        refine ⟨items.take limit, item, after, ?_, dropped, ?_⟩
        next => rw [← tail, List.take_append_drop]
        next =>
          rw [List.append_nil] at above
          rw [← above, List.filter_filter] at crowded
          simpa using crowded
      | cons first rest =>
        obtain rfl : item = first := (List.cons.inj below).1
        have member : item ∈ (items.take limit).filter keep := above ▸ by simp
        rw [(List.mem_filter.mp member).2] at dropped
        cases dropped
  next =>
    rintro ⟨before, item, after, rfl, dropped, crowded⟩
    have long : limit ≤ before.length := crowded.trans (List.length_filter_le _ _)
    refine ⟨(before.take limit).filter keep ++ before.drop limit, item, after, ?_, dropped, ?_⟩
    next =>
      rw [round, List.take_append_of_le_length long, List.drop_append_of_le_length long, List.append_assoc]
    next =>
      have whole : (before.take limit).filter keep ++ (before.drop limit).filter keep = before.filter keep := by
        rw [← List.filter_append, List.take_append_drop]
      simpa [List.filter_append, List.filter_filter, ← whole] using crowded

theorem blocked_rounds (count : Nat) :
    Blocked keep limit (rounds keep limit count items) ↔ Blocked keep limit items := by
  induction count generalizing items with
  | zero => rfl
  | succ count ih => exact ih.trans blocked_round

/-- A round that is not blocked drops an item, if there is one to drop. -/
theorem round_drops (clear : ¬ Blocked keep limit items) {item : α} (member : item ∈ items)
    (dropped : keep item = false) :
    (round keep limit items).countP (fun item => !keep item) < items.countP fun item => !keep item := by
  obtain ⟨before, first, after, split, bad, good⟩ : ∃ before first after,
      items = before ++ first :: after ∧ keep first = false ∧ ∀ earlier ∈ before, keep earlier = true := by
    have some : (items.find? fun item => !keep item).isSome := by
      rw [List.find?_isSome]
      exact ⟨item, member, by simp [dropped]⟩
    obtain ⟨first, found⟩ := Option.isSome_iff_exists.mp some
    obtain ⟨bad, before, after, split, good⟩ := List.find?_eq_some_iff_append.mp found
    exact ⟨before, first, after, split, by simpa using bad, fun earlier among => by simpa using good earlier among⟩
  have short : before.length < limit := by
    by_contra long
    refine clear ⟨before, first, after, split, bad, ?_⟩
    rw [List.filter_eq_self.mpr good]
    omega
  have looked : first ∈ items.take limit := by
    rw [split, List.take_append]
    refine List.mem_append_right _ ?_
    obtain ⟨room, same⟩ : ∃ room, limit - before.length = room + 1 := ⟨limit - before.length - 1, by omega⟩
    rw [same, List.take_succ_cons]
    exact List.mem_cons_self
  have none : ((items.take limit).filter keep).countP (fun item => !keep item) = 0 := by
    rw [List.countP_eq_zero]
    intro kept among
    simp [(List.mem_filter.mp among).2]
  have some : 0 < (items.take limit).countP fun item => !keep item :=
    List.countP_pos_iff.mpr ⟨first, looked, by simp [bad]⟩
  have whole : items.countP (fun item => !keep item) =
      (items.take limit).countP (fun item => !keep item) + (items.drop limit).countP fun item => !keep item := by
    rw [← List.countP_append, List.take_append_drop]
  rw [round, List.countP_append, none, whole]
  omega

/-- Enough rounds drop everything not worth keeping exactly if nothing is blocked. -/
theorem rounds_clear :
    (∃ count, ∀ item ∈ rounds keep limit count items, keep item) ↔ ¬ Blocked keep limit items := by
  constructor
  next =>
    rintro ⟨count, clear⟩ blocked
    obtain ⟨before, item, after, split, dropped, -⟩ := (blocked_rounds count).mpr blocked
    have kept := clear item (split ▸ by simp)
    rw [kept] at dropped
    cases dropped
  next =>
    intro clear
    -- On the number of items to drop.
    induction amount : items.countP (fun item => !keep item) using Nat.strong_induction_on generalizing items with
    | h amount ih =>
      subst amount
      by_cases done : ∀ item ∈ items, keep item
      next => exact ⟨0, done⟩
      next =>
        push Not at done
        obtain ⟨item, member, dropped⟩ := done
        have fewer := round_drops clear member (by simpa using dropped)
        obtain ⟨count, rest⟩ := ih _ fewer (fun blocked => clear (blocked_round.mp blocked)) rfl
        exact ⟨count + 1, rest⟩

end Sweeping
