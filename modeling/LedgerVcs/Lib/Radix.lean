import Mathlib.Data.List.Lex
import Mathlib.Tactic

set_option autoImplicit false

/-! Numerals of a fixed width, and their order as texts. -/

namespace Radix

/-- The last digits of a number, so many of them, the leading one first. -/
def digits (base : Nat) : (width : Nat) → Nat → List Nat
  | 0, _ => []
  | width + 1, number => digits base width (number / base) ++ [number % base]

variable {base width : Nat}

theorem length_digits (number : Nat) : (digits base width number).length = width := by
  induction width generalizing number with
  | zero => rfl
  | succ width ih => rw [digits, List.length_append, ih, List.length_singleton]

theorem digits_small (positive : 0 < base) {number digit : Nat} (member : digit ∈ digits base width number) : digit < base := by
  induction width generalizing number with
  | zero => cases member
  | succ width ih =>
    rw [digits, List.mem_append, List.mem_singleton] at member
    rcases member with leading | rfl
    next => exact ih leading
    next => exact Nat.mod_lt _ positive

theorem lex_longer {left right : List Nat} (same : left.length = right.length) (less : left < right) (rest rest' : List Nat) :
    left ++ rest < right ++ rest' := by
  induction less with
  | nil => cases same
  | cons _ ih => exact .cons (ih (Nat.succ.inj same))
  | rel less => exact .rel less

/-- Texts of one length are ordered by what comes before their last characters, and by those where that is the same. -/
theorem lex_snoc {left right : List Nat} (same : left.length = right.length) {last last' : Nat}
    (less : left < right ∨ left = right ∧ last < last') : left ++ [last] < right ++ [last'] := by
  rcases less with less | ⟨rfl, less⟩
  next => exact lex_longer same less _ _
  next => exact List.Lex.append_left _ (.rel less) left

theorem digits_lt {left right : Nat} (less : left < right) (small : right < base ^ width) :
    digits base width left < digits base width right := by
  induction width generalizing left right with
  | zero =>
    rw [Nat.pow_zero] at small
    omega
  | succ width ih =>
    have quotient : right / base < base ^ width := by
      rw [Nat.pow_succ] at small
      exact Nat.div_lt_of_lt_mul (by rwa [Nat.mul_comm])
    refine lex_snoc (by rw [length_digits, length_digits]) ?_
    rcases Nat.lt_or_eq_of_le (Nat.div_le_div_right (c := base) less.le) with higher | same
    next => exact .inl (ih higher quotient)
    next =>
      refine .inr ⟨by rw [same], ?_⟩
      have parts := Nat.div_add_mod left base
      have parts' := Nat.div_add_mod right base
      rw [same] at parts
      omega

/-- Strictly increasing characters keep the order. -/
theorem map_lt {α : Type} [LT α] {bound : Nat} {letter : Nat → α} (increasing : ∀ low high, low < high → high < bound → letter low < letter high)
    {left right : List Nat} (bounded : ∀ digit ∈ right, digit < bound) (less : left < right) : left.map letter < right.map letter := by
  induction less with
  | nil => exact .nil
  | cons _ ih => exact .cons (ih fun digit member => bounded digit (List.mem_cons_of_mem _ member))
  | rel less => exact .rel (increasing _ _ less (bounded _ List.mem_cons_self))

end Radix
