import LedgerVcs.Lib.Text
import Mathlib.Data.List.DropRight

set_option autoImplicit false

/-!
# Python integers as text

`int` takes white space around a numeral, a sign before it, and single underscores between its digits. Digits other than
those of ASCII are left out.
-/

namespace Text

/-! ## Writing -/

def decimalDigit (digit : Nat) : CodePoint := Fin.ofNat _ (0x30 + digit)

def ofNat (number : Nat) : PyStr :=
  if number = 0 then [decimalDigit 0] else (Nat.digits 10 number).reverse.map decimalDigit

/-- `str(number)` -/
def ofInt : Int → PyStr
  | .ofNat number => ofNat number
  | .negSucc number => 0x2d :: ofNat (number + 1)

/-! ## Reading -/

def decimalValue (point : CodePoint) : Option Nat :=
  if 0x30 ≤ point.val ∧ point.val ≤ 0x39 then some (point.val - 0x30) else none

/-- `point.isspace()` -/
def isWhite (point : CodePoint) : Bool :=
  0x09 ≤ point.val ∧ point.val ≤ 0x0d ∨ 0x1c ≤ point.val ∧ point.val ≤ 0x20 ∨
    0x2000 ≤ point.val ∧ point.val ≤ 0x200a ∨
    point.val ∈ [0x85, 0xa0, 0x1680, 0x2028, 0x2029, 0x202f, 0x205f, 0x3000]

def strip (text : PyStr) : PyStr := (text.dropWhile isWhite).rdropWhile isWhite

def toNat (text : PyStr) : Option Nat :=
  if [] ∈ text.splitOn 0x5f then none
  else (text.filter fun point => point ≠ 0x5f).mapM decimalValue |>.map fun digits => Nat.ofDigits 10 digits.reverse

/-- `int(text)`, `none` where it raises. -/
def toInt (text : PyStr) : Option Int :=
  match strip text with
  | [] => none
  | sign :: rest =>
    if sign = 0x2d then (toNat rest).map fun number => -Int.ofNat number
    else if sign = 0x2b then (toNat rest).map Int.ofNat
    else (toNat (sign :: rest)).map Int.ofNat

/-! ## Reading what was written -/

theorem val_decimalDigit {digit : Nat} (small : digit < 10) : (decimalDigit digit).val = 0x30 + digit := by
  change (0x30 + digit) % 0x110000 = _
  omega

theorem decimalValue_digit {digit : Nat} (small : digit < 10) : decimalValue (decimalDigit digit) = some digit := by
  rw [decimalValue, val_decimalDigit small, if_pos (by omega), Nat.add_sub_cancel_left]

theorem ofNat_digits (number : Nat) : ∃ digits : List Nat, digits ≠ [] ∧ (∀ digit ∈ digits, digit < 10) ∧
    ofNat number = digits.map decimalDigit ∧ Nat.ofDigits 10 digits.reverse = number := by
  rw [ofNat]
  split
  next zero => exact ⟨[0], by simp, by simp, rfl, by simp [zero]⟩
  next positive =>
    refine ⟨(Nat.digits 10 number).reverse, by simpa [Nat.digits_eq_nil_iff_eq_zero] using positive, fun digit member => ?_, rfl, ?_⟩
    next => exact Nat.digits_lt_base (by decide) (List.mem_reverse.mp member)
    next => rw [List.reverse_reverse, Nat.ofDigits_digits]

theorem mapM_decimalValue {digits : List Nat} (small : ∀ digit ∈ digits, digit < 10) :
    (digits.map decimalDigit).mapM decimalValue = some digits := by
  induction digits with
  | nil => rfl
  | cons digit digits ih =>
    obtain ⟨first, others⟩ := List.forall_mem_cons.mp small
    rw [List.map_cons, List.mapM_cons, decimalValue_digit first, ih others]
    rfl

/-- A digit is neither white space nor a sign nor an underscore. -/
theorem decimalDigit_plain {digit : Nat} (small : digit < 10) :
    isWhite (decimalDigit digit) = false ∧ decimalDigit digit ≠ 0x2d ∧ decimalDigit digit ≠ 0x2b ∧ decimalDigit digit ≠ 0x5f := by
  interval_cases digit <;> decide

theorem splitOn_absent {separator : CodePoint} {text : PyStr} (absent : separator ∉ text) : text.splitOn separator = [text] := by
  induction text with
  | nil => rfl
  | cons point text ih =>
    rw [List.mem_cons, not_or] at absent
    obtain ⟨different, others⟩ := absent
    rw [List.splitOn_cons_eq_if_modifyHead, if_neg (by simpa using Ne.symm different), ih others]
    rfl

theorem toNat_ofNat (number : Nat) : toNat (ofNat number) = some number := by
  obtain ⟨digits, some_digit, small, spelled, value⟩ := ofNat_digits number
  have plain : ∀ point ∈ digits.map decimalDigit, point ≠ 0x5f := by
    simpa using fun digit member => (decimalDigit_plain (small digit member)).2.2.2
  have whole : (digits.map decimalDigit).filter (fun point => point ≠ 0x5f) = digits.map decimalDigit :=
    List.filter_eq_self.mpr (by simpa using plain)
  rw [toNat, spelled, splitOn_absent fun member => plain _ member rfl, if_neg (by simpa using some_digit.symm), whole,
    mapM_decimalValue small, Option.map_some, value]

theorem strip_clear {text : PyStr} (clear : ∀ point ∈ text, isWhite point = false) : strip text = text := by
  have start : text.dropWhile isWhite = text := by
    cases text with
    | nil => rfl
    | cons point text => rw [List.dropWhile_cons_of_neg (by simp [clear point])]
  rw [strip, start, List.rdropWhile_eq_self_iff]
  intro nonempty
  simp [clear _ (List.getLast_mem nonempty)]

theorem toInt_ofInt (number : Int) : toInt (ofInt number) = some number := by
  have clear (number : Nat) : ∀ point ∈ ofNat number, isWhite point = false := by
    obtain ⟨digits, -, small, spelled, -⟩ := ofNat_digits number
    rw [spelled]
    simpa using fun digit member => (decimalDigit_plain (small digit member)).1
  cases number with
  | ofNat number =>
    rw [ofInt, toInt, strip_clear (clear number)]
    obtain ⟨digits, some_digit, small, spelled, -⟩ := ofNat_digits number
    cases digits with
    | nil => exact absurd rfl some_digit
    | cons digit digits =>
      obtain ⟨-, minus, plus, -⟩ := decimalDigit_plain (List.forall_mem_cons.mp small).1
      have read := toNat_ofNat number
      rw [spelled, List.map_cons] at read ⊢
      simp [minus, plus, read]
  | negSucc number =>
    have kept : strip (0x2d :: ofNat (number + 1)) = 0x2d :: ofNat (number + 1) :=
      strip_clear (List.forall_mem_cons.mpr ⟨by decide, clear (number + 1)⟩)
    rw [ofInt, toInt, kept]
    simp only [if_true, toNat_ofNat, Option.map_some]
    rfl

end Text
