import LedgerVcs.Lib.Radix
import LedgerVcs.Lib.Text
import Mathlib.Data.Int.Bitwise

set_option autoImplicit false

/-! Identifiers that sort in the order they were made. -/

namespace LedgerVcs

open Text (PyStr CodePoint lit)

/-- Crockford base32 -/
def ULID_ALPHABET : PyStr := lit "0123456789ABCDEFGHJKMNPQRSTVWXYZ"

def ULID_RANDOM_BITS : Nat := 80

def ULID_MAX_RANDOM : Nat := (1 <<< ULID_RANDOM_BITS) - 1

/-- What `secrets.randbits` draws. -/
abbrev UlidRandom := Fin (2 ^ ULID_RANDOM_BITS)

structure UlidState where
  last_ms : Int
  last_random : UlidRandom
deriving DecidableEq

/-- A process starts so. -/
def UlidState.start : UlidState := ⟨-1, 0⟩

/-- `time.time_ns()`, and what is drawn if the call comes to draw. -/
structure UlidCall where
  time_ns : Int
  draw : UlidRandom

namespace UlidState

/-- What `_new_ulid` does under its lock. -/
def tick (state : UlidState) (call : UlidCall) : UlidState :=
  let now_ms := call.time_ns / 1_000_000
  if now_ms > state.last_ms then ⟨now_ms, call.draw⟩
  else if state.last_random.val = ULID_MAX_RANDOM then ⟨state.last_ms + 1, call.draw⟩
  else ⟨state.last_ms, state.last_random + 1⟩

def value (state : UlidState) : Int := Int.lor (state.last_ms <<< ULID_RANDOM_BITS) state.last_random.val

end UlidState

def ulid_letter (digit : Nat) : CodePoint := ULID_ALPHABET.getD digit 0

/-- The last one first. -/
def ulid_chars : Nat → Int → PyStr
  | 0, _ => []
  | count + 1, value => ulid_letter (Int.land value 0x1f).toNat :: ulid_chars count (value >>> 5)

def UlidState.text (state : UlidState) : PyStr := (ulid_chars 26 state.value).reverse

/-- The state after each call. -/
def UlidState.ticks : UlidState → List UlidCall → List UlidState
  | _, [] => []
  | state, call :: calls => state.tick call :: (state.tick call).ticks calls

/-- What successive calls of `_new_ulid` return. -/
def new_ulids (calls : List UlidCall) : List PyStr := (UlidState.start.ticks calls).map UlidState.text

/-! ## The value grows -/

namespace UlidState

variable {state : UlidState}

/-- The time before the random part. -/
def weight (state : UlidState) : Int := state.last_ms * 2 ^ ULID_RANDOM_BITS + state.last_random.val

theorem random_small (state : UlidState) : (state.last_random.val : Int) < 2 ^ ULID_RANDOM_BITS := by
  exact_mod_cast state.last_random.isLt

theorem tick_weight (call : UlidCall) : state.weight < (state.tick call).weight := by
  have small := state.random_small
  rw [tick]
  split
  next later =>
    have drawn : (0 : Int) ≤ call.draw.val := Int.natCast_nonneg _
    have more : state.last_ms + 1 ≤ call.time_ns / 1_000_000 := later
    rw [weight, weight]
    have grows := Int.mul_le_mul_of_nonneg_right more (show (0 : Int) ≤ 2 ^ ULID_RANDOM_BITS by positivity)
    dsimp only
    rw [Int.add_mul, Int.one_mul] at grows
    omega
  next =>
    split
    next =>
      have drawn : (0 : Int) ≤ call.draw.val := Int.natCast_nonneg _
      rw [weight, weight]
      dsimp only
      rw [Int.add_mul, Int.one_mul]
      omega
    next room =>
      have next : (state.last_random + 1).val = state.last_random.val + 1 := by
        refine Fin.val_add_one_of_lt' ?_
        have bound := state.last_random.isLt
        rw [ULID_MAX_RANDOM, Nat.one_shiftLeft] at room
        omega
      rw [weight, weight]
      dsimp only
      rw [next]
      omega

theorem value_weight (epoch : 0 ≤ state.last_ms) : ∃ number : Nat, state.value = number ∧ state.weight = number := by
  obtain ⟨ms, same⟩ := Int.eq_ofNat_of_zero_le epoch
  refine ⟨ms <<< ULID_RANDOM_BITS ||| state.last_random.val, ?_, ?_⟩
  next => rw [value, same]; rfl
  next =>
    rw [weight, same, ← Nat.shiftLeft_add_eq_or_of_lt state.last_random.isLt, Nat.shiftLeft_eq]
    push_cast
    rfl

end UlidState

/-! ## And so does the text -/

theorem chars_digits (count : Nat) (number : Nat) :
    (ulid_chars count number).reverse = (Radix.digits 32 count number).map ulid_letter := by
  induction count generalizing number with
  | zero => rfl
  | succ count ih =>
    have shifted : ((number : Int) >>> 5) = ((number / 32 : Nat) : Int) := by
      change ((number >>> 5 : Nat) : Int) = _
      rw [Nat.shiftRight_eq_div_pow]
    have masked : (Int.land number 0x1f).toNat = number % 32 := by
      change number &&& 0x1f = _
      exact Nat.and_two_pow_sub_one_eq_mod number 5
    rw [ulid_chars, List.reverse_cons, shifted, ih, masked, Radix.digits, List.map_append]
    rfl

theorem letters_increase : ∀ low high, low < high → high < 32 → ulid_letter low < ulid_letter high := by
  have every : ∀ high : Fin 32, ∀ low : Fin high.val, ulid_letter low < ulid_letter high := by decide
  exact fun low high less small => every ⟨high, small⟩ ⟨low, less⟩

theorem text_lt {left right : UlidState} (epoch : 0 ≤ left.last_ms) (epoch' : 0 ≤ right.last_ms) (small : right.last_ms < 2 ^ 50)
    (less : left.weight < right.weight) : left.text < right.text := by
  obtain ⟨number, value, weight⟩ := UlidState.value_weight epoch
  obtain ⟨number', value', weight'⟩ := UlidState.value_weight epoch'
  have more : number < number' := by omega
  have bounded : number' < 32 ^ 26 := by
    have random := right.random_small
    have whole : (number' : Int) < 2 ^ 130 := by
      have bits : (2 : Int) ^ ULID_RANDOM_BITS = 2 ^ 80 := rfl
      rw [← weight', UlidState.weight, bits]
      rw [bits] at random
      omega
    exact_mod_cast whole
  rw [UlidState.text, UlidState.text, value, value', chars_digits, chars_digits]
  exact Radix.map_lt letters_increase (fun digit member => Radix.digits_small (by decide) member) (Radix.digits_lt more bounded)

/-! ## Every sequence of calls -/

theorem ticks_weight {state : UlidState} {calls : List UlidCall} : ∀ later ∈ state.ticks calls, state.weight < later.weight := by
  induction calls generalizing state with
  | nil => exact fun _ impossible => by cases impossible
  | cons call calls ih =>
    exact List.forall_mem_cons.mpr ⟨UlidState.tick_weight call, fun later member => (UlidState.tick_weight call).trans (ih later member)⟩

theorem epoch_weight {state : UlidState} (counted : 0 ≤ state.weight) : 0 ≤ state.last_ms := by
  have random := state.random_small
  rw [UlidState.weight] at counted
  by_contra before
  have below := Int.mul_le_mul_of_nonneg_right (show state.last_ms ≤ -1 by omega) (show (0 : Int) ≤ 2 ^ ULID_RANDOM_BITS by positivity)
  rw [Int.neg_mul, Int.one_mul] at below
  omega

/-- However the clock goes and whatever is drawn, what is returned is in strictly increasing order. -/
theorem ulids_increase (calls : List UlidCall) (epoch : ∀ call ∈ calls.head?, 0 ≤ call.time_ns)
    (small : ∀ state ∈ UlidState.start.ticks calls, state.last_ms < 2 ^ 50) :
    (new_ulids calls).Pairwise (· < ·) ∧ (new_ulids calls).Nodup := by
  suffices increasing : (new_ulids calls).Pairwise (· < ·) from ⟨increasing, increasing.imp fun less => ne_of_lt less⟩
  cases calls with
  | nil => exact .nil
  | cons call calls =>
    have begun : 0 ≤ (UlidState.start.tick call).weight := by
      have reading : 0 ≤ call.time_ns / 1_000_000 := Int.ediv_nonneg (epoch call rfl) (by decide)
      have later : call.time_ns / 1_000_000 > UlidState.start.last_ms := by
        change -1 < _
        omega
      rw [UlidState.tick, if_pos later, UlidState.weight]
      positivity
    suffices whole : ∀ (calls : List UlidCall) (state : UlidState), 0 ≤ state.weight →
        (∀ later ∈ state :: state.ticks calls, later.last_ms < 2 ^ 50) → ((state :: state.ticks calls).map UlidState.text).Pairwise (· < ·) from
      whole calls _ begun small
    intro calls
    induction calls with
    | nil => exact fun _ _ _ => List.pairwise_singleton _ _
    | cons call calls ih =>
      intro state counted small
      have next := state.tick_weight call
      rw [List.map_cons, List.pairwise_cons]
      refine ⟨fun text member => ?_, ih _ (counted.trans next.le) (List.forall_mem_cons.mp small).2⟩
      obtain ⟨later, there, rfl⟩ := List.mem_map.mp member
      have more := ticks_weight later there
      exact text_lt (epoch_weight counted) (epoch_weight (counted.trans more.le)) (small later (List.mem_cons_of_mem _ there)) more

/-- A millisecond whose random part is used up at once, and a clock that goes back. -/
def burst : List UlidCall := [⟨5_000_000, Fin.last _⟩, ⟨5_000_000, 7⟩, ⟨3_000_000, 0⟩]

theorem ulids_increase_burst : (new_ulids burst).Pairwise (· < ·) ∧ (new_ulids burst).Nodup :=
  ulids_increase burst (by decide) (by decide)

/-- The last millisecond whose text has room, and what is borrowed from the one after it; and a clock that starts before the epoch. -/
theorem ulids_wrap :
    ¬ (new_ulids [⟨(2 ^ 50 - 1) * 1_000_000, Fin.last _⟩, ⟨(2 ^ 50 - 1) * 1_000_000, 0⟩]).Pairwise (· < ·) ∧
      ¬ (new_ulids [⟨-1, 0⟩, ⟨0, 0⟩]).Pairwise (· < ·) := by
  decide +kernel

end LedgerVcs
