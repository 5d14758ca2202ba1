import LedgerVcs.Ids

set_option autoImplicit false

namespace LedgerVcs

open Wire (Bytes)

def MAX_PREFIX_BITS : Nat := 24

def PREFIX_BYTES : Nat := 3

def check_bits (prefix_bits : Nat) : Except PyError Unit :=
  ensure (0 < prefix_bits ∧ prefix_bits ≤ MAX_PREFIX_BITS)
    (.valueError s!"prefix_bits out of range: {prefix_bits}")

def shard_of (name : ObjectName) (prefix_bits : Nat) : Except PyError Nat := do
  check_bits prefix_bits
  let leading := Wire.ofBE (name.digest.take PREFIX_BYTES)
  return leading >>> (MAX_PREFIX_BITS - prefix_bits)

def shard_bounds (prefix_bits shard : Nat) : Except PyError (Bytes × Bytes) := do
  check_bits prefix_bits
  let shard_count := 1 <<< prefix_bits
  ensure (shard < shard_count) (.valueError s!"shard {shard} out of range for {shard_count} shards")
  let width := MAX_PREFIX_BITS - prefix_bits
  let low := shard <<< width
  let high := (shard + 1) <<< width
  return (Wire.toBE PREFIX_BYTES low,
    if high < 1 <<< MAX_PREFIX_BITS then Wire.toBE PREFIX_BYTES high
    else [0xff, 0xff, 0xff, 0xff])

/-- A digest the last shard's upper bound leaves out. -/
def Overlooked (name : ObjectName) : Prop := [0xff, 0xff, 0xff, 0xff] <+: name.digest

instance : DecidablePred Overlooked := fun name =>
  inferInstanceAs (Decidable ([0xff, 0xff, 0xff, 0xff] <+: name.digest))

/-- What the catalogue's and the keep-set's queries ask of a digest. -/
def InRange (low high : Bytes) (name : ObjectName) : Prop := low ≤ name.digest ∧ name.digest < high

instance (low high : Bytes) : DecidablePred (InRange low high) := fun name =>
  inferInstanceAs (Decidable (low ≤ name.digest ∧ name.digest < high))

theorem shard_bounds_ok {prefix_bits shard : Nat} {low high : Bytes} :
    shard_bounds prefix_bits shard = .ok (low, high) ↔
      (0 < prefix_bits ∧ prefix_bits ≤ MAX_PREFIX_BITS) ∧ shard < 2 ^ prefix_bits ∧
        low = Wire.toBE PREFIX_BYTES (shard * 2 ^ (MAX_PREFIX_BITS - prefix_bits)) ∧
        high = if (shard + 1) * 2 ^ (MAX_PREFIX_BITS - prefix_bits) < 2 ^ MAX_PREFIX_BITS
          then Wire.toBE PREFIX_BYTES ((shard + 1) * 2 ^ (MAX_PREFIX_BITS - prefix_bits))
          else [0xff, 0xff, 0xff, 0xff] := by
  simp only [shard_bounds, check_bits, Monads.except_bind_ok, ensure_ok, Nat.shiftLeft_eq, one_mul, pure,
    Except.pure, Except.ok.injEq, Prod.mk.injEq]
  constructor
  next => rintro ⟨_, accepted, _, fits, rfl, rfl⟩; exact ⟨accepted, fits, rfl, rfl⟩
  next => rintro ⟨accepted, fits, rfl, rfl⟩; exact ⟨⟨⟩, accepted, ⟨⟩, fits, rfl, rfl⟩

theorem leading_lt (name : ObjectName) : Wire.ofBE (name.digest.take PREFIX_BYTES) < 2 ^ MAX_PREFIX_BITS := by
  have bound := Wire.ofBE_lt (name.digest.take PREFIX_BYTES)
  rw [List.length_take, name.sized] at bound
  exact bound

theorem below_prefix (name : ObjectName) {value : Nat} (fits : value < 2 ^ MAX_PREFIX_BITS) :
    name.digest < Wire.toBE PREFIX_BYTES value ↔ Wire.ofBE (name.digest.take PREFIX_BYTES) < value := by
  have sized := name.sized
  rw [Wire.lt_iff_take (by rw [Wire.length_toBE, sized]; decide), Wire.length_toBE,
    Wire.lt_iff_ofBE (by rw [Wire.length_toBE, List.length_take, sized]; rfl), Wire.ofBE_toBE fits]

theorem below_sentinel (name : ObjectName) :
    name.digest < [0xff, 0xff, 0xff, 0xff] ↔ ¬ Overlooked name := by
  have sized := name.sized
  have leading : (name.digest.take 4).length = 4 := by rw [List.length_take, sized]; rfl
  have bound := Wire.ofBE_lt (name.digest.take 4)
  rw [leading] at bound
  have top : Overlooked name ↔ Wire.ofBE (name.digest.take 4) = 2 ^ 32 - 1 := by
    rw [Overlooked, List.prefix_iff_eq_take]
    constructor
    next => intro same; rw [show (4 : Nat) = [0xff, 0xff, 0xff, (0xff : UInt8)].length from rfl, ← same]; rfl
    next =>
      intro value
      have spelled := Wire.toBE_ofBE (name.digest.take 4)
      rw [leading, value] at spelled
      exact spelled
  rw [Wire.lt_iff_take (by rw [sized]; decide), Wire.lt_iff_ofBE leading, top]
  change Wire.ofBE (name.digest.take 4) < 2 ^ 32 - 1 ↔ _
  omega

theorem overlooked_leading {name : ObjectName} (overlooked : Overlooked name) :
    Wire.ofBE (name.digest.take PREFIX_BYTES) = 2 ^ MAX_PREFIX_BITS - 1 := by
  obtain ⟨rest, split⟩ := overlooked
  rw [← split]
  rfl

/-- A shard's range holds the digests of the shard, but for those the sentinel cuts off. -/
theorem inRange_iff {prefix_bits shard : Nat} {low high : Bytes}
    (bounds : shard_bounds prefix_bits shard = .ok (low, high)) (name : ObjectName) :
    InRange low high name ↔ shard_of name prefix_bits = .ok shard ∧ ¬ Overlooked name := by
  obtain ⟨accepted, fits, rfl, rfl⟩ := shard_bounds_ok.mp bounds
  have leading := leading_lt name
  have number : shard_of name prefix_bits = .ok shard ↔
      Wire.ofBE (name.digest.take PREFIX_BYTES) / 2 ^ (MAX_PREFIX_BITS - prefix_bits) = shard := by
    simp [shard_of, check_bits, Monads.except_bind_ok, accepted, Nat.shiftRight_eq_div_pow, pure, Except.pure]
  have whole : 2 ^ MAX_PREFIX_BITS = 2 ^ prefix_bits * 2 ^ (MAX_PREFIX_BITS - prefix_bits) := by
    rw [← Nat.pow_add, Nat.add_sub_cancel' accepted.2]
  have positive : 0 < 2 ^ (MAX_PREFIX_BITS - prefix_bits) := Nat.two_pow_pos _
  have room : (shard + 1) * 2 ^ (MAX_PREFIX_BITS - prefix_bits) ≤ 2 ^ MAX_PREFIX_BITS := by
    rw [whole]
    exact Nat.mul_le_mul_right _ fits
  have lower : shard * 2 ^ (MAX_PREFIX_BITS - prefix_bits) < 2 ^ MAX_PREFIX_BITS := by
    rw [Nat.succ_mul] at room
    omega
  have quotient : Wire.ofBE (name.digest.take PREFIX_BYTES) / 2 ^ (MAX_PREFIX_BITS - prefix_bits) = shard ↔
      shard * 2 ^ (MAX_PREFIX_BITS - prefix_bits) ≤ Wire.ofBE (name.digest.take PREFIX_BYTES) ∧
        Wire.ofBE (name.digest.take PREFIX_BYTES) < (shard + 1) * 2 ^ (MAX_PREFIX_BITS - prefix_bits) := by
    rw [← Nat.le_div_iff_mul_le positive, ← Nat.div_lt_iff_lt_mul positive]
    omega
  rw [InRange, ← List.not_lt, below_prefix name lower, number, quotient, Nat.not_lt]
  by_cases inside : (shard + 1) * 2 ^ (MAX_PREFIX_BITS - prefix_bits) < 2 ^ MAX_PREFIX_BITS
  next =>
    rw [if_pos inside, below_prefix name inside]
    have above : Overlooked name →
        ¬ Wire.ofBE (name.digest.take PREFIX_BYTES) < (shard + 1) * 2 ^ (MAX_PREFIX_BITS - prefix_bits) := by
      intro overlooked
      rw [overlooked_leading overlooked]
      omega
    tauto
  next =>
    -- The last shard: its range is everything from `low` up to the sentinel.
    rw [if_neg inside, below_sentinel]
    have under : Wire.ofBE (name.digest.take PREFIX_BYTES) <
        (shard + 1) * 2 ^ (MAX_PREFIX_BITS - prefix_bits) := by omega
    rw [and_iff_left under]

theorem accepted_bounds {prefix_bits : Nat} (accepted : 0 < prefix_bits ∧ prefix_bits ≤ MAX_PREFIX_BITS) {shard : Nat}
    (member : shard ∈ List.range (1 <<< prefix_bits)) :
    ∃ low high, shard_bounds prefix_bits shard = .ok (low, high) := by
  rw [List.mem_range, Nat.shiftLeft_eq, one_mul] at member
  exact ⟨_, _, shard_bounds_ok.mpr ⟨accepted, member, rfl, rfl⟩⟩

theorem has_shard {prefix_bits : Nat} (accepted : 0 < prefix_bits ∧ prefix_bits ≤ MAX_PREFIX_BITS) (name : ObjectName) :
    ∃ shard ∈ List.range (1 <<< prefix_bits), shard_of name prefix_bits = .ok shard := by
  refine ⟨_, ?_, by simp only [shard_of, check_bits, Monads.except_bind_ok, ensure_ok]; exact ⟨⟨⟩, accepted, rfl⟩⟩
  have leading := leading_lt name
  have whole : 2 ^ MAX_PREFIX_BITS = 2 ^ prefix_bits * 2 ^ (MAX_PREFIX_BITS - prefix_bits) := by
    rw [← Nat.pow_add, Nat.add_sub_cancel' accepted.2]
  rw [List.mem_range, Nat.shiftLeft_eq, one_mul, Nat.shiftRight_eq_div_pow,
    Nat.div_lt_iff_lt_mul (Nat.two_pow_pos _), ← whole]
  exact leading

/-- The last shard is where the overlooked belong. -/
theorem overlooked_last {prefix_bits : Nat} (accepted : 0 < prefix_bits ∧ prefix_bits ≤ MAX_PREFIX_BITS)
    {name : ObjectName} (overlooked : Overlooked name) :
    shard_of name prefix_bits = .ok (2 ^ prefix_bits - 1) := by
  have whole : 2 ^ MAX_PREFIX_BITS = 2 ^ prefix_bits * 2 ^ (MAX_PREFIX_BITS - prefix_bits) := by
    rw [← Nat.pow_add, Nat.add_sub_cancel' accepted.2]
  have some_ : 0 < 2 ^ prefix_bits := Nat.two_pow_pos _
  have number : (2 ^ MAX_PREFIX_BITS - 1) / 2 ^ (MAX_PREFIX_BITS - prefix_bits) = 2 ^ prefix_bits - 1 := by
    have width : 0 < 2 ^ (MAX_PREFIX_BITS - prefix_bits) := Nat.two_pow_pos _
    rw [whole, Nat.div_eq_iff width, Nat.sub_mul, one_mul]
    have least : 2 ^ (MAX_PREFIX_BITS - prefix_bits) ≤ 2 ^ prefix_bits * 2 ^ (MAX_PREFIX_BITS - prefix_bits) :=
      Nat.le_mul_of_pos_left _ some_
    omega
  simp only [shard_of, check_bits, Monads.except_bind_ok, ensure_ok]
  refine ⟨⟨⟩, accepted, ?_⟩
  rw [overlooked_leading overlooked, Nat.shiftRight_eq_div_pow, number]
  rfl

/-- A shard's range is the shard, but for the overlooked that belong to the last one. -/
theorem range_exact {prefix_bits shard : Nat} {low high : Bytes}
    (bounds : shard_bounds prefix_bits shard = .ok (low, high)) (name : ObjectName) :
    (InRange low high name ↔ shard_of name prefix_bits = .ok shard) ↔
      ¬ (Overlooked name ∧ shard + 1 = 2 ^ prefix_bits) := by
  obtain ⟨accepted, -, -, -⟩ := shard_bounds_ok.mp bounds
  have some_ : 0 < 2 ^ prefix_bits := Nat.two_pow_pos _
  rw [inRange_iff bounds]
  by_cases overlooked : Overlooked name
  next =>
    rw [overlooked_last accepted overlooked, Except.ok.injEq]
    simp only [overlooked, not_true_eq_false, and_false, true_and, false_iff]
    omega
  next => simp [overlooked]

end LedgerVcs
