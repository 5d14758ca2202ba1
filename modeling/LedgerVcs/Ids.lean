import LedgerVcs.Errors
import LedgerVcs.Lib.Wire
import LedgerVcs.Lib.Text

set_option autoImplicit false

namespace LedgerVcs

open Wire (Bytes)
open Text (PyStr)

def DIGEST_BYTES : Nat := 32

theorem zeros_sized : (List.replicate DIGEST_BYTES (0 : UInt8)).length = DIGEST_BYTES := rfl

theorem ones_sized : (List.replicate DIGEST_BYTES (1 : UInt8)).length = DIGEST_BYTES := rfl

/-- The name of an immutable object. -/
structure ObjectName where
  digest : Bytes
  sized : digest.length = DIGEST_BYTES
deriving DecidableEq

namespace ObjectName

theorem ext {left right : ObjectName} (same : left.digest = right.digest) : left = right := by
  cases left
  cases right
  cases same
  rfl

def new (digest : Bytes) : Except PyError ObjectName :=
  if sized : digest.length = DIGEST_BYTES then .ok ⟨digest, sized⟩
  else .error (.valueError s!"object digest must be {DIGEST_BYTES} bytes, got {digest.length}")

theorem new_ok {digest : Bytes} {name : ObjectName} : new digest = .ok name ↔ digest = name.digest := by
  rw [new]
  split
  next sized =>
    rw [Except.ok.injEq]
    exact ⟨fun same => same ▸ rfl, fun same => ext same⟩
  next wrong =>
    constructor
    next => intro impossible; cases impossible
    next => rintro rfl; exact absurd name.sized wrong

/-- The digest in lower-case digits. -/
def hex (name : ObjectName) : PyStr := Text.hex name.digest

/-- The name that is rendered as `b3:` and its digest. -/
def parse (text : PyStr) : Except PyError ObjectName :=
  -- `$` also matches before a last line feed.
  let line := if text.getLast? = some 0x0a then text.dropLast else text
  let digits := line.drop 3
  if line.take 3 = Text.lit "b3:" ∧ digits.length = DIGEST_BYTES * 2 ∧ digits.all Text.isLowerHex then
    match Text.fromhex digits with
    | some digest => new digest
    | none => .error (.valueError "non-hexadecimal number found in fromhex() arg")
  else .error (.valueError "not a valid object name")

theorem length_hex (name : ObjectName) : name.hex.length = DIGEST_BYTES * 2 := by
  rw [hex, Text.length_hex, name.sized, Nat.mul_comm]

theorem exists_hex {text : PyStr} (length : text.length = DIGEST_BYTES * 2) (lower : ∀ point ∈ text, Text.isLowerHex point) :
    ∃ name : ObjectName, name.hex = text := by
  obtain ⟨digest, rfl⟩ := Text.exists_hex DIGEST_BYTES text (by omega) lower
  rw [Text.length_hex] at length
  exact ⟨⟨digest, by omega⟩, rfl⟩

theorem parse_hex (name : ObjectName) : parse (Text.lit "b3:" ++ name.hex) = .ok name := by
  have lower : name.hex.all Text.isLowerHex = true := List.all_eq_true.mpr (Text.hex_lower name.digest)
  have no_feed : (Text.lit "b3:" ++ name.hex).getLast? ≠ some 0x0a := by
    intro feed
    have last := List.mem_of_getLast? feed
    rcases List.mem_append.mp last with tag | digit
    next => exact absurd tag (by decide)
    next => exact absurd (List.all_eq_true.mp lower _ digit) (by decide)
  have start : (Text.lit "b3:" ++ name.hex).take 3 = Text.lit "b3:" := by rfl
  have rest : (Text.lit "b3:" ++ name.hex).drop 3 = name.hex := by rfl
  have read : Text.fromhex name.hex = some name.digest := Text.fromhex_hex name.digest
  rw [parse, if_neg no_feed, start, rest, if_pos ⟨rfl, length_hex name, lower⟩, read]
  exact new_ok.mpr rfl

/-- Ordering is by raw digest. -/
instance : Ord ObjectName := ⟨fun left right => compare left.digest right.digest⟩

theorem compare_digest (left right : ObjectName) :
    compare left right = compare left.digest right.digest := rfl

instance : Std.OrientedOrd ObjectName where
  eq_swap := Std.OrientedOrd.eq_swap (α := Bytes)

instance : Std.TransOrd ObjectName where
  isLE_trans := Std.TransOrd.isLE_trans (α := Bytes)

instance : Std.LawfulEqOrd ObjectName where
  eq_of_compare same := ext (Std.LawfulEqOrd.eq_of_compare (α := Bytes) same)

end ObjectName

/-- Stable identity of a change. The constructor takes any text. -/
structure ChangeId where
  value : PyStr
deriving DecidableEq

/-- BLAKE3 with its extendable output: `digest data length` is `blake3(data).digest(length=length)`. -/
structure Blake3 where
  digest : Bytes → Nat → Bytes
  sized : ∀ data length, (digest data length).length = length

/-- BLAKE3 on the inputs a table lists. -/
def Blake3.ofTable (table : List (Bytes × Bytes)) : Blake3 where
  digest data length := ((table.lookup data).getD [] ++ List.replicate length 0).take length
  sized data length := by simp

end LedgerVcs
