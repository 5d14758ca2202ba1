import LedgerVcs.Ids

set_option autoImplicit false

namespace LedgerVcs

open Wire

/-! The writer's state is its buffer, the cursor's the bytes it has not read yet. -/

abbrev Writer := Coder PyError Unit

abbrev Cursor (α : Type) := Coder PyError α

def U8_MAX : Nat := 0xFF

def U16_MAX : Nat := 0xFFFF

def U32_MAX : Nat := 0xFFFFFFFF

def U64_MAX : Nat := 0xFFFFFFFFFFFFFFFF

def I64_MIN : Int := -(2 ^ 63)

def I64_MAX : Int := 2 ^ 63 - 1

def NAME_BYTES : Nat := 32

namespace Writer

def unsigned (label : String) (width maximum : Nat) (value : Int) : Writer := do
  ensure (0 ≤ value ∧ value ≤ maximum) (.valueError s!"{label} out of range: {value}")
  append (toBE width value.toNat)

def u8 : Int → Writer := unsigned "u8" 1 U8_MAX

def u16 : Int → Writer := unsigned "u16" 2 U16_MAX

def u32 : Int → Writer := unsigned "u32" 4 U32_MAX

def u64 : Int → Writer := unsigned "u64" 8 U64_MAX

def i64 (value : Int) : Writer := do
  ensure (I64_MIN ≤ value ∧ value ≤ I64_MAX) (.valueError s!"i64 out of range: {value}")
  append (toSigned 8 value)

def raw (data : Bytes) : Writer := append data

def name (value : ObjectName) : Writer := append value.digest

def prefixed (label : String) (width maximum : Nat) (data : Bytes) : Writer := do
  ensure (data.length ≤ maximum)
    (.valueError s!"value too long for a {label} length prefix: {data.length}")
  append (toBE width data.length)
  append data

def bytes_u8 : Bytes → Writer := prefixed "u8" 1 U8_MAX

def bytes_u32 : Bytes → Writer := prefixed "u32" 4 U32_MAX

end Writer

namespace Cursor

def take (count : Nat) : Cursor Bytes := Wire.take (.malformedObject "truncated object") count

def unsigned (width : Nat) : Cursor Int := do
  let chunk ← take width
  return ofBE chunk

def u8 : Cursor Int := unsigned 1

def u16 : Cursor Int := unsigned 2

def u32 : Cursor Int := unsigned 4

def u64 : Cursor Int := unsigned 8

def i64 : Cursor Int := do
  let chunk ← take 8
  return ofSigned chunk

def raw (count : Nat) : Cursor Bytes := take count

def rest : Cursor Bytes := do
  let remaining ← get
  take remaining.length

def name : Cursor ObjectName := do
  let digest ← take NAME_BYTES
  ObjectName.new digest

def prefixed (width : Nat) : Cursor Bytes := do
  let length ← unsigned width
  take length.toNat

def bytes_u8 : Cursor Bytes := prefixed 1

def bytes_u32 : Cursor Bytes := prefixed 4

def expect_exhausted : Cursor Unit := do
  let remaining ← get
  ensure (remaining.length = 0) (.malformedObject "trailing bytes after a complete object")

end Cursor

/-! ## What each primitive writes and accepts -/

theorem unsigned_writes (label : String) (width maximum : Nat) (value : Int) :
    Writes (Writer.unsigned label width maximum value) (0 ≤ value ∧ value ≤ maximum)
      (toBE width value.toNat) :=
  ((Writes.check _).bind (.append _)).congr (by simp) fun _ => rfl

theorem i64_writes (value : Int) : Writes (Writer.i64 value) (FitsSigned 8 value) (toSigned 8 value) := by
  have range : I64_MIN ≤ value ∧ value ≤ I64_MAX ↔ FitsSigned 8 value := by
    simp only [FitsSigned, I64_MIN, I64_MAX]
    omega
  exact ((Writes.check _).bind (.append _)).congr (by simp [range]) fun _ => rfl

theorem prefixed_writes (label : String) (width maximum : Nat) (data : Bytes) :
    Writes (Writer.prefixed label width maximum data) (data.length ≤ maximum)
      (toBE width data.length ++ data) :=
  ((Writes.check _).bind ((Writes.append _).bind (.append _))).congr (by simp) fun _ => rfl

theorem unsigned_parses (width : Nat) :
    Parses (Cursor.unsigned width) (fun value => 0 ≤ value ∧ value < (256 ^ width : Nat))
      fun value => toBE width value.toNat := by
  refine ((take_parses _ width).bind (fun value : Int => toBE width value.toNat)
    (fun chunk => Parses.done (ofBE chunk : Int)) ?_).congr ?_ ?_
  next =>
    rintro chunk _ rfl rfl
    exact toBE_ofBE chunk
  next =>
    intro value
    rw [length_toBE]
    constructor
    next =>
      rintro ⟨-, same⟩
      have bound := ofBE_lt (toBE width value.toNat)
      rw [length_toBE] at bound
      omega
    next =>
      rintro ⟨nonneg, bound⟩
      rw [ofBE_toBE (by omega)]
      omega
  next => simp

theorem i64_parses : Parses Cursor.i64 (FitsSigned 8) (toSigned 8) := by
  refine ((take_parses _ 8).bind (toSigned 8) (fun chunk => Parses.done (ofSigned chunk)) ?_).congr ?_ ?_
  next =>
    rintro chunk _ length rfl
    rw [← length, toSigned_ofSigned]
  next =>
    intro value
    rw [length_toSigned]
    constructor
    next =>
      rintro ⟨-, same⟩
      have fits := ofSigned_fits (toSigned 8 value)
      rwa [same, length_toSigned] at fits
    next =>
      intro fits
      exact ⟨rfl, ofSigned_toSigned fits⟩
  next => simp

theorem name_parses : Parses Cursor.name (fun _ => True) ObjectName.digest := by
  refine ((take_parses _ NAME_BYTES).bind ObjectName.digest
    (fun digest => Parses.check (ObjectName.new digest)) ?_).congr ?_ ?_
  next =>
    intro digest name _ made
    exact (ObjectName.new_ok.mp made).symm
  next =>
    intro name
    exact iff_of_true ⟨name.sized, ObjectName.new_ok.mpr rfl⟩ trivial
  next => simp

theorem prefixed_parses (width : Nat) :
    Parses (Cursor.prefixed width) (fun data => data.length < 256 ^ width)
      fun data => toBE width data.length ++ data := by
  refine ((unsigned_parses width).bind (fun data : Bytes => (data.length : Int))
    (fun length => take_parses _ length.toNat) ?_).congr ?_ ?_
  next =>
    intro length data bound read
    omega
  next =>
    intro data
    simp
    norm_cast
  next => simp

end LedgerVcs
