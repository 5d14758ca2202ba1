import LedgerVcs.Lib.Monads

set_option autoImplicit false

/-!
# Fixed-width integers, writers and prefix parsers over byte strings

`Writes` and `Parses` state exactly what a writer appends and what a parser accepts. When the two
spell a value the same way, encoding and decoding are inverse wherever both sides' conditions hold.
-/

namespace Wire

open Monads

abbrev Bytes := List UInt8

def toBE : Nat → Nat → Bytes
  | 0, _ => []
  | width + 1, value => toBE width (value / 256) ++ [UInt8.ofNat value]

def ofBE (bytes : Bytes) : Nat :=
  bytes.foldl (fun high byte => high * 256 + byte.toNat) 0

@[simp] theorem length_toBE (width value : Nat) : (toBE width value).length = width := by
  induction width generalizing value with
  | zero => rfl
  | succ width ih => simp [toBE, ih]

@[simp] theorem ofBE_nil : ofBE [] = 0 := rfl

@[simp] theorem ofBE_concat (bytes : Bytes) (byte : UInt8) :
    ofBE (bytes ++ [byte]) = ofBE bytes * 256 + byte.toNat := by
  simp [ofBE, List.foldl_append]

theorem ofBE_lt (bytes : Bytes) : ofBE bytes < 256 ^ bytes.length := by
  induction bytes using List.reverseRecOn with
  | nil => simp
  | append_singleton bytes byte ih =>
    have small := byte.toNat_lt
    rw [ofBE_concat, List.length_append, List.length_singleton, Nat.pow_succ]
    omega

theorem ofBE_toBE {width value : Nat} (bound : value < 256 ^ width) :
    ofBE (toBE width value) = value := by
  induction width generalizing value with
  | zero => simp at bound; simp [toBE, bound]
  | succ width ih =>
    have high : value / 256 < 256 ^ width := by
      rw [Nat.div_lt_iff_lt_mul (by omega), ← Nat.pow_succ]
      exact bound
    rw [toBE, ofBE_concat, ih high, UInt8.toNat_ofNat']
    omega

theorem toBE_ofBE (bytes : Bytes) : toBE bytes.length (ofBE bytes) = bytes := by
  induction bytes using List.reverseRecOn with
  | nil => rfl
  | append_singleton bytes byte ih =>
    have small := byte.toNat_lt
    have quotient : (ofBE bytes * 256 + byte.toNat) / 256 = ofBE bytes := by omega
    have remainder : UInt8.ofNat (ofBE bytes * 256 + byte.toNat) = byte := by
      apply UInt8.toNat_inj.mp
      rw [UInt8.toNat_ofNat']
      omega
    rw [List.length_append, List.length_singleton, ofBE_concat, toBE, quotient, remainder, ih]

theorem toBE_injective {width left right : Nat} (leftBound : left < 256 ^ width)
    (rightBound : right < 256 ^ width) (same : toBE width left = toBE width right) : left = right := by
  rw [← ofBE_toBE leftBound, same, ofBE_toBE rightBound]

/-! Byte strings of one length sort as the numbers they spell. -/

theorem ofBE_cons (byte : UInt8) (bytes : Bytes) :
    ofBE (byte :: bytes) = byte.toNat * 256 ^ bytes.length + ofBE bytes := by
  induction bytes using List.reverseRecOn with
  | nil => simp [ofBE]
  | append_singleton bytes last ih =>
    rw [← List.cons_append, ofBE_concat, ofBE_concat, ih, List.length_append, List.length_singleton]
    ring

theorem lt_iff_ofBE {left right : Bytes} (same : left.length = right.length) :
    left < right ↔ ofBE left < ofBE right := by
  induction left generalizing right with
  | nil =>
    have empty : right = [] := List.length_eq_zero_iff.mp same.symm
    simp [empty]
  | cons byte bytes ih =>
    cases right with
    | nil => cases same
    | cons byte' bytes' =>
      have tails : bytes.length = bytes'.length := by simpa using same
      have bound := ofBE_lt bytes
      have bound' := ofBE_lt bytes'
      rw [List.cons_lt_cons_iff, ih tails, ofBE_cons, ofBE_cons, ← tails, UInt8.lt_iff_toNat_lt,
        ← UInt8.toNat_inj]
      rw [← tails] at bound'
      generalize 256 ^ bytes.length = place at bound bound' ⊢
      constructor
      next =>
        rintro (lower | ⟨equal, lower⟩)
        next => nlinarith
        next => rw [equal]; omega
      next =>
        intro less
        by_cases order : byte.toNat < byte'.toNat
        next => exact .inl order
        next =>
          by_cases equal : byte.toNat = byte'.toNat
          next => rw [equal] at less; exact .inr ⟨equal, by omega⟩
          next => nlinarith [show byte'.toNat + 1 ≤ byte.toNat by omega]

/-- A string is below a shorter bound exactly when its leading bytes are. -/
theorem lt_iff_take {bytes bound : Bytes} (long : bound.length ≤ bytes.length) :
    bytes < bound ↔ bytes.take bound.length < bound := by
  induction bound generalizing bytes with
  | nil => simp
  | cons byte bound ih =>
    cases bytes with
    | nil => cases long
    | cons head bytes =>
      simp only [List.length_cons, List.take_succ_cons, List.cons_lt_cons_iff]
      rw [ih (by simpa using long)]

/-! Two's complement. -/

def toSigned (width : Nat) (value : Int) : Bytes := toBE width (value % 256 ^ width).toNat

def ofSigned (bytes : Bytes) : Int :=
  if 2 * ofBE bytes < 256 ^ bytes.length then ofBE bytes else (ofBE bytes : Int) - 256 ^ bytes.length

@[simp] theorem length_toSigned (width : Nat) (value : Int) : (toSigned width value).length = width :=
  length_toBE ..

def FitsSigned (width : Nat) (value : Int) : Prop := -256 ^ width ≤ 2 * value ∧ 2 * value < 256 ^ width

instance (width : Nat) (value : Int) : Decidable (FitsSigned width value) := inferInstanceAs (Decidable (_ ∧ _))

theorem ofSigned_fits (bytes : Bytes) : FitsSigned bytes.length (ofSigned bytes) := by
  have bound := ofBE_lt bytes
  have cast : ((256 ^ bytes.length : Nat) : Int) = 256 ^ bytes.length := by push_cast; rfl
  simp only [FitsSigned, ofSigned, ← cast]
  split <;> omega

theorem ofSigned_toSigned {width : Nat} {value : Int} (fits : FitsSigned width value) :
    ofSigned (toSigned width value) = value := by
  have cast : ((256 ^ width : Nat) : Int) = 256 ^ width := by push_cast; rfl
  simp only [FitsSigned, ← cast] at fits
  have positive : 0 < 256 ^ width := by positivity
  have read : ofBE (toBE width (value % 256 ^ width).toNat) = (value % 256 ^ width).toNat := by
    apply ofBE_toBE
    rw [← cast]
    have := Int.emod_lt_of_pos value (Int.natCast_pos.mpr positive)
    omega
  rw [ofSigned, length_toSigned, toSigned, read, ← cast]
  generalize 256 ^ width = modulus at fits positive
  by_cases negative : value < 0
  next =>
    have shifted : value % (modulus : Int) = value + modulus := by
      rw [← Int.add_emod_right, Int.emod_eq_of_lt] <;> omega
    rw [shifted]
    split <;> omega
  next =>
    rw [Int.emod_eq_of_lt (by omega) (by omega)]
    split <;> omega

theorem toSigned_ofSigned (bytes : Bytes) : toSigned bytes.length (ofSigned bytes) = bytes := by
  have bound := ofBE_lt bytes
  have cast : ((256 ^ bytes.length : Nat) : Int) = 256 ^ bytes.length := by push_cast; rfl
  have stored : (ofSigned bytes % 256 ^ bytes.length).toNat = ofBE bytes := by
    rw [ofSigned, ← cast]
    split
    next => rw [Int.emod_eq_of_lt (by omega) (by omega)]; simp
    next => rw [Int.sub_emod_right, Int.emod_eq_of_lt (by omega) (by omega)]; simp
  rw [toSigned, stored, toBE_ofBE]

/-! ## Writers and prefix parsers -/

/-- The state of a parser is the unread input, that of a writer the bytes written so far. -/
abbrev Coder (ε α : Type) := StateT Bytes (Except ε) α

section Coder

variable {ε α β : Type}

def append (bytes : Bytes) : Coder ε Unit := fun buffer => .ok ((), buffer ++ bytes)

theorem map_ok {f : α → β} {p : Coder ε α} {b : β} {bytes rest : Bytes} :
    (f <$> p) bytes = .ok (b, rest) ↔ ∃ a, f a = b ∧ p bytes = .ok (a, rest) := by
  rw [map_eq_pure_bind, bind_ok]
  simp only [pure_ok]
  constructor
  next => rintro ⟨a, middle, read, same, rfl⟩; exact ⟨a, same, read⟩
  next => rintro ⟨a, same, read⟩; exact ⟨a, rest, read, same, rfl⟩

/-- `w` appends `bytes` to the buffer when `fits` holds and fails otherwise. -/
def Writes (w : Coder ε Unit) (fits : Prop) (bytes : Bytes) : Prop :=
  ∀ ⦃buffer out : Bytes⦄, w buffer = .ok ((), out) ↔ fits ∧ out = buffer ++ bytes

namespace Writes

theorem nothing : Writes (pure () : Coder ε Unit) True [] := by
  intro buffer out
  rw [pure_ok, List.append_nil]
  constructor
  next => rintro ⟨_, same⟩; exact ⟨trivial, same.symm⟩
  next => rintro ⟨_, same⟩; exact ⟨rfl, same.symm⟩

theorem check (result : Except ε Unit) :
    Writes (liftM result : Coder ε Unit) (result = .ok ()) [] := by
  intro buffer out
  rw [liftM_ok, List.append_nil]
  constructor <;> rintro ⟨ok, same⟩ <;> exact ⟨ok, same.symm⟩

theorem bind {first second : Coder ε Unit} {fits others : Prop} {front back : Bytes}
    (head : Writes first fits front) (tail : Writes second others back) :
    Writes (first >>= fun _ => second) (fits ∧ others) (front ++ back) := by
  intro buffer out
  rw [bind_ok]
  constructor
  next =>
    rintro ⟨_, middle, wrote, rest⟩
    obtain ⟨fit, rfl⟩ := head.mp wrote
    obtain ⟨other, rfl⟩ := tail.mp rest
    exact ⟨⟨fit, other⟩, List.append_assoc ..⟩
  next =>
    rintro ⟨⟨fit, other⟩, rfl⟩
    refine ⟨(), buffer ++ front, head.mpr ⟨fit, rfl⟩, tail.mpr ⟨other, ?_⟩⟩
    rw [List.append_assoc]

theorem forM {w : α → Coder ε Unit} {fits : α → Prop} {spell : α → Bytes}
    (each : ∀ value, Writes (w value) (fits value) (spell value)) (values : List α) :
    Writes (values.forM w) (∀ value ∈ values, fits value) (values.flatMap spell) := by
  induction values with
  | nil =>
    intro buffer out
    simpa using @nothing ε buffer out
  | cons value values ih =>
    rw [List.flatMap_cons, List.forall_mem_cons]
    exact bind (each value) ih

theorem congr {w : Coder ε Unit} {fits others : Prop} {bytes spelled : Bytes}
    (writes : Writes w fits bytes) (condition : fits ↔ others) (same : others → bytes = spelled) :
    Writes w others spelled := by
  intro buffer out
  rw [writes, condition]
  constructor <;> rintro ⟨fit, rfl⟩ <;> exact ⟨fit, by rw [same fit]⟩

theorem after {result : Except ε α} {f : α → Coder ε Unit} {fits : α → Prop} {spell : α → Bytes}
    {bytes : Bytes} (tail : ∀ a, Writes (f a) (fits a) (spell a))
    (same : ∀ a, result = .ok a → spell a = bytes) :
    Writes (liftM result >>= f) (∃ a, result = .ok a ∧ fits a) bytes := by
  intro buffer out
  rw [bind_ok]
  constructor
  next =>
    rintro ⟨a, middle, computed, wrote⟩
    obtain ⟨ok, rfl⟩ := liftM_ok.mp computed
    obtain ⟨fit, rfl⟩ := (tail a).mp wrote
    exact ⟨⟨a, ok, fit⟩, by rw [same a ok]⟩
  next =>
    rintro ⟨⟨a, ok, fit⟩, rfl⟩
    exact ⟨a, buffer, liftM_ok.mpr ⟨ok, rfl⟩, (tail a).mpr ⟨fit, by rw [same a ok]⟩⟩

/-- A writer followed by a check on the whole buffer. -/
theorem then_check {w last : Coder ε Unit} {fits : Prop} {bytes : Bytes} {check : Bytes → Except ε Unit}
    (writes : Writes w fits bytes) (checks : ∀ buffer, last buffer = (check buffer).map fun done => (done, buffer))
    (buffer out : Bytes) :
    (w >>= fun _ => last) buffer = .ok ((), out) ↔
      fits ∧ check (buffer ++ bytes) = .ok () ∧ out = buffer ++ bytes := by
  have checked (written : Bytes) :
      last written = .ok ((), out) ↔ check written = .ok () ∧ out = written := by
    rw [checks]
    cases check written <;> simp [Except.map, eq_comm]
  rw [bind_ok]
  constructor
  next =>
    rintro ⟨_, middle, wrote, ok⟩
    obtain ⟨fit, rfl⟩ := writes.mp wrote
    exact ⟨fit, (checked _).mp ok⟩
  next =>
    rintro ⟨fit, ok⟩
    exact ⟨(), _, writes.mpr ⟨fit, rfl⟩, (checked _).mpr ok⟩

theorem append (bytes : Bytes) : Writes (append bytes : Coder ε Unit) True bytes := by
  intro buffer out
  change Except.ok ((), buffer ++ bytes) = .ok ((), out) ↔ _
  simp [eq_comm]

end Writes

/-- `p` accepts exactly the spellings of the values that fit, and leaves whatever follows. -/
def Parses (p : Coder ε α) (fits : α → Prop) (spell : α → Bytes) : Prop :=
  ∀ ⦃input rest : Bytes⦄ ⦃value : α⦄,
    p input = .ok (value, rest) ↔ fits value ∧ input = spell value ++ rest

namespace Parses

theorem iff {p : Coder ε α} {fits : α → Prop} {spell : α → Bytes} (parses : Parses p fits spell)
    {input rest : Bytes} {value : α} :
    p input = .ok (value, rest) ↔ fits value ∧ input = spell value ++ rest := @parses _ _ _

theorem done (value : α) : Parses (pure value : Coder ε α) (value = ·) fun _ => [] := by
  intro input rest other
  exact pure_ok

theorem check (result : Except ε α) :
    Parses (liftM result : Coder ε α) (fun value => result = .ok value) fun _ => [] := by
  intro input rest value
  exact liftM_ok

/-- `part` is the component of the final value that the first parser has read. -/
theorem bind {p : Coder ε α} {f : α → Coder ε β} {fits : α → Prop} {spell : α → Bytes}
    {others : α → β → Prop} {spellOthers : α → β → Bytes} (part : β → α)
    (head : Parses p fits spell) (tail : ∀ a, Parses (f a) (others a) (spellOthers a))
    (component : ∀ {a b}, fits a → others a b → part b = a) :
    Parses (p >>= f) (fun b => fits (part b) ∧ others (part b) b)
      fun b => spell (part b) ++ spellOthers (part b) b := by
  intro input rest b
  rw [bind_ok]
  constructor
  next =>
    rintro ⟨a, middle, first, second⟩
    obtain ⟨fit, rfl⟩ := head.mp first
    obtain ⟨other, rfl⟩ := (tail a).mp second
    obtain rfl := component fit other
    exact ⟨⟨fit, other⟩, (List.append_assoc ..).symm⟩
  next =>
    rintro ⟨⟨fit, other⟩, rfl⟩
    exact ⟨part b, spellOthers (part b) b ++ rest, head.mpr ⟨fit, List.append_assoc ..⟩,
      (tail _).mpr ⟨other, rfl⟩⟩

theorem congr {p : Coder ε α} {fits others : α → Prop} {spell spelled : α → Bytes}
    (parses : Parses p fits spell) (condition : ∀ value, fits value ↔ others value)
    (same : ∀ value, others value → spell value = spelled value) : Parses p others spelled := by
  intro input rest value
  rw [parses, condition]
  constructor <;> rintro ⟨fit, rfl⟩ <;> exact ⟨fit, by rw [same value fit]⟩

end Parses

def take (short : ε) (count : Nat) : Coder ε Bytes := fun input =>
  if input.length < count then .error short else .ok (input.take count, input.drop count)

theorem take_parses (short : ε) (count : Nat) :
    Parses (take short count) (fun bytes => bytes.length = count) id := by
  intro input rest bytes
  rw [take]
  split
  next shorter =>
    constructor
    next => intro impossible; cases impossible
    next =>
      rintro ⟨length, rfl⟩
      simp only [id, List.length_append] at shorter
      omega
  next long =>
    simp only [Except.ok.injEq, Prod.mk.injEq, id]
    constructor
    next =>
      rintro ⟨rfl, rfl⟩
      exact ⟨by rw [List.length_take]; omega, (List.take_append_drop ..).symm⟩
    next =>
      rintro ⟨rfl, rfl⟩
      exact ⟨List.take_left .., List.drop_left ..⟩

def repeatP (p : Coder ε α) : Nat → Coder ε (List α)
  | 0 => pure []
  | count + 1 => do
    let head ← p
    let tail ← repeatP p count
    return head :: tail

theorem repeat_parses {p : Coder ε α} {fits : α → Prop} {spell : α → Bytes}
    (each : Parses p fits spell) (count : Nat) :
    Parses (repeatP p count) (fun values => values.length = count ∧ ∀ value ∈ values, fits value)
      fun values => values.flatMap spell := by
  induction count with
  | zero =>
    intro input rest values
    rw [repeatP, pure_ok]
    constructor
    next => rintro ⟨rfl, rfl⟩; simp
    next =>
      rintro ⟨⟨length, -⟩, rfl⟩
      obtain rfl := List.length_eq_zero_iff.mp length
      simp
  | succ count ih =>
    intro input rest values
    rw [repeatP, bind_ok]
    simp only [bind_ok, pure_ok]
    constructor
    next =>
      rintro ⟨head, middle, first, tail, last, others, rfl, rfl⟩
      obtain ⟨fit, rfl⟩ := each.mp first
      obtain ⟨⟨rfl, fits⟩, rfl⟩ := ih.mp others
      simpa using ⟨fit, fits⟩
    next =>
      rintro ⟨⟨length, fits⟩, rfl⟩
      obtain ⟨head, tail, rfl⟩ := List.exists_cons_of_length_eq_add_one length
      rw [List.forall_mem_cons] at fits
      rw [List.flatMap_cons, List.append_assoc]
      exact ⟨head, _, each.mpr ⟨fits.1, rfl⟩, tail, rest, ih.mpr ⟨⟨by simpa using length, fits.2⟩, rfl⟩,
        rfl, rfl⟩

end Coder

end Wire
