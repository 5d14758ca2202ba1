import Mathlib.Tactic

set_option autoImplicit false

/-!
# Python text

A `str` is a sequence of code points, lone surrogates included: `encode` refuses those, and strict
UTF-8 decoding never produces them. `fromhex` follows `bytes.fromhex`, which takes digits of either
case and skips ASCII whitespace between bytes.
-/

namespace Text

abbrev Bytes := List UInt8

abbrev CodePoint := Fin 0x110000

abbrev PyStr := List CodePoint

instance points_ne_zero : NeZero (0x110000 : Nat) := ⟨by decide⟩

instance lawful_point : LawfulBEq CodePoint := inferInstance

instance lawful_str : LawfulBEq PyStr := inferInstance

instance lawful_bytes : LawfulBEq Bytes := inferInstance

/-- Looks at the bytes there are, not at every byte there can be. -/
instance (priority := 2000) decidable_bytes (bytes : Bytes) (property : UInt8 → Prop) [DecidablePred property] :
    Decidable (∀ byte ∈ bytes, property byte) :=
  List.decidableBAll property bytes

def toChar? (point : CodePoint) : Option Char :=
  if valid : point.val.isValidChar then some (Char.ofNatAux point.val valid) else none

def ofChar (char : Char) : CodePoint :=
  ⟨char.toNat, by have := char.valid; simp only [UInt32.isValidChar, Nat.isValidChar] at this; change char.val.toNat < _; omega⟩

theorem toChar_ofChar (char : Char) : toChar? (ofChar char) = some char := by
  have valid : (ofChar char).val.isValidChar := char.valid
  rw [toChar?, dif_pos valid, Option.some_inj]
  apply Char.ext
  apply UInt32.toNat_inj.mp
  rfl

theorem toChar_eq_some {point : CodePoint} {char : Char} :
    toChar? point = some char ↔ point = ofChar char := by
  constructor
  next =>
    intro found
    rw [toChar?] at found
    by_cases valid : point.val.isValidChar
    next =>
      rw [dif_pos valid] at found
      obtain rfl := Option.some_inj.mp found
      rfl
    next =>
      rw [dif_neg valid] at found
      cases found
  next => rintro rfl; exact toChar_ofChar char

/-- A string literal of the source, as Python sees it. -/
def lit (text : String) : PyStr := text.toList.map ofChar

/-! ## Taking apart -/

/-- `text.partition(separator)`, without the separator. -/
def partition (separator : CodePoint) (text : PyStr) : PyStr × PyStr :=
  (text.takeWhile fun point => point ≠ separator, (text.dropWhile fun point => point ≠ separator).tail)

/-- `text.partition(separator)` for a longer separator. -/
def partitionAt (separator : PyStr) : PyStr → PyStr × PyStr
  | [] => ([], [])
  | point :: text =>
    if separator.isPrefixOf (point :: text) then ([], (point :: text).drop separator.length)
    else
      let (before, after) := partitionAt separator text
      (point :: before, after)

theorem partition_append {separator : CodePoint} {before : PyStr} (after : PyStr) (clear : separator ∉ before) :
    partition separator (before ++ separator :: after) = (before, after) := by
  have kept : ∀ point ∈ before, decide (point ≠ separator) = true := fun point member =>
    decide_eq_true fun same => clear (same ▸ member)
  rw [partition, List.takeWhile_append_of_pos kept, List.dropWhile_append_of_pos kept,
    List.takeWhile_cons_of_neg (by simp), List.dropWhile_cons_of_neg (by simp), List.append_nil, List.tail_cons]

theorem partition_clear {separator : CodePoint} {text : PyStr} : separator ∉ (partition separator text).1 := by
  intro member
  exact absurd (List.all_eq_true.mp List.all_takeWhile _ member) (by simp)

theorem partition_mem {separator point : CodePoint} {text : PyStr}
    (member : point ∈ (partition separator text).1 ∨ point ∈ (partition separator text).2) : point ∈ text := by
  rcases member with before | after
  next => exact (List.takeWhile_sublist _).mem before
  next => exact (List.dropWhile_sublist _).mem (List.mem_of_mem_tail after)

theorem splitOn_clear {separator : CodePoint} {text : PyStr} :
    ∀ piece ∈ text.splitOn separator, separator ∉ piece := by
  induction text with
  | nil => simp
  | cons point text ih =>
    rw [List.splitOn_cons_eq_if_modifyHead]
    split
    next => exact List.forall_mem_cons.mpr ⟨List.not_mem_nil, ih⟩
    next different =>
      cases pieces : text.splitOn separator with
      | nil => simp
      | cons first others =>
        rw [pieces] at ih
        obtain ⟨clear, rest⟩ := List.forall_mem_cons.mp ih
        refine List.forall_mem_cons.mpr ⟨fun member => ?_, rest⟩
        rcases List.mem_cons.mp member with rfl | later
        next => exact different (beq_self_eq_true _)
        next => exact clear later

/-! ## Strict UTF-8 -/

def encodeUtf8 (text : PyStr) : Option Bytes := do
  let chars ← text.mapM toChar?
  return chars.flatMap String.utf8EncodeChar

def decodeUtf8 (bytes : Bytes) : Option PyStr := do
  let chars ← ByteArray.utf8Decode? bytes.toByteArray
  return chars.toList.map ofChar

theorem mapM_toChar {text : PyStr} {chars : List Char} :
    text.mapM toChar? = some chars ↔ text = chars.map ofChar := by
  induction text generalizing chars with
  | nil => cases chars <;> simp
  | cons point text ih =>
    simp only [List.mapM_cons, Option.bind_eq_bind, Option.bind_eq_some_iff, toChar_eq_some, ih,
      Option.pure_def, Option.some_inj]
    constructor
    next => rintro ⟨char, rfl, chars, rfl, rfl⟩; rfl
    next =>
      cases chars with
      | nil => intro impossible; cases impossible
      | cons char chars =>
        intro same
        obtain ⟨rfl, rfl⟩ := List.cons.inj same
        exact ⟨char, rfl, chars, rfl, rfl⟩

theorem encodeUtf8_eq_some {text : PyStr} {bytes : Bytes} :
    encodeUtf8 text = some bytes ↔
      ∃ chars : List Char, text = chars.map ofChar ∧ chars.flatMap String.utf8EncodeChar = bytes := by
  simp only [encodeUtf8, Option.bind_eq_bind, Option.bind_eq_some_iff, mapM_toChar, Option.pure_def,
    Option.some_inj]

theorem decodeUtf8_eq_some {bytes : Bytes} {text : PyStr} :
    decodeUtf8 bytes = some text ↔ encodeUtf8 text = some bytes := by
  rw [encodeUtf8_eq_some]
  simp only [decodeUtf8, Option.bind_eq_bind, Option.bind_eq_some_iff, Option.pure_def, Option.some_inj]
  constructor
  next =>
    rintro ⟨chars, decoded, rfl⟩
    have same := ByteArray.utf8Encode_get_utf8Decode? (b := bytes.toByteArray)
      (h := Option.isSome_of_eq_some decoded)
    rw [Option.get_of_eq_some _ decoded, List.utf8Encode] at same
    exact ⟨chars.toList, rfl, List.toByteArray_inj.mp same⟩
  next =>
    rintro ⟨chars, rfl, rfl⟩
    exact ⟨chars.toArray, List.utf8Decode?_utf8Encode, rfl⟩

theorem decodeUtf8_ascii {bytes : Bytes} (ascii : ∀ byte ∈ bytes, byte.toNat < 0x80) :
    ∃ text, decodeUtf8 bytes = some text := by
  have single : ∀ code : Fin 0x80, String.utf8EncodeChar (Char.ofNat code) = [UInt8.ofNat code] := by decide
  refine ⟨(bytes.map fun byte => Char.ofNat byte.toNat).map ofChar, decodeUtf8_eq_some.mpr ?_⟩
  refine encodeUtf8_eq_some.mpr ⟨_, rfl, ?_⟩
  induction bytes with
  | nil => rfl
  | cons byte bytes ih =>
    obtain ⟨small, others⟩ := List.forall_mem_cons.mp ascii
    rw [List.map_cons, List.flatMap_cons, ih others, single ⟨byte.toNat, small⟩]
    simp

/-! ## Hexadecimal -/

def hexDigit (nibble : Nat) : CodePoint :=
  if h : nibble < 10 then ⟨0x30 + nibble, by omega⟩ else ⟨(0x57 + nibble) % 0x110000, Nat.mod_lt _ (by decide)⟩

/-- `bytes.hex()`: two lower-case digits for each byte. -/
def hex (bytes : Bytes) : PyStr :=
  bytes.flatMap fun byte => [hexDigit (byte.toNat / 16), hexDigit (byte.toNat % 16)]

def digitValue (point : CodePoint) : Option Nat :=
  if 0x30 ≤ point.val ∧ point.val ≤ 0x39 then some (point.val - 0x30)
  else if 0x61 ≤ point.val ∧ point.val ≤ 0x66 then some (point.val - 0x57)
  else if 0x41 ≤ point.val ∧ point.val ≤ 0x46 then some (point.val - 0x37)
  else none

def isSpace (point : CodePoint) : Bool := (0x09 ≤ point.val ∧ point.val ≤ 0x0d) ∨ point.val = 0x20

/-- `bytes.fromhex(text)`, `none` where it raises. -/
def fromhex : PyStr → Option Bytes
  | [] => some []
  | top :: rest =>
    if isSpace top then fromhex rest
    else match rest with
      | [] => none
      | bottom :: rest => do
        let high ← digitValue top
        let low ← digitValue bottom
        let bytes ← fromhex rest
        return UInt8.ofNat (high * 16 + low) :: bytes

theorem fromhex_space {top : CodePoint} (rest : PyStr) (space : isSpace top) :
    fromhex (top :: rest) = fromhex rest := by
  cases rest <;> simp [fromhex, space]

theorem fromhex_odd {top : CodePoint} (notSpace : ¬ isSpace top) : fromhex [top] = none := by
  simp [fromhex, notSpace]

theorem fromhex_digits {top : CodePoint} (bottom : CodePoint) (rest : PyStr) (notSpace : ¬ isSpace top) :
    fromhex (top :: bottom :: rest) = do
      let high ← digitValue top
      let low ← digitValue bottom
      let bytes ← fromhex rest
      return UInt8.ofNat (high * 16 + low) :: bytes := by
  simp [fromhex, notSpace]

def isLowerHex (point : CodePoint) : Bool :=
  (0x30 ≤ point.val ∧ point.val ≤ 0x39) ∨ (0x61 ≤ point.val ∧ point.val ≤ 0x66)

theorem length_hex (bytes : Bytes) : (hex bytes).length = 2 * bytes.length := by
  induction bytes with
  | nil => rfl
  | cons byte bytes ih =>
    rw [hex, List.flatMap_cons, List.length_append, ← hex, ih]
    simp only [List.length_cons, List.length_nil]
    omega

theorem hexDigit_correct {nibble : Nat} (small : nibble < 16) :
    isLowerHex (hexDigit nibble) ∧ ¬ isSpace (hexDigit nibble) ∧
      digitValue (hexDigit nibble) = some nibble := by
  interval_cases nibble <;> decide

theorem lowerHex_digit {point : CodePoint} (lower : isLowerHex point) :
    ∃ nibble < 16, point = hexDigit nibble := by
  simp only [isLowerHex, Bool.decide_or, Bool.or_eq_true, decide_eq_true_eq] at lower
  rcases lower with digit | letter
  next =>
    refine ⟨point.val - 0x30, by omega, Fin.ext ?_⟩
    rw [hexDigit, dif_pos (by omega)]
    change point.val = 0x30 + (point.val - 0x30)
    omega
  next =>
    refine ⟨point.val - 0x57, by omega, Fin.ext ?_⟩
    rw [hexDigit, dif_neg (by omega)]
    change point.val = (0x57 + (point.val - 0x57)) % 0x110000
    omega

theorem fromhex_pair {high low : Nat} (highBound : high < 16) (lowBound : low < 16) (rest : PyStr) :
    fromhex (hexDigit high :: hexDigit low :: rest) =
      (fromhex rest).map (UInt8.ofNat (high * 16 + low) :: ·) := by
  obtain ⟨-, notSpace, highValue⟩ := hexDigit_correct highBound
  obtain ⟨-, -, lowValue⟩ := hexDigit_correct lowBound
  rw [fromhex_digits _ _ notSpace]
  simp only [highValue, lowValue, Option.bind_eq_bind, Option.bind_some, Option.pure_def]
  cases fromhex rest <;> rfl

theorem fromhex_hex (bytes : Bytes) : fromhex (hex bytes) = some bytes := by
  induction bytes with
  | nil => rfl
  | cons byte bytes ih =>
    have small := byte.toNat_lt
    change fromhex (hexDigit (byte.toNat / 16) :: hexDigit (byte.toNat % 16) :: hex bytes) = _
    rw [fromhex_pair (by omega) (by omega), ih, Option.map_some, Nat.div_add_mod', UInt8.ofNat_toNat]

theorem hex_lower (bytes : Bytes) : ∀ point ∈ hex bytes, isLowerHex point := by
  intro point member
  obtain ⟨byte, -, member⟩ := List.mem_flatMap.mp member
  have small := byte.toNat_lt
  simp only [List.mem_cons, List.not_mem_nil, or_false] at member
  rcases member with rfl | rfl
  next => exact (hexDigit_correct (by omega)).1
  next => exact (hexDigit_correct (by omega)).1

/-- A text of an even number of lower-case digits is what `hex` prints. -/
theorem exists_hex (count : Nat) (text : PyStr) (length : text.length = 2 * count)
    (lower : ∀ point ∈ text, isLowerHex point) : ∃ bytes, text = hex bytes := by
  induction count generalizing text with
  | zero => exact ⟨[], List.length_eq_zero_iff.mp length⟩
  | succ count ih =>
    obtain ⟨top, rest, rfl⟩ := List.exists_cons_of_length_eq_add_one
      (show text.length = 2 * count + 1 + 1 by omega)
    obtain ⟨bottom, rest, rfl⟩ := List.exists_cons_of_length_eq_add_one
      (show rest.length = 2 * count + 1 by simp only [List.length_cons] at length; omega)
    simp only [List.length_cons] at length
    rw [List.forall_mem_cons, List.forall_mem_cons] at lower
    obtain ⟨high, highBound, rfl⟩ := lowerHex_digit lower.1
    obtain ⟨low, lowBound, rfl⟩ := lowerHex_digit lower.2.1
    obtain ⟨bytes, rfl⟩ := ih rest (by omega) lower.2.2
    refine ⟨UInt8.ofNat (high * 16 + low) :: bytes, ?_⟩
    have value : (UInt8.ofNat (high * 16 + low)).toNat = high * 16 + low := by
      rw [UInt8.toNat_ofNat']
      omega
    have quotient : (high * 16 + low) / 16 = high := by omega
    have remainder : (high * 16 + low) % 16 = low := by omega
    change _ = hexDigit (_ / 16) :: hexDigit (_ % 16) :: hex bytes
    rw [value, quotient, remainder]

/-- Another text that `fromhex` reads as the same bytes: the case of capital digits is changed, and
so is which space a space is. -/
def respell (point : CodePoint) : CodePoint :=
  if isLowerHex point then point
  else if isSpace point then (if point = 0x20 then 0x09 else 0x20)
  else if digitValue point = none then point
  else point + 0x20

theorem capital_digit {point : CodePoint} (notLower : ¬ isLowerHex point) (digit : digitValue point ≠ none) :
    0x41 ≤ point.val ∧ point.val ≤ 0x46 := by
  simp only [isLowerHex, Bool.decide_or, Bool.or_eq_true, decide_eq_true_eq] at notLower
  simp only [digitValue] at digit
  split at digit
  next => omega
  next =>
    split at digit
    next => omega
    next =>
      split at digit
      next => assumption
      next => exact absurd rfl digit

theorem val_lowered {point : CodePoint} (small : point.val < 0x80) : (point + 0x20).val = point.val + 0x20 := by
  rw [Fin.val_add]
  change (point.val + 0x20) % 0x110000 = _
  omega

theorem respell_correct (point : CodePoint) :
    isSpace (respell point) = isSpace point ∧ digitValue (respell point) = digitValue point := by
  rw [respell]
  split
  next => exact ⟨rfl, rfl⟩
  next notLower =>
    split
    next space =>
      have notDigit {other : CodePoint} (blank : isSpace other) : digitValue other = none := by
        simp only [isSpace, Bool.decide_or, Bool.or_eq_true, decide_eq_true_eq] at blank
        simp only [digitValue]
        repeat rw [if_neg (by omega)]
      have spaces : isSpace (if point = 0x20 then 0x09 else 0x20) := by split <;> decide
      exact ⟨by rw [spaces, space], by rw [notDigit spaces, notDigit space]⟩
    next notSpace =>
      split
      next => exact ⟨rfl, rfl⟩
      next digit =>
        have capital := capital_digit notLower digit
        simp only [isSpace, digitValue, val_lowered (show point.val < 0x80 by omega)]
        constructor
        next => simp only [decide_eq_decide]; omega
        next =>
          rw [if_neg (by omega), if_pos (by omega), if_neg (by omega), if_neg (by omega), if_pos capital]
          congr 1

theorem respell_lower {point : CodePoint} (notSpace : ¬ isSpace point) (digit : digitValue point ≠ none) :
    isLowerHex (respell point) := by
  by_cases lower : isLowerHex point
  next => rw [respell, if_pos lower]; exact lower
  next =>
    have capital := capital_digit lower digit
    rw [respell, if_neg lower, if_neg notSpace, if_neg digit]
    simp only [isLowerHex, val_lowered (show point.val < 0x80 by omega), Bool.decide_or, Bool.or_eq_true,
      decide_eq_true_eq]
    omega

theorem fromhex_respell (text : PyStr) : fromhex (text.map respell) = fromhex text := by
  induction text using fromhex.induct with
  | case1 => rfl
  | case2 top rest space ih =>
    rw [List.map_cons, fromhex_space _ space, fromhex_space _ ((respell_correct top).1.trans space), ih]
  | case3 top notSpace =>
    rw [fromhex_odd notSpace]
    exact fromhex_odd ((respell_correct top).1 ▸ notSpace)
  | case4 top notSpace bottom rest ih =>
    rw [List.map_cons, List.map_cons, fromhex_digits _ _ notSpace,
      fromhex_digits _ _ ((respell_correct top).1 ▸ notSpace)]
    simp only [(respell_correct _).2, ih]

theorem fromhex_characters {text : PyStr} {bytes : Bytes} (read : fromhex text = some bytes) :
    ∀ point ∈ text, isSpace point ∨ digitValue point ≠ none := by
  induction text using fromhex.induct generalizing bytes with
  | case1 => simp
  | case2 top rest space ih =>
    rw [fromhex_space _ space] at read
    exact List.forall_mem_cons.mpr ⟨.inl space, ih read⟩
  | case3 top notSpace => rw [fromhex_odd notSpace] at read; cases read
  | case4 top notSpace bottom rest ih =>
    rw [fromhex_digits _ _ notSpace] at read
    simp only [Option.bind_eq_bind, Option.bind_eq_some_iff] at read
    obtain ⟨high, highValue, low, lowValue, tail, tailRead, -⟩ := read
    rw [List.forall_mem_cons, List.forall_mem_cons]
    exact ⟨.inr (by simp [highValue]), .inr (by simp [lowValue]), ih tailRead⟩

theorem respell_ne {text : PyStr} {bytes : Bytes} (read : fromhex text = some bytes)
    (notLower : ¬ ∀ point ∈ text, isLowerHex point) : text.map respell ≠ text := by
  intro same
  apply notLower
  intro point member
  have kept : respell point = point := by
    obtain ⟨position, bound, rfl⟩ := List.getElem_of_mem member
    have := congrArg (·[position]?) same
    simpa [bound] using this
  by_contra capital
  rw [respell, if_neg capital] at kept
  split at kept
  next =>
    split at kept
    next same => rw [same] at kept; exact absurd kept (by decide)
    next other => exact other kept.symm
  next notSpace =>
    rcases fromhex_characters read point member with space | digit
    next => exact notSpace space
    next =>
      rw [if_neg digit] at kept
      exact absurd (left_eq_add.mp kept.symm) (by decide)

end Text
