import LedgerVcs.Lib.Numeral

set_option autoImplicit false

/-!
# JSON in Python

What `json.dumps(document, separators=(",", ":"), ensure_ascii=False)` writes and `json.loads` reads.
-/

open Text (PyStr CodePoint lit)

/-- A float is the text that is written of it, and an object has its keys in order. -/
inductive Json
  | null
  | bool (value : Bool)
  | int (value : Int)
  | float (text : PyStr)
  | string (text : PyStr)
  | array (items : List Json)
  | object (fields : List (PyStr × Json))

namespace Json

/-! ## Writing -/

def QUOTE : CodePoint := 0x22

def BACKSLASH : CodePoint := 0x5c

def COMMA : CodePoint := 0x2c

/-- Escapes of one letter, and what they mean. -/
def ESCAPES : List (CodePoint × CodePoint) :=
  [(0x22, 0x22), (0x5c, 0x5c), (0x6e, 0x0a), (0x72, 0x0d), (0x74, 0x09), (0x66, 0x0c), (0x62, 0x08)]

def escape (point : CodePoint) : PyStr :=
  match ESCAPES.find? fun known => known.2 = point with
  | some known => [BACKSLASH, known.1]
  | none =>
    if point.val < 0x20 then [BACKSLASH, 0x75, 0x30, 0x30, Text.hexDigit (point.val / 16), Text.hexDigit (point.val % 16)]
    else [point]

def quote (text : PyStr) : PyStr := QUOTE :: text.flatMap escape ++ [QUOTE]

/-- `",".join(texts)` -/
def comma_join : List PyStr → PyStr
  | [] => []
  | [text] => text
  | text :: texts => text ++ COMMA :: comma_join texts

mutual

def dumps : Json → PyStr
  | null => lit "null"
  | bool value => if value then lit "true" else lit "false"
  | int value => Text.ofInt value
  | float text => text
  | string text => quote text
  | array items => 0x5b :: comma_join (dumps_items items) ++ [0x5d]
  | object fields => 0x7b :: comma_join (dumps_fields fields) ++ [0x7d]

def dumps_items : List Json → List PyStr
  | [] => []
  | item :: items => dumps item :: dumps_items items

def dumps_fields : List (PyStr × Json) → List PyStr
  | [] => []
  | (key, value) :: fields => (quote key ++ 0x3a :: dumps value) :: dumps_fields fields

end

/-! ## Reading strings -/

def code_unit (digits : List CodePoint) : Option CodePoint := do
  if digits.length ≠ 4 then none
  else
    let values ← digits.mapM Text.digitValue
    return Fin.ofNat _ (Nat.ofDigits 16 values.reverse)

/-- The next character, with whether it was written as a code unit, and what comes after it. -/
def scan_unit : PyStr → Option ((Bool × CodePoint) × PyStr)
  | [] => none
  | point :: rest =>
    if point = BACKSLASH then
      match rest with
      | [] => none
      | letter :: rest =>
        if letter = 0x75 then (code_unit (rest.take 4)).map fun unit => ((true, unit), rest.drop 4)
        -- a slash may be escaped, too
        else (((0x2f, 0x2f) :: ESCAPES).lookup letter).map fun meant => ((false, meant), rest)
    else if point.val < 0x20 then none
    else some ((false, point), rest)

/-- The characters up to the closing quote. -/
def scan_units : (fuel : Nat) → PyStr → Option (List (Bool × CodePoint) × PyStr)
  | 0, _ => none
  | fuel + 1, text =>
    if text.head? = some QUOTE then some ([], text.tail)
    else do
      let (unit, after) ← scan_unit text
      let (units, after) ← scan_units fuel after
      return (unit :: units, after)

/-- Two code units in a row may be one character. -/
def joined : List (Bool × CodePoint) → PyStr
  | [] => []
  | [unit] => [unit.2]
  | high :: low :: units =>
    if (high.1 ∧ 0xd800 ≤ high.2.val ∧ high.2.val ≤ 0xdbff) ∧ low.1 ∧ 0xdc00 ≤ low.2.val ∧ low.2.val ≤ 0xdfff then
      Fin.ofNat _ (0x10000 + (high.2.val - 0xd800) * 0x400 + (low.2.val - 0xdc00)) :: joined units
    else high.2 :: joined (low :: units)

/-- `scanstring`, behind the opening quote. -/
def scanstring (text : PyStr) : Option (PyStr × PyStr) := do
  let (units, after) ← scan_units (text.length + 1) text
  return (joined units, after)

/-! ## Reading numbers and words -/

def isDigit (point : CodePoint) : Bool := 0x30 ≤ point.val ∧ point.val ≤ 0x39

/-- Digits, signs, points and exponents: none of these ends a number. -/
def isNumeric (point : CodePoint) : Bool := isDigit point ∨ point ∈ lit "+-.eE"

/-- `(\.[0-9]+)?([eE][-+]?[0-9]+)?` -/
def isTail (text : PyStr) : Bool :=
  let isExponent (text : PyStr) : Bool :=
    match text with
    | [] => true
    | letter :: digits =>
      let digits := match digits with
        | sign :: rest => if sign ∈ lit "+-" then rest else digits
        | [] => []
      letter ∈ lit "eE" ∧ digits ≠ [] ∧ digits.all isDigit
  match text with
  | [] => true
  | point :: rest =>
    if point = 0x2e then rest.takeWhile isDigit ≠ [] ∧ isExponent (rest.dropWhile isDigit) else isExponent text

/-- What all of a run of numeric characters is read as; `float_repr` is what is written of a literal's float. -/
def number (float_repr : PyStr → PyStr) (token : PyStr) : Option Json :=
  let magnitude := if token.head? = some 0x2d then token.tail else token
  let whole := magnitude.takeWhile isDigit
  let rest := magnitude.dropWhile isDigit
  if whole = [] ∨ (whole.head? = some 0x30 ∧ whole.length ≠ 1) then none
  else if rest = [] then (Text.toInt token).map int
  else if isTail rest then some (float (float_repr token))
  else none

def WORDS : List (PyStr × Json) :=
  [(lit "null", null), (lit "true", bool true), (lit "false", bool false), (lit "NaN", float (lit "NaN")),
    (lit "Infinity", float (lit "Infinity")), (lit "-Infinity", float (lit "-Infinity"))]

def scan_plain (float_repr : PyStr → PyStr) (text : PyStr) : Option (Json × PyStr) :=
  match WORDS.find? fun known => known.1.isPrefixOf text with
  | some known => some (known.2, text.drop known.1.length)
  | none => (number float_repr (text.takeWhile isNumeric)).map fun value => (value, text.dropWhile isNumeric)

/-! ## Reading documents -/

def isSpace (point : CodePoint) : Bool := point ∈ lit " \t\n\r"

def skip (text : PyStr) : PyStr := text.dropWhile isSpace

/-- Whether a list ends or goes on. -/
def close_or_comma (close : CodePoint) (text : PyStr) : Option (Bool × PyStr) :=
  match skip text with
  | [] => none
  | point :: rest => if point = close then some (true, rest) else if point = COMMA then some (false, skip rest) else none

def expect (point : CodePoint) : PyStr → Option PyStr
  | [] => none
  | first :: rest => if first = point then some rest else none

/-- A key and its colon. -/
def scan_field (text : PyStr) : Option (PyStr × PyStr) := do
  let (key, rest) ← (expect QUOTE text).bind scanstring
  let rest ← expect 0x3a (skip rest)
  return (key, rest)

/-- `fields[key] = value` -/
def set_field {α : Type} (key : PyStr) (value : α) : List (PyStr × α) → List (PyStr × α)
  | [] => [(key, value)]
  | field :: fields => if field.1 = key then (key, value) :: fields else field :: set_field key value fields

def dict {α : Type} (pairs : List (PyStr × α)) : List (PyStr × α) :=
  pairs.foldl (fun fields pair => set_field pair.1 pair.2 fields) []

section Scanning

variable (float_repr : PyStr → PyStr)

mutual

/-- `scan_once`; the number is more than the text can need. -/
def scan : (fuel : Nat) → PyStr → Option (Json × PyStr)
  | 0, _ => none
  | _, [] => none
  | fuel + 1, point :: rest =>
    if point = QUOTE then (scanstring rest).map fun result => (string result.1, result.2)
    else if point = 0x5b then
      match expect 0x5d (skip rest) with
      | some after => some (array [], after)
      | none => (scan_items fuel (skip rest)).map fun result => (array result.1, result.2)
    else if point = 0x7b then
      match expect 0x7d (skip rest) with
      | some after => some (object [], after)
      | none => (scan_fields fuel (skip rest)).map fun result => (object (dict result.1), result.2)
    else scan_plain float_repr (point :: rest)

def scan_items : (fuel : Nat) → PyStr → Option (List Json × PyStr)
  | 0, _ => none
  | fuel + 1, text => do
    let (item, rest) ← scan fuel text
    let (closed, rest) ← close_or_comma 0x5d rest
    if closed then return ([item], rest)
    else do
      let (items, rest) ← scan_items fuel rest
      return (item :: items, rest)

def scan_fields : (fuel : Nat) → PyStr → Option (List (PyStr × Json) × PyStr)
  | 0, _ => none
  | fuel + 1, text => do
    let (key, rest) ← scan_field text
    let (value, rest) ← scan fuel (skip rest)
    let (closed, rest) ← close_or_comma 0x7d rest
    if closed then return ([(key, value)], rest)
    else do
      let (fields, rest) ← scan_fields fuel rest
      return ((key, value) :: fields, rest)

end

/-- `json.loads`, `none` where it raises. -/
def loads (text : PyStr) : Option Json := do
  let (document, rest) ← scan float_repr (2 * text.length + 2) (skip text)
  if skip rest = [] then return document else none

end Scanning

/-! ## Strings are read back -/

theorem scan_escape (point : CodePoint) (rest : PyStr) : ∃ unit : Bool, (unit = true → point.val < 0x20) ∧
    (escape point ++ rest).head? ≠ some QUOTE ∧ scan_unit (escape point ++ rest) = some ((unit, point), rest) := by
  by_cases known : point ∈ ESCAPES.map Prod.snd
  next =>
    refine ⟨false, (by simp), ?_⟩
    simp only [ESCAPES, List.map_cons, List.map_nil, List.mem_cons, List.not_mem_nil, or_false] at known
    rcases known with rfl | rfl | rfl | rfl | rfl | rfl | rfl <;> exact ⟨by simp [escape, ESCAPES, BACKSLASH, QUOTE], rfl⟩
  next =>
    have unknown : (ESCAPES.find? fun known => known.2 = point) = none :=
      List.find?_eq_none.mpr fun pair member same => known (List.mem_map.mpr ⟨pair, member, of_decide_eq_true same⟩)
    have plain : point ≠ QUOTE ∧ point ≠ BACKSLASH := by
      constructor <;> rintro rfl <;> exact known (by decide)
    by_cases control : point.val < 0x20
    next =>
      have unit : ∀ code : Fin 0x20, code_unit [0x30, 0x30, Text.hexDigit (code.val / 16), Text.hexDigit (code.val % 16)] =
          some (Fin.ofNat _ code.val) := by decide
      have same : Fin.ofNat 0x110000 point.val = point := Fin.ext (Nat.mod_eq_of_lt point.isLt)
      have spelled : escape point = [BACKSLASH, 0x75, 0x30, 0x30, Text.hexDigit (point.val / 16), Text.hexDigit (point.val % 16)] := by
        simp only [escape, unknown, if_pos control]
      refine ⟨true, fun _ => control, by simp [spelled, BACKSLASH, QUOTE], ?_⟩
      have read := unit ⟨point.val, control⟩
      rw [same] at read
      rw [spelled]
      simp only [List.cons_append, List.nil_append, scan_unit, if_true, List.take_succ_cons, List.take_zero, List.drop_succ_cons,
        List.drop_zero, read, Option.map_some]
    next =>
      have spelled : escape point = [point] := by simp only [escape, unknown, if_neg control]
      refine ⟨false, (by simp), by simpa [spelled] using plain.1, ?_⟩
      rw [spelled, List.singleton_append]
      simp only [scan_unit, if_neg plain.2, if_neg control]

theorem joined_plain {units : List (Bool × CodePoint)} (small : ∀ unit ∈ units, unit.1 = true → unit.2.val < 0x20) :
    joined units = units.map Prod.snd := by
  induction units using joined.induct with
  | case1 => rfl
  | case2 => rfl
  | case3 high low units pair =>
    have below := small high List.mem_cons_self pair.1.1
    omega
  | case4 high low units apart ih =>
    rw [joined, if_neg apart, ih fun unit member => small unit (List.mem_cons_of_mem _ member)]
    rfl

theorem length_escaped (text : PyStr) : text.length ≤ (text.flatMap escape).length := by
  have escaped (point : CodePoint) : 1 ≤ (escape point).length := by
    rw [escape]
    split
    next => simp
    next => split <;> simp
  induction text with
  | nil => exact Nat.zero_le _
  | cons point text ih =>
    have first := escaped point
    rw [List.flatMap_cons, List.length_append, List.length_cons]
    omega

theorem scanstring_quoted (text rest : PyStr) : scanstring (text.flatMap escape ++ QUOTE :: rest) = some (text, rest) := by
  have scanned (fuel : Nat) (enough : text.length < fuel) : ∃ units : List (Bool × CodePoint), units.map Prod.snd = text ∧
      (∀ unit ∈ units, unit.1 = true → unit.2.val < 0x20) ∧
        scan_units fuel (text.flatMap escape ++ QUOTE :: rest) = some (units, rest) := by
    induction text generalizing fuel with
    | nil =>
      obtain ⟨fuel, rfl⟩ := Nat.exists_eq_succ_of_ne_zero (Nat.ne_zero_of_lt enough)
      exact ⟨[], rfl, fun _ none => absurd none List.not_mem_nil, rfl⟩
    | cons point text ih =>
      obtain ⟨fuel, rfl⟩ := Nat.exists_eq_succ_of_ne_zero (Nat.ne_zero_of_lt enough)
      obtain ⟨units, whole, small, scanned⟩ := ih fuel (Nat.lt_of_succ_lt_succ enough)
      obtain ⟨unit, control, open_, reads⟩ := scan_escape point (text.flatMap escape ++ QUOTE :: rest)
      refine ⟨(unit, point) :: units, by rw [List.map_cons, whole], List.forall_mem_cons.mpr ⟨control, small⟩, ?_⟩
      rw [List.flatMap_cons, List.append_assoc, scan_units, if_neg open_, reads]
      simp only [Option.bind_eq_bind, Option.bind_some, scanned, pure]
  have longer : text.length < (text.flatMap escape ++ QUOTE :: rest).length + 1 := by
    have long := length_escaped text
    rw [List.length_append]
    omega
  obtain ⟨units, whole, small, scanned⟩ := scanned _ longer
  rw [scanstring, scanned]
  exact congrArg (fun text => some (text, rest)) ((joined_plain small).trans whole)

/-! ## Documents are read back -/

section Reading

variable {float_repr : PyStr → PyStr}

/-- It is read as the float whose text it is. -/
def Written (float_repr : PyStr → PyStr) (text : PyStr) : Prop :=
  (text.all isNumeric ∧ number float_repr text = some (float text)) ∨
    text ∈ [lit "NaN", lit "Infinity", lit "-Infinity"]

mutual

/-- Floats are written as they are read, and no object has a key twice. -/
def Fits (float_repr : PyStr → PyStr) : Json → Prop
  | float text => Written float_repr text
  | array items => FitItems float_repr items
  | object fields => (fields.map Prod.fst).Nodup ∧ FitFields float_repr fields
  | _ => True

def FitItems (float_repr : PyStr → PyStr) : List Json → Prop
  | [] => True
  | item :: items => Fits float_repr item ∧ FitItems float_repr items

def FitFields (float_repr : PyStr → PyStr) : List (PyStr × Json) → Prop
  | [] => True
  | (_, value) :: fields => Fits float_repr value ∧ FitFields float_repr fields

end

theorem fit_items {items : List Json} : FitItems float_repr items ↔ ∀ item ∈ items, Fits float_repr item := by
  induction items with
  | nil => simp [FitItems]
  | cons item items ih => rw [FitItems, List.forall_mem_cons, ih]

theorem fit_fields {fields : List (PyStr × Json)} : FitFields float_repr fields ↔ ∀ field ∈ fields, Fits float_repr field.2 := by
  induction fields with
  | nil => simp [FitFields]
  | cons field fields ih => rw [FitFields, List.forall_mem_cons, ih]

/-- What comes after a number does not go on with it. -/
def Stops (rest : PyStr) : Prop := ∀ point ∈ rest.head?, isNumeric point = false

theorem scan_number {token rest : PyStr} {value : Json} (numeric : token.all isNumeric)
    (read : number float_repr token = some value) (stops : Stops rest) :
    scan_plain float_repr (token ++ rest) = some (value, rest) := by
  have taken : (token ++ rest).takeWhile isNumeric = token ∧ (token ++ rest).dropWhile isNumeric = rest := by
    have all := List.all_eq_true.mp numeric
    rw [List.takeWhile_append_of_pos all, List.dropWhile_append_of_pos all]
    cases rest with
    | nil => simp
    | cons point rest =>
      have last := stops point rfl
      simp [last]
  have unknown : (WORDS.find? fun known => known.1.isPrefixOf (token ++ rest)) = none := by
    refine List.find?_eq_none.mpr fun word member begins => ?_
    cases token with
    | nil =>
      rw [number] at read
      simp at read
    | cons point token =>
      have first : isNumeric point = true := List.all_eq_true.mp numeric point List.mem_cons_self
      obtain ⟨letters, spelled⟩ := List.isPrefixOf_iff_prefix.mp begins
      -- the words that do not begin like a number
      have other {letter : CodePoint} {word : PyStr} (begins : letter :: word ++ letters = point :: token ++ rest)
          (letters : isNumeric letter = false) : False := by
        obtain rfl : letter = point := (List.cons.inj begins).1
        rw [first] at letters
        cases letters
      simp only [WORDS, List.mem_cons, List.not_mem_nil, or_false] at member
      rcases member with rfl | rfl | rfl | rfl | rfl | rfl
      all_goals try exact other spelled (by decide)
      have tail : lit "Infinity" ++ letters = token ++ rest := (List.cons.inj spelled).2
      obtain rfl : 0x2d = point := (List.cons.inj spelled).1
      cases token with
      | nil => cases read
      | cons second token =>
        have numeric := List.all_eq_true.mp numeric second (by simp)
        obtain rfl : 0x49 = second := (List.cons.inj tail).1
        cases numeric
  rw [scan_plain, unknown]
  simp only [taken.1, taken.2, read, Option.map_some]

/-! ### Integers -/

theorem ofNat_whole (value : Nat) : (Text.ofNat value).all isDigit ∧ Text.ofNat value ≠ [] ∧
    ¬ ((Text.ofNat value).head? = some 0x30 ∧ (Text.ofNat value).length ≠ 1) := by
  have digit {digits : List Nat} (small : ∀ digit ∈ digits, digit < 10) : (digits.map Text.decimalDigit).all isDigit := by
    refine List.all_eq_true.mpr fun point member => ?_
    obtain ⟨digit, there, rfl⟩ := List.mem_map.mp member
    have value := Text.val_decimalDigit (small digit there)
    have below := small digit there
    rw [isDigit, decide_eq_true_eq, value]
    omega
  rw [Text.ofNat]
  split
  next => exact ⟨by decide, by decide, by decide⟩
  next positive =>
    have some_digit : Nat.digits 10 value ≠ [] := Nat.digits_ne_nil_iff_ne_zero.mpr positive
    refine ⟨digit fun digit member => Nat.digits_lt_base (by decide) (List.mem_reverse.mp member),
      by rwa [Ne, List.map_eq_nil_iff, List.reverse_eq_nil_iff], ?_⟩
    rintro ⟨zero, -⟩
    rw [List.head?_map, List.head?_reverse, List.getLast?_eq_some_getLast some_digit, Option.map_some, Option.some.injEq] at zero
    have leading := Nat.getLast_digit_ne_zero 10 positive
    have small := Nat.digits_lt_base (b := 10) (by decide) (List.getLast_mem some_digit)
    have value := congrArg Fin.val zero
    rw [Text.val_decimalDigit small] at value
    exact leading (Nat.add_left_cancel value)

theorem number_whole {token : PyStr} {value : Int} (digits : token.all isDigit) (nonempty : token ≠ [])
    (plain : ¬ (token.head? = some 0x30 ∧ token.length ≠ 1)) :
    (Text.toInt token = some value → number float_repr token = some (int value)) ∧
      (Text.toInt (0x2d :: token) = some value → number float_repr (0x2d :: token) = some (int value)) := by
  have all := List.all_eq_true.mp digits
  have taken : token.takeWhile isDigit = token := List.takeWhile_eq_self_iff.mpr all
  have dropped : token.dropWhile isDigit = [] := List.dropWhile_eq_nil_iff.mpr all
  have unsigned : token.head? ≠ some 0x2d := by
    cases token with
    | nil => simp
    | cons point token =>
      have first := all point List.mem_cons_self
      rintro ⟨⟩
      cases first
  constructor
  next =>
    intro read
    simp only [number, if_neg unsigned, taken, dropped, nonempty, plain, or_self, if_false, if_true, read, Option.map_some]
  next =>
    intro read
    simp only [number, List.head?_cons, if_true, List.tail_cons, taken, dropped, nonempty, plain, or_self, if_false, read, Option.map_some]

theorem number_int (value : Int) :
    (Text.ofInt value).all isNumeric ∧ number float_repr (Text.ofInt value) = some (int value) := by
  have numeric {token : PyStr} (digits : token.all isDigit) : token.all isNumeric := by
    refine List.all_eq_true.mpr fun point member => ?_
    rw [isNumeric, List.all_eq_true.mp digits point member]
    simp
  have read := Text.toInt_ofInt value
  cases value with
  | ofNat value =>
    obtain ⟨digits, nonempty, plain⟩ := ofNat_whole value
    exact ⟨numeric digits, (number_whole digits nonempty plain).1 read⟩
  | negSucc value =>
    obtain ⟨digits, nonempty, plain⟩ := ofNat_whole (value + 1)
    refine ⟨?_, (number_whole digits nonempty plain).2 read⟩
    rw [Text.ofInt, List.all_cons, numeric digits]
    rfl

/-! ### Values -/

/-- Neither white space nor the end of an array. -/
def Begins (point : CodePoint) : Prop := isSpace point = false ∧ point ≠ 0x5d

theorem numeric_begins {point : CodePoint} (numeric : isNumeric point = true) : Begins point ∧ point ≠ QUOTE ∧ point ≠ 0x5b ∧ point ≠ 0x7b := by
  refine ⟨⟨Bool.eq_false_iff.mpr fun space => ?_, ?_⟩, ?_, ?_, ?_⟩
  next =>
    rw [isSpace, decide_eq_true_eq] at space
    have listed : point ∈ [0x20, 0x09, 0x0a, 0x0d] := space
    simp only [List.mem_cons, List.not_mem_nil, or_false] at listed
    rcases listed with rfl | rfl | rfl | rfl <;> cases numeric
  all_goals
    rintro rfl
    cases numeric

/-- A number, and what comes after it. -/
theorem scan_numeric {token rest : PyStr} {value : Json} (fuel : Nat) (numeric : token.all isNumeric)
    (read : number float_repr token = some value) (stops : Stops rest) :
    scan float_repr (fuel + 1) (token ++ rest) = some (value, rest) := by
  have plain := scan_number numeric read stops
  cases token with
  | nil =>
    rw [number] at read
    simp at read
  | cons point token =>
    obtain ⟨-, quote, array, object⟩ := numeric_begins (List.all_eq_true.mp numeric point List.mem_cons_self)
    rw [List.cons_append] at plain ⊢
    rw [scan, if_neg quote, if_neg array, if_neg object, plain]

theorem scan_written {text rest : PyStr} (fuel : Nat) (written : Written float_repr text) (stops : Stops rest) :
    scan float_repr (fuel + 1) (text ++ rest) = some (float text, rest) := by
  rcases written with ⟨numeric, read⟩ | word
  next => exact scan_numeric fuel numeric read stops
  next =>
    simp only [List.mem_cons, List.not_mem_nil, or_false] at word
    rcases word with rfl | rfl | rfl <;> rfl

theorem number_nonempty {token : PyStr} {value : Json} (read : number float_repr token = some value) : token ≠ [] := by
  rintro rfl
  rw [number] at read
  simp at read

theorem dumps_begins {document : Json} (fits : Fits float_repr document) :
    ∃ point text, dumps document = point :: text ∧ Begins point := by
  have numeric {token : PyStr} {value : Json} (numeric : token.all isNumeric) (read : number float_repr token = some value) :
      ∃ point text, token = point :: text ∧ Begins point := by
    cases token with
    | nil => exact absurd rfl (number_nonempty read)
    | cons point text => exact ⟨point, text, rfl, (numeric_begins (List.all_eq_true.mp numeric point List.mem_cons_self)).1⟩
  cases document with
  | null => exact ⟨_, _, rfl, by decide, by decide⟩
  | bool value =>
    cases value
    next => exact ⟨_, _, rfl, by decide, by decide⟩
    next => exact ⟨_, _, rfl, by decide, by decide⟩
  | int value => exact numeric (@number_int float_repr value).1 (@number_int float_repr value).2
  | float text =>
    rcases fits with ⟨digits, read⟩ | word
    next => exact numeric digits read
    next =>
      simp only [List.mem_cons, List.not_mem_nil, or_false] at word
      rcases word with rfl | rfl | rfl <;> exact ⟨_, _, rfl, by decide, by decide⟩
  | string text => exact ⟨_, _, rfl, by decide, by decide⟩
  | array items => exact ⟨_, _, rfl, by decide, by decide⟩
  | object fields => exact ⟨_, _, rfl, by decide, by decide⟩

theorem skip_begins {point : CodePoint} {text : PyStr} (space : isSpace point = false) : skip (point :: text) = point :: text := by
  rw [skip, List.dropWhile_cons_of_neg (by simp [space])]

/-! ### Arrays and objects -/

theorem comma_or_close {close : CodePoint} (plain : isSpace close = false) (different : close ≠ COMMA) (rest : PyStr) :
    close_or_comma close (close :: rest) = some (true, rest) ∧
      close_or_comma close (COMMA :: rest) = some (false, skip rest) := by
  constructor
  next => rw [close_or_comma, skip_begins plain]; simp only [if_true]
  next => rw [close_or_comma, skip_begins (by decide)]; simp only [if_neg (Ne.symm different), if_true]

theorem stops_at {point : CodePoint} {rest : PyStr} (other : isNumeric point = false) : Stops (point :: rest) := by
  intro first head
  obtain rfl := Option.some.inj head
  exact other

theorem join_cons (text : PyStr) {texts : List PyStr} (nonempty : texts ≠ []) :
    comma_join (text :: texts) = text ++ COMMA :: comma_join texts := by
  cases texts with
  | nil => exact absurd rfl nonempty
  | cons => rfl

theorem items_begin {items : List Json} (fits : FitItems float_repr items) (nonempty : items ≠ []) :
    ∃ point text, comma_join (dumps_items items) = point :: text ∧ Begins point := by
  cases items with
  | nil => exact absurd rfl nonempty
  | cons item items =>
    obtain ⟨point, text, written, begins⟩ := dumps_begins fits.1
    cases items with
    | nil => exact ⟨point, text, written, begins⟩
    | cons second items =>
      refine ⟨point, text ++ COMMA :: comma_join (dumps_items (second :: items)), ?_, begins⟩
      rw [dumps_items, join_cons _ (by simp [dumps_items]), written, List.cons_append]

theorem fields_begin {fields : List (PyStr × Json)} (nonempty : fields ≠ []) :
    ∃ text, comma_join (dumps_fields fields) = QUOTE :: text := by
  cases fields with
  | nil => exact absurd rfl nonempty
  | cons field fields =>
    obtain ⟨key, value⟩ := field
    cases fields with
    | nil => exact ⟨_, rfl⟩
    | cons second fields =>
      rw [dumps_fields, join_cons _ (by simp [dumps_fields])]
      exact ⟨_, rfl⟩

/-- A dictionary whose keys are distinct is the list of its items. -/
theorem dict_distinct {α : Type} {fields : List (PyStr × α)} (distinct : (fields.map Prod.fst).Nodup) : dict fields = fields := by
  have last {before : List (PyStr × α)} {key : PyStr} {value : α} (fresh : key ∉ before.map Prod.fst) :
      set_field key value before = before ++ [(key, value)] := by
    induction before with
    | nil => rfl
    | cons field before ih =>
      rw [List.map_cons, List.mem_cons, not_or] at fresh
      rw [set_field, if_neg (Ne.symm fresh.1), ih fresh.2, List.cons_append]
  have onward (before fields : List (PyStr × α)) (distinct : ((before ++ fields).map Prod.fst).Nodup) :
      fields.foldl (fun fields pair => set_field pair.1 pair.2 fields) before = before ++ fields := by
    induction fields generalizing before with
    | nil => rw [List.foldl_nil, List.append_nil]
    | cons field fields ih =>
      have fresh : field.1 ∉ before.map Prod.fst := by
        rw [List.map_append, List.map_cons, List.nodup_append] at distinct
        intro there
        exact distinct.2.2 _ there _ List.mem_cons_self rfl
      rw [List.foldl_cons, last fresh, ih _ (by simpa using distinct), List.append_assoc, List.singleton_append]
  exact onward [] fields distinct

theorem scan_key (key rest : PyStr) : scan_field (quote key ++ 0x3a :: rest) = some (key, rest) := by
  have quoted : quote key ++ 0x3a :: rest = QUOTE :: (key.flatMap escape ++ QUOTE :: 0x3a :: rest) := by simp [quote]
  rw [quoted, scan_field, expect, if_pos rfl, Option.bind_some, scanstring_quoted]
  simp only [Option.bind_eq_bind, Option.bind_some]
  rw [skip_begins (by decide), expect, if_pos rfl]
  rfl

theorem skip_value {value : Json} (fits : Fits float_repr value) (rest : PyStr) : skip (dumps value ++ rest) = dumps value ++ rest := by
  obtain ⟨point, text, written, space, -⟩ := dumps_begins fits
  rw [written, List.cons_append, skip_begins space]

mutual

/-- What was written of a document is read back, whatever comes after it that is no part of a number. -/
theorem scan_dumps : (document : Json) → Fits float_repr document → (fuel : Nat) → 2 * (dumps document).length ≤ fuel + 1 →
    {rest : PyStr} → Stops rest → scan float_repr (fuel + 1) (dumps document ++ rest) = some (document, rest)
  | .null, _, fuel, _, _, _ => rfl
  | .bool true, _, fuel, _, _, _ => rfl
  | .bool false, _, fuel, _, _, _ => rfl
  | .int value, _, fuel, _, _, stops => by
    obtain ⟨numeric, read⟩ := @number_int float_repr value
    exact scan_numeric fuel numeric read stops
  | .float text, fits, fuel, _, _, stops => scan_written fuel fits stops
  | .string text, _, fuel, _, rest, _ => by
    have read := scanstring_quoted text rest
    have quoted : dumps (.string text) ++ rest = QUOTE :: (text.flatMap escape ++ QUOTE :: rest) := by
      simp [dumps, quote]
    rw [quoted, scan, if_pos rfl, read, Option.map_some]
  | .array [], _, fuel, _, rest, _ => rfl
  | .array (item :: items), fits, fuel, enough, rest, stops => by
    obtain ⟨point, text, written, space, close⟩ := items_begin fits (List.cons_ne_nil item items)
    have bracketed : dumps (.array (item :: items)) ++ rest = 0x5b :: (comma_join (dumps_items (item :: items)) ++ 0x5d :: rest) := by
      simp [dumps]
    have within : 2 * (comma_join (dumps_items (item :: items))).length + 3 ≤ fuel := by
      simp only [dumps, List.length_append, List.length_cons, List.length_nil] at enough
      omega
    obtain ⟨fuel, rfl⟩ := Nat.exists_eq_add_of_le' (Nat.le_trans (Nat.le_add_left 1 _) within)
    have read := scan_items_dumps (item :: items) fits (List.cons_ne_nil item items) fuel (by omega) rest
    rw [written] at read
    rw [bracketed, scan, if_neg (by decide), if_pos rfl, written, List.cons_append, skip_begins space, expect, if_neg close]
    rw [List.cons_append] at read
    rw [read]
    rfl
  | .object [], _, fuel, _, rest, _ => rfl
  | .object (field :: fields), fits, fuel, enough, rest, stops => by
    obtain ⟨text, written⟩ := fields_begin (List.cons_ne_nil field fields)
    have braced : dumps (.object (field :: fields)) ++ rest = 0x7b :: (comma_join (dumps_fields (field :: fields)) ++ 0x7d :: rest) := by
      simp [dumps]
    have within : 2 * (comma_join (dumps_fields (field :: fields))).length + 3 ≤ fuel := by
      simp only [dumps, List.length_append, List.length_cons, List.length_nil] at enough
      omega
    obtain ⟨fuel, rfl⟩ := Nat.exists_eq_add_of_le' (Nat.le_trans (Nat.le_add_left 1 _) within)
    have read := scan_fields_dumps (field :: fields) fits.2 (List.cons_ne_nil field fields) fuel (by omega) rest
    have kept : dict (field :: fields) = field :: fields := dict_distinct fits.1
    rw [written, List.cons_append] at read
    rw [braced, scan, if_neg (by decide), if_neg (by decide), if_pos rfl, written, List.cons_append, skip_begins (by decide), expect,
      if_neg (by decide), read]
    dsimp only
    rw [Option.map_some, kept]

theorem scan_items_dumps : (items : List Json) → FitItems float_repr items → items ≠ [] → (fuel : Nat) →
    2 * (comma_join (dumps_items items)).length ≤ fuel → (rest : PyStr) →
    scan_items float_repr (fuel + 1) (comma_join (dumps_items items) ++ 0x5d :: rest) = some (items, rest)
  | [], _, nonempty, _, _, _ => absurd rfl nonempty
  | [item], fits, _, fuel, enough, rest => by
    obtain ⟨point, text, written, -⟩ := dumps_begins fits.1
    have alone : comma_join (dumps_items [item]) = dumps item := rfl
    rw [alone] at enough ⊢
    have some_ : 2 ≤ fuel := by
      rw [written, List.length_cons] at enough
      omega
    obtain ⟨fuel, rfl⟩ := Nat.exists_eq_add_of_le' (Nat.le_trans (Nat.le_succ 1) some_)
    rw [scan_items, scan_dumps item fits.1 fuel enough (stops_at (by decide))]
    simp only [Option.bind_eq_bind, Option.bind_some, (@comma_or_close 0x5d (by decide) (by decide) rest).1, if_true]
    rfl
  | item :: second :: items, fits, _, fuel, enough, rest => by
    obtain ⟨point, text, written, -⟩ := dumps_begins fits.1
    obtain ⟨point', text', written', space, -⟩ := items_begin fits.2 (List.cons_ne_nil second items)
    have joined : comma_join (dumps_items (item :: second :: items)) = dumps item ++ COMMA :: comma_join (dumps_items (second :: items)) := by
      rw [dumps_items, join_cons _ (by simp [dumps_items])]
    rw [joined, List.length_append, List.length_cons] at enough
    have some_ : 2 ≤ fuel := by omega
    obtain ⟨fuel, rfl⟩ := Nat.exists_eq_add_of_le' (Nat.le_trans (Nat.le_succ 1) some_)
    have others := scan_items_dumps (second :: items) fits.2 (List.cons_ne_nil second items) fuel (by omega) rest
    rw [joined, List.append_assoc, List.cons_append, scan_items, scan_dumps item fits.1 fuel (by omega) (stops_at (by decide))]
    simp only [Option.bind_eq_bind, Option.bind_some, (@comma_or_close 0x5d (by decide) (by decide) _).2, Bool.false_eq_true,
      if_false]
    rw [written', List.cons_append] at others ⊢
    rw [skip_begins space, others]
    rfl

theorem scan_fields_dumps : (fields : List (PyStr × Json)) → FitFields float_repr fields → fields ≠ [] → (fuel : Nat) →
    2 * (comma_join (dumps_fields fields)).length ≤ fuel → (rest : PyStr) →
    scan_fields float_repr (fuel + 1) (comma_join (dumps_fields fields) ++ 0x7d :: rest) = some (fields, rest)
  | [], _, nonempty, _, _, _ => absurd rfl nonempty
  | [(key, value)], fits, _, fuel, enough, rest => by
    have alone : comma_join (dumps_fields [(key, value)]) = quote key ++ 0x3a :: dumps value := rfl
    rw [alone, List.length_append, List.length_cons] at enough
    have some_ : 2 ≤ fuel := by omega
    obtain ⟨fuel, rfl⟩ := Nat.exists_eq_add_of_le' (Nat.le_trans (Nat.le_succ 1) some_)
    rw [alone, List.append_assoc, List.cons_append, scan_fields, scan_key, Option.bind_eq_bind, Option.bind_some]
    have read := scan_dumps value fits.1 fuel (by omega) (@stops_at 0x7d rest (by decide))
    dsimp only
    rw [skip_value fits.1, read]
    simp only [Option.bind_eq_bind, Option.bind_some, (@comma_or_close 0x7d (by decide) (by decide) rest).1, if_true]
    rfl
  | (key, value) :: second :: fields, fits, _, fuel, enough, rest => by
    obtain ⟨text, written⟩ := fields_begin (List.cons_ne_nil second fields)
    have joined : comma_join (dumps_fields ((key, value) :: second :: fields)) =
        quote key ++ 0x3a :: (dumps value ++ COMMA :: comma_join (dumps_fields (second :: fields))) := by
      rw [dumps_fields, join_cons _ (by simp [dumps_fields]), List.append_assoc, List.cons_append]
    rw [joined, List.length_append, List.length_cons, List.length_append, List.length_cons] at enough
    have some_ : 2 ≤ fuel := by omega
    obtain ⟨fuel, rfl⟩ := Nat.exists_eq_add_of_le' (Nat.le_trans (Nat.le_succ 1) some_)
    have others := scan_fields_dumps (second :: fields) fits.2 (List.cons_ne_nil second fields) fuel (by omega) rest
    rw [joined, List.append_assoc, List.cons_append, List.append_assoc, List.cons_append, scan_fields, scan_key, Option.bind_eq_bind,
      Option.bind_some]
    have read := scan_dumps value fits.1 fuel (by omega) (@stops_at COMMA (comma_join (dumps_fields (second :: fields)) ++ 0x7d :: rest) (by decide))
    dsimp only
    rw [skip_value fits.1, read]
    simp only [Option.bind_eq_bind, Option.bind_some, (@comma_or_close 0x7d (by decide) (by decide) _).2, Bool.false_eq_true,
      if_false]
    rw [written, List.cons_append] at others ⊢
    rw [skip_begins (by decide), others]
    rfl

end

theorem loads_dumps {document : Json} (fits : Fits float_repr document) : loads float_repr (dumps document) = some document := by
  obtain ⟨point, text, written, space, -⟩ := dumps_begins fits
  have whole : skip (dumps document) = dumps document := by rw [written, skip_begins space]
  have read := @scan_dumps _ document fits (2 * (dumps document).length + 1) (by omega) [] (fun _ none => by cases none)
  rw [List.append_nil] at read
  rw [loads, whole, read]
  rfl

/-! ### What is read fits -/

/-- The text of a float that is read is the text that it is written as. -/
def Stable (float_repr : PyStr → PyStr) : Prop :=
  ∀ token text, number float_repr token = some (float text) → token.all isNumeric → Written float_repr text

theorem set_field_keys {α : Type} (key : PyStr) (value : α) (fields : List (PyStr × α)) :
    (set_field key value fields).map Prod.fst = fields.map Prod.fst ∨
      key ∉ fields.map Prod.fst ∧ (set_field key value fields).map Prod.fst = fields.map Prod.fst ++ [key] := by
  induction fields with
  | nil => exact .inr ⟨List.not_mem_nil, rfl⟩
  | cons field fields ih =>
    rw [set_field]
    split_ifs with same
    next => exact .inl (by rw [List.map_cons, List.map_cons, same])
    next =>
      refine ih.imp (fun kept => by rw [List.map_cons, List.map_cons, kept]) ?_
      rintro ⟨fresh, added⟩
      refine ⟨?_, by rw [List.map_cons, List.map_cons, added, List.cons_append]⟩
      rw [List.map_cons, List.mem_cons, not_or]
      exact ⟨Ne.symm same, fresh⟩

theorem set_field_distinct {α : Type} {key : PyStr} {value : α} {fields : List (PyStr × α)} (distinct : (fields.map Prod.fst).Nodup) :
    ((set_field key value fields).map Prod.fst).Nodup := by
  rcases set_field_keys key value fields with same | ⟨fresh, added⟩
  next => rwa [same]
  next =>
    rw [added]
    exact List.nodup_append.mpr ⟨distinct, List.nodup_singleton _, by
      intro other there last member
      rw [List.mem_singleton] at member
      exact fun same => fresh (member ▸ same ▸ there)⟩

theorem dict_keys {α : Type} (pairs : List (PyStr × α)) : ((dict pairs).map Prod.fst).Nodup := by
  have onward (before : List (PyStr × α)) (distinct : (before.map Prod.fst).Nodup) :
      ((pairs.foldl (fun fields pair => set_field pair.1 pair.2 fields) before).map Prod.fst).Nodup := by
    induction pairs generalizing before with
    | nil => exact distinct
    | cons pair pairs ih => exact ih _ (set_field_distinct distinct)
  exact onward [] List.nodup_nil

theorem set_field_member {α : Type} (key : PyStr) (value : α) (fields : List (PyStr × α)) : (key, value) ∈ set_field key value fields := by
  induction fields with
  | nil => exact List.mem_singleton_self _
  | cons field fields ih =>
    rw [set_field]
    split_ifs
    next => exact List.mem_cons_self
    next => exact List.mem_cons_of_mem _ ih

theorem lookup_set_field {α : Type} (key other : PyStr) (value : α) (fields : List (PyStr × α)) :
    (set_field key value fields).lookup other = if other = key then some value else fields.lookup other := by
  induction fields with
  | nil => by_cases same : other = key <;> simp [set_field, same]
  | cons field fields ih =>
    obtain ⟨name, held⟩ := field
    rw [set_field]
    by_cases here : name = key
    next =>
      subst here
      rw [if_pos rfl]
      by_cases same : other = name
      next => simp [same]
      next => simp [List.lookup_cons, beq_eq_false_iff_ne.mpr same, same]
    next =>
      rw [if_neg here, List.lookup_cons, List.lookup_cons, ih]
      by_cases same : other = name
      next =>
        subst same
        simp [here]
      next => simp [beq_eq_false_iff_ne.mpr same]

theorem lookup_distinct {α : Type} {fields : List (PyStr × α)} (distinct : (fields.map Prod.fst).Nodup) {key : PyStr} {value : α} :
    fields.lookup key = some value ↔ (key, value) ∈ fields := by
  induction fields with
  | nil => simp
  | cons field fields ih =>
    obtain ⟨name, held⟩ := field
    rw [List.map_cons, List.nodup_cons] at distinct
    rw [List.lookup_cons, List.mem_cons, Prod.mk.injEq]
    by_cases same : key = name
    next =>
      subst same
      have absent : (key, value) ∉ fields := fun member => distinct.1 (List.mem_map.mpr ⟨_, member, rfl⟩)
      simp [absent, eq_comm]
    next =>
      have other : (key == name) = false := beq_eq_false_iff_ne.mpr same
      rw [other]
      simp [same, ih distinct.2]

theorem set_field_fits {key : PyStr} {value : Json} {fields : List (PyStr × Json)} (fits : Fits float_repr value)
    (others : FitFields float_repr fields) : FitFields float_repr (set_field key value fields) := by
  induction fields with
  | nil => exact ⟨fits, trivial⟩
  | cons field fields ih =>
    rw [set_field]
    split_ifs
    next => exact ⟨fits, others.2⟩
    next => exact ⟨others.1, ih others.2⟩

theorem object_set {key : PyStr} {value : Json} {fields : List (PyStr × Json)} (fits : Fits float_repr value)
    (others : Fits float_repr (object fields)) : Fits float_repr (object (set_field key value fields)) :=
  ⟨set_field_distinct others.1, set_field_fits fits others.2⟩

theorem dict_fits {pairs : List (PyStr × Json)} (fits : FitFields float_repr pairs) : Fits float_repr (object (dict pairs)) := by
  have onward (before : List (PyStr × Json)) (fit : Fits float_repr (object before)) (pairs : List (PyStr × Json))
      (fits : FitFields float_repr pairs) :
      Fits float_repr (object (pairs.foldl (fun fields pair => set_field pair.1 pair.2 fields) before)) := by
    induction pairs generalizing before with
    | nil => exact fit
    | cons pair pairs ih => exact ih _ (object_set fits.1 fit) fits.2
  exact onward [] ⟨List.nodup_nil, trivial⟩ pairs fits

theorem scan_plain_fits (stable : Stable float_repr) {text rest : PyStr} {document : Json}
    (read : scan_plain float_repr text = some (document, rest)) : Fits float_repr document := by
  rw [scan_plain] at read
  cases word : WORDS.find? fun known => known.1.isPrefixOf text with
  | some known =>
    rw [word] at read
    obtain ⟨rfl, -⟩ := Prod.mk.inj (Option.some.inj read)
    have member := List.mem_of_find?_eq_some word
    simp only [WORDS, List.mem_cons, List.not_mem_nil, or_false] at member
    rcases member with rfl | rfl | rfl | rfl | rfl | rfl
    next => trivial
    next => trivial
    next => trivial
    all_goals exact .inr (by simp)
  | none =>
    rw [word] at read
    obtain ⟨value, number_, same⟩ := Option.map_eq_some_iff.mp read
    obtain ⟨rfl, -⟩ := Prod.mk.inj same
    have numeric : (text.takeWhile isNumeric).all isNumeric := List.all_takeWhile
    cases value with
    | float text => exact stable _ _ number_ numeric
    | int => trivial
    | null | bool | string | array | object =>
      rw [number] at number_
      split_ifs at number_ <;> simp at number_

/-- Whatever is read of a text fits. -/
theorem scan_fits (stable : Stable float_repr) (fuel : Nat) :
    (∀ text document rest, scan float_repr fuel text = some (document, rest) → Fits float_repr document) ∧
      (∀ text items rest, scan_items float_repr fuel text = some (items, rest) → FitItems float_repr items) ∧
        ∀ text fields rest, scan_fields float_repr fuel text = some (fields, rest) → FitFields float_repr fields := by
  induction fuel with
  | zero =>
    refine ⟨fun _ _ _ read => ?_, fun _ _ _ read => ?_, fun _ _ _ read => ?_⟩
    next => rw [scan] at read; cases read
    next => rw [scan_items] at read; cases read
    next => rw [scan_fields] at read; cases read
  | succ fuel ih =>
    obtain ⟨values, lists, objects⟩ := ih
    refine ⟨fun text document rest read => ?_, fun text items rest read => ?_, fun text fields rest read => ?_⟩
    next =>
      cases text with
      | nil => cases read
      | cons point text =>
        rw [scan] at read
        split_ifs at read
        next =>
          obtain ⟨result, -, same⟩ := Option.map_eq_some_iff.mp read
          obtain ⟨rfl, -⟩ := Prod.mk.inj same
          trivial
        next =>
          split at read
          next =>
            obtain ⟨rfl, -⟩ := Prod.mk.inj (Option.some.inj read)
            trivial
          next =>
            obtain ⟨⟨items, after⟩, found, same⟩ := Option.map_eq_some_iff.mp read
            obtain ⟨rfl, -⟩ := Prod.mk.inj same
            exact lists _ _ _ found
        next =>
          split at read
          next =>
            obtain ⟨rfl, -⟩ := Prod.mk.inj (Option.some.inj read)
            exact ⟨List.nodup_nil, trivial⟩
          next =>
            obtain ⟨⟨fields, after⟩, found, same⟩ := Option.map_eq_some_iff.mp read
            obtain ⟨rfl, -⟩ := Prod.mk.inj same
            exact dict_fits (objects _ _ _ found)
        next => exact scan_plain_fits stable read
    next =>
      rw [scan_items] at read
      obtain ⟨⟨item, after⟩, first, read⟩ := Option.bind_eq_some_iff.mp read
      obtain ⟨⟨closed, after⟩, -, read⟩ := Option.bind_eq_some_iff.mp read
      cases closed with
      | true =>
        obtain ⟨rfl, -⟩ := Prod.mk.inj (Option.some.inj read)
        exact ⟨values _ _ _ first, trivial⟩
      | false =>
        obtain ⟨⟨others, last⟩, later, read⟩ := Option.bind_eq_some_iff.mp read
        obtain ⟨rfl, -⟩ := Prod.mk.inj (Option.some.inj read)
        exact ⟨values _ _ _ first, lists _ _ _ later⟩
    next =>
      rw [scan_fields] at read
      obtain ⟨⟨key, after⟩, -, read⟩ := Option.bind_eq_some_iff.mp read
      obtain ⟨⟨value, after⟩, first, read⟩ := Option.bind_eq_some_iff.mp read
      obtain ⟨⟨closed, after⟩, -, read⟩ := Option.bind_eq_some_iff.mp read
      cases closed with
      | true =>
        obtain ⟨rfl, -⟩ := Prod.mk.inj (Option.some.inj read)
        exact ⟨values _ _ _ first, trivial⟩
      | false =>
        obtain ⟨⟨others, last⟩, later, read⟩ := Option.bind_eq_some_iff.mp read
        obtain ⟨rfl, -⟩ := Prod.mk.inj (Option.some.inj read)
        exact ⟨values _ _ _ first, objects _ _ _ later⟩

theorem loads_fits (stable : Stable float_repr) {text : PyStr} {document : Json} (read : loads float_repr text = some document) :
    Fits float_repr document := by
  rw [loads] at read
  obtain ⟨⟨found, rest⟩, scanned, read⟩ := Option.bind_eq_some_iff.mp read
  dsimp only at read
  split_ifs at read
  obtain rfl := Option.some.inj read
  exact (scan_fits stable _).1 _ _ _ scanned

end Reading

end Json
