import LedgerVcs.Lib.Numeral
import Mathlib.Data.List.TakeWhile

set_option autoImplicit false

/-!
# What a program printed

`subprocess.run(text=True)` decodes it and makes each kind of line end a line feed; `splitlines` cuts it at more
characters than that, and `split` at every kind of space.
-/

namespace Text

def universal_newlines : PyStr → PyStr
  | [] => []
  | [point] => [if point = 0x0d then 0x0a else point]
  | point :: next :: rest =>
    if point = 0x0d then
      if next = 0x0a then 0x0a :: universal_newlines rest else 0x0a :: universal_newlines (next :: rest)
    else point :: universal_newlines (next :: rest)

/-- The output as text, where it is UTF-8. -/
def printed (stdout : Bytes) : Option PyStr := (decodeUtf8 stdout).map universal_newlines

def isLineBreak (point : CodePoint) : Bool :=
  point ∈ ([0x0a, 0x0b, 0x0c, 0x0d, 0x1c, 0x1d, 0x1e, 0x85, 0x2028, 0x2029] : PyStr)

def lines_from : (line : PyStr) → PyStr → List PyStr
  | line, [] => if line = [] then [] else [line]
  | line, [point] => if isLineBreak point then [line] else [line ++ [point]]
  | line, point :: next :: rest =>
    if isLineBreak point then
      if point = 0x0d ∧ next = 0x0a then line :: lines_from [] rest else line :: lines_from [] (next :: rest)
    else lines_from (line ++ [point]) (next :: rest)

def splitlines (text : PyStr) : List PyStr := lines_from [] text

def words_from : (word : PyStr) → PyStr → List PyStr
  | word, [] => if word = [] then [] else [word]
  | word, point :: rest =>
    if isWhite point then (if word = [] then [] else [word]) ++ words_from [] rest else words_from (word ++ [point]) rest

def split (text : PyStr) : List PyStr := words_from [] text

/-- `text.lstrip(character)` -/
def lstrip (character : CodePoint) (text : PyStr) : PyStr := text.dropWhile fun point => point = character

/-! ## ASCII -/

/-- The characters of ASCII bytes. -/
def points (bytes : Bytes) : PyStr := bytes.map fun byte => Fin.ofNat _ byte.toNat

def Ascii (bytes : Bytes) : Prop := ∀ byte ∈ bytes, byte.toNat < 0x80

theorem decode_ascii {bytes : Bytes} (ascii : Ascii bytes) : decodeUtf8 bytes = some (points bytes) := by
  have single : ∀ code : Fin 0x80, String.utf8EncodeChar (Char.ofNat code) = [UInt8.ofNat code] ∧
      ofChar (Char.ofNat code) = Fin.ofNat 0x110000 code.val := by decide
  refine decodeUtf8_eq_some.mpr (encodeUtf8_eq_some.mpr ⟨bytes.map fun byte => Char.ofNat byte.toNat, ?_, ?_⟩)
  next =>
    rw [List.map_map, points]
    exact List.map_congr_left fun byte member => (single ⟨byte.toNat, ascii byte member⟩).2.symm
  next =>
    have each : ∀ byte ∈ bytes, String.utf8EncodeChar (Char.ofNat byte.toNat) = [byte] := fun byte member =>
      (single ⟨byte.toNat, ascii byte member⟩).1.trans (by rw [UInt8.ofNat_toNat])
    rw [List.flatMap_map, List.flatMap_congr each, List.flatMap_singleton']

theorem newlines_plain {text : PyStr} (plain : 0x0d ∉ text) : universal_newlines text = text := by
  induction text using universal_newlines.induct with
  | case1 => rfl
  | case2 point =>
    have other : point ≠ 0x0d := fun same => plain (same ▸ List.mem_cons_self)
    rw [universal_newlines, if_neg other]
  | case3 => exact absurd List.mem_cons_self plain
  | case4 => exact absurd List.mem_cons_self plain
  | case5 point next rest other ih => rw [universal_newlines, if_neg other, ih (List.not_mem_of_not_mem_cons plain)]

/-- A line that is ended is the first. -/
theorem lines_line {line : PyStr} (clear : ∀ point ∈ line, isLineBreak point = false) (start rest : PyStr) :
    lines_from start (line ++ 0x0a :: rest) = (start ++ line) :: lines_from [] rest := by
  induction line generalizing start with
  | nil => cases rest <;> simp [lines_from, isLineBreak]
  | cons point line ih =>
    obtain ⟨here, others⟩ := List.forall_mem_cons.mp clear
    have step : lines_from start (point :: (line ++ 0x0a :: rest)) = lines_from (start ++ [point]) (line ++ 0x0a :: rest) := by
      cases line <;> simp [lines_from, here]
    rw [List.cons_append, step, ih others, List.append_assoc, List.singleton_append]

theorem lines_lines {lines : List PyStr} (clear : ∀ line ∈ lines, ∀ point ∈ line, isLineBreak point = false) :
    splitlines (lines.flatMap fun line => line ++ [0x0a]) = lines := by
  induction lines with
  | nil => rfl
  | cons line lines ih =>
    obtain ⟨here, others⟩ := List.forall_mem_cons.mp clear
    rw [List.flatMap_cons, List.append_assoc, List.singleton_append, splitlines, lines_line here, List.nil_append]
    exact congrArg _ (ih others)

theorem words_word {word : PyStr} (clear : ∀ point ∈ word, isWhite point = false) (start rest : PyStr) :
    words_from start (word ++ rest) = words_from (start ++ word) rest := by
  induction word generalizing start with
  | nil => rw [List.nil_append, List.append_nil]
  | cons point word ih =>
    obtain ⟨here, others⟩ := List.forall_mem_cons.mp clear
    rw [List.cons_append, words_from, here, if_neg Bool.false_ne_true, ih others, List.append_assoc, List.singleton_append]

/-- Words with one space after each but the last. -/
theorem split_words {first second third : PyStr} (words : ∀ word ∈ [first, second, third], word ≠ [] ∧ ∀ point ∈ word, isWhite point = false) :
    split (first ++ 0x20 :: (second ++ 0x20 :: third)) = [first, second, third] := by
  simp only [List.mem_cons, List.not_mem_nil, or_false, forall_eq_or_imp, forall_eq] at words
  obtain ⟨⟨some_first, first_clear⟩, ⟨some_second, second_clear⟩, some_third, third_clear⟩ := words
  have space : isWhite 0x20 = true := by decide
  have last : words_from [] third = [third] := by
    have ended := words_word third_clear [] []
    rwa [List.append_nil, List.nil_append, words_from, if_neg some_third] at ended
  rw [split, words_word first_clear, words_from, if_pos space, words_word second_clear, words_from, if_pos space, last,
    List.nil_append, List.nil_append, if_neg some_first, if_neg some_second]
  rfl

end Text
