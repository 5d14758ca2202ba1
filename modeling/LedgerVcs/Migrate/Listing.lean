import LedgerVcs.Format.Codec
import LedgerVcs.Lib.Lines

set_option autoImplicit false

/-! What git prints of a tree, and what is read from it. -/

namespace LedgerVcs

open Wire (Bytes)
open Text (PyStr CodePoint lit points Ascii)

/-! ## Git's trees -/

inductive GitMode
  | regular
  | executable
  | symlink
  | directory
  | submodule
deriving DecidableEq, Repr

namespace GitMode

def octal : GitMode → PyStr
  | regular => lit "100644"
  | executable => lit "100755"
  | symlink => lit "120000"
  | directory => lit "40000"
  | submodule => lit "160000"

/-- `%06o` -/
def printed : GitMode → PyStr
  | directory => lit "040000"
  | mode => mode.octal

/-- The type of what the entry names. -/
def kind : GitMode → PyStr
  | directory => lit "tree"
  | submodule => lit "commit"
  | _ => lit "blob"

end GitMode

/-- An entry of a tree object, with any name that git permits. -/
structure GitEntry where
  mode : GitMode
  id : Bytes
  name : Bytes
  sized : id.length = 20 ∨ id.length = 32
  named : name ≠ [] ∧ 0x2f ∉ name ∧ 0 ∉ name
deriving DecidableEq

/-! ## `git ls-tree` -/

/-- Control characters, quotes, backslashes and what is not ASCII. -/
def must_quote (byte : UInt8) : Bool := byte < 0x20 ∨ byte = 0x22 ∨ byte = 0x5c ∨ 0x7f ≤ byte

def Quoted (name : Bytes) : Prop := ∃ byte ∈ name, must_quote byte = true

instance (name : Bytes) : Decidable (Quoted name) := inferInstanceAs (Decidable (∃ byte ∈ name, _))

def quote_byte (byte : UInt8) : Bytes :=
  if must_quote byte then
    0x5c ::
      if byte = 0x07 then [0x61]
      else if byte = 0x08 then [0x62]
      else if byte = 0x09 then [0x74]
      else if byte = 0x0a then [0x6e]
      else if byte = 0x0b then [0x76]
      else if byte = 0x0c then [0x66]
      else if byte = 0x0d then [0x72]
      else if byte = 0x22 ∨ byte = 0x5c then [byte]
      else [0x30 + byte / 64, 0x30 + byte / 8 % 8, 0x30 + byte % 8]
  else [byte]

/-- The name between quotes, with escapes, where it has a character that asks for them. -/
def c_quote (name : Bytes) : Bytes := if Quoted name then 0x22 :: (name.flatMap quote_byte ++ [0x22]) else name

def ascii (text : PyStr) : Bytes := text.map fun point => UInt8.ofNat point.val

def ls_tree_line (entry : GitEntry) : Bytes :=
  ascii (entry.mode.printed ++ 0x20 :: (entry.mode.kind ++ 0x20 :: Text.hex entry.id)) ++ 0x09 :: c_quote entry.name

def ls_tree (entries : List GitEntry) : Bytes := entries.flatMap fun entry => ls_tree_line entry ++ [0x0a]

/-! ## `_GitRepository.list_tree` -/

structure TreeItem where
  mode : PyStr
  kind : PyStr
  sha : PyStr
  name : PyStr
deriving DecidableEq

def parse_line (line : PyStr) : Except PyError TreeItem :=
  let (fields, name) := Text.partition 0x09 line
  match Text.split fields with
  | [mode, kind, sha] => .ok ⟨Text.lstrip 0x30 mode, kind, sha, name⟩
  | [] | [_] | [_, _] => .error (.valueError "not enough values to unpack")
  | _ => .error (.valueError "too many values to unpack")

def GIT_EMPTY_TREE : PyStr := lit "4b825dc642cb6eb9a060e54bf8d69288fbee4904"

/-- The items of the tree, from what `git ls-tree` prints of it. -/
def list_tree (sha : PyStr) (run : Except PyError Bytes) : Except PyError (List TreeItem) := do
  if sha = GIT_EMPTY_TREE then return []
  else
    match Text.printed (← run) with
    | none => throw (.valueError "output is not UTF-8")
    | some text => (Text.splitlines text).mapM parse_line

/-- `item.name.encode()` -/
def encode_name (name : PyStr) : Except PyError Bytes :=
  match Text.encodeUtf8 name with
  | some bytes => .ok bytes
  | none => .error (.valueError "surrogates not allowed")

/-- What is read of an entry. -/
def listed_item (entry : GitEntry) : TreeItem := ⟨entry.mode.octal, entry.mode.kind, Text.hex entry.id, points (c_quote entry.name)⟩

/-- Between a space and a tilde. -/
def Printable (bytes : Bytes) : Prop := ∀ byte ∈ bytes, 0x20 ≤ byte.toNat ∧ byte.toNat < 0x7f

theorem quote_printable (byte : UInt8) : Printable (quote_byte byte) := by
  have every : ∀ code : Fin 256, (quote_byte (UInt8.ofNat code.val)).all fun byte => 0x20 ≤ byte.toNat ∧ byte.toNat < 0x7f := by
    decide +kernel
  have here := every ⟨byte.toNat, byte.toNat_lt⟩
  rw [UInt8.ofNat_toNat, List.all_eq_true] at here
  exact fun point member => of_decide_eq_true (here point member)

theorem plain_printable {byte : UInt8} (plain : must_quote byte = false) : 0x20 ≤ byte.toNat ∧ byte.toNat < 0x7f := by
  have here := quote_printable byte byte
  rw [quote_byte, plain] at here
  exact here List.mem_cons_self

theorem c_quote_printable (name : Bytes) : Printable (c_quote name) := by
  rw [c_quote]
  split
  next =>
    intro byte member
    rcases List.mem_cons.mp member with rfl | member
    next => decide
    next =>
      rcases List.mem_append.mp member with inside | last
      next =>
        obtain ⟨raw, -, there⟩ := List.mem_flatMap.mp inside
        exact quote_printable raw byte there
      next =>
        rw [List.mem_singleton.mp last]
        decide
  next plain =>
    intro byte member
    exact plain_printable (Bool.eq_false_iff.mpr fun quoted => plain ⟨byte, member, quoted⟩)

/-- What comes before the tab. -/
def fields (entry : GitEntry) : PyStr := entry.mode.printed ++ 0x20 :: (entry.mode.kind ++ 0x20 :: Text.hex entry.id)

theorem hex_small {bytes : Bytes} : ∀ point ∈ Text.hex bytes, 0x30 ≤ point.val ∧ point.val < 0x7f := by
  intro point member
  have lower := Text.hex_lower bytes point member
  simp only [Text.isLowerHex, decide_eq_true_eq] at lower
  omega

/-- The words of a line. -/
theorem field_words (entry : GitEntry) : ∀ word ∈ [entry.mode.printed, entry.mode.kind, Text.hex entry.id],
    word ≠ [] ∧ ∀ point ∈ word, 0x30 ≤ point.val ∧ point.val < 0x7f := by
  have modes (mode : GitMode) : ∀ word ∈ [mode.printed, mode.kind], word ≠ [] ∧ ∀ point ∈ word, 0x30 ≤ point.val ∧ point.val < 0x7f := by
    have each : ∀ word ∈ [mode.printed, mode.kind], word ≠ [] ∧ word.all fun point => 0x30 ≤ point.val ∧ point.val < 0x7f := by
      cases mode <;> decide
    exact fun word member => ⟨(each word member).1, fun point there => of_decide_eq_true (List.all_eq_true.mp (each word member).2 point there)⟩
  intro word member
  rcases List.mem_cons.mp member with rfl | member
  next => exact modes entry.mode _ List.mem_cons_self
  next =>
    rcases List.mem_cons.mp member with rfl | member
    next => exact modes entry.mode _ (List.mem_cons_of_mem _ List.mem_cons_self)
    next =>
      rw [List.mem_singleton.mp member]
      refine ⟨fun none => ?_, hex_small⟩
      have length := congrArg List.length none
      rw [Text.length_hex, List.length_nil] at length
      have sized := entry.sized
      omega

theorem fields_small (entry : GitEntry) : ∀ point ∈ fields entry, 0x20 ≤ point.val ∧ point.val < 0x7f := by
  have words := field_words entry
  simp only [List.mem_cons, List.not_mem_nil, or_false, forall_eq_or_imp, forall_eq] at words
  obtain ⟨⟨-, mode⟩, ⟨-, kind⟩, -, id⟩ := words
  intro point member
  rw [fields, List.mem_append, List.mem_cons, List.mem_append, List.mem_cons] at member
  rcases member with there | rfl | there | rfl | there
  next => have := mode point there; omega
  next => decide
  next => have := kind point there; omega
  next => decide
  next => have := id point there; omega

theorem points_ascii {text : PyStr} (small : ∀ point ∈ text, 0x20 ≤ point.val ∧ point.val < 0x7f) : points (ascii text) = text := by
  rw [points, ascii, List.map_map]
  refine (List.map_congr_left fun point member => ?_).trans (List.map_id _)
  have bound := (small point member).2
  refine Fin.ext ?_
  change point.val % 256 % 0x110000 = point.val
  omega

theorem points_printable {bytes : Bytes} (printable : Printable bytes) : ∀ point ∈ points bytes, 0x20 ≤ point.val ∧ point.val < 0x7f := by
  intro point member
  obtain ⟨byte, there, rfl⟩ := List.mem_map.mp member
  have bound := printable byte there
  change 0x20 ≤ byte.toNat % 0x110000 ∧ byte.toNat % 0x110000 < 0x7f
  omega

/-- A line, as text. -/
theorem line_points (entry : GitEntry) : points (ls_tree_line entry) = fields entry ++ 0x09 :: points (c_quote entry.name) := by
  have fields_ascii := points_ascii (fields_small entry)
  rw [points] at fields_ascii ⊢
  rw [ls_tree_line, List.map_append, List.map_cons]
  exact congrArg (· ++ 0x09 :: points (c_quote entry.name)) fields_ascii

theorem line_clear (entry : GitEntry) : ∀ point ∈ points (ls_tree_line entry), point.val < 0x7f ∧ Text.isLineBreak point = false := by
  have inner (point : CodePoint) (small : 0x20 ≤ point.val ∧ point.val < 0x7f) : point.val < 0x7f ∧ Text.isLineBreak point = false := by
    refine ⟨small.2, ?_⟩
    simp only [Text.isLineBreak, decide_eq_false_iff_not, List.mem_cons, List.not_mem_nil, or_false, not_or, Fin.ext_iff]
    norm_num
    omega
  intro point member
  rw [line_points] at member
  rcases List.mem_append.mp member with there | there
  next => exact inner point (fields_small entry point there)
  next =>
    rcases List.mem_cons.mp there with rfl | there
    next => decide
    next => exact inner point (points_printable (c_quote_printable entry.name) point there)

theorem parse_line_listed (entry : GitEntry) : parse_line (points (ls_tree_line entry)) = .ok (listed_item entry) := by
  have tab : (0x09 : CodePoint) ∉ fields entry := fun member => absurd (fields_small entry _ member).1 (by decide)
  have words : Text.split (fields entry) = [entry.mode.printed, entry.mode.kind, Text.hex entry.id] := by
    refine Text.split_words fun word member => ?_
    obtain ⟨some, small⟩ := field_words entry word member
    refine ⟨some, fun point there => ?_⟩
    have bound := small point there
    simp only [Text.isWhite, decide_eq_false_iff_not, List.mem_cons, List.not_mem_nil, or_false, not_or]
    omega
  have stripped : Text.lstrip 0x30 entry.mode.printed = entry.mode.octal := by
    cases entry.mode <;> decide
  rw [parse_line, line_points, Text.partition_append _ tab]
  simp only [words]
  exact congrArg (fun mode => Except.ok (⟨mode, _, _, _⟩ : TreeItem)) stripped

/-- One item for each entry. -/
theorem list_tree_listed {sha : PyStr} {entries : List GitEntry} (empty : sha = GIT_EMPTY_TREE → entries = []) :
    list_tree sha (.ok (ls_tree entries)) = .ok (entries.map listed_item) := by
  rw [list_tree]
  split
  next same => rw [empty same]; rfl
  next =>
    have text : points (ls_tree entries) = (entries.map fun entry => points (ls_tree_line entry)).flatMap fun line => line ++ [0x0a] := by
      rw [points, ls_tree, List.map_flatMap, List.flatMap_map]
      refine List.flatMap_congr fun entry _ => ?_
      rw [List.map_append]
      rfl
    have small : ∀ point ∈ points (ls_tree entries), point.val < 0x7f ∧ point ≠ 0x0d := by
      intro point member
      rw [text] at member
      obtain ⟨_, there, inside⟩ := List.mem_flatMap.mp member
      obtain ⟨entry, -, rfl⟩ := List.mem_map.mp there
      rcases List.mem_append.mp inside with inside | ended
      next =>
        obtain ⟨bound, clear⟩ := line_clear entry point inside
        refine ⟨bound, ?_⟩
        rintro rfl
        cases clear
      next =>
        rw [List.mem_singleton.mp ended]
        decide
    have ascii : Ascii (ls_tree entries) := by
      intro byte member
      have bound : byte.toNat % 0x110000 < 0x7f := (small _ (List.mem_map_of_mem member)).1
      have range := byte.toNat_lt
      omega
    have lines : ∀ line ∈ entries.map fun entry => points (ls_tree_line entry), ∀ point ∈ line, Text.isLineBreak point = false := by
      intro line member
      obtain ⟨entry, -, rfl⟩ := List.mem_map.mp member
      exact fun point there => (line_clear entry point there).2
    have output : Text.printed (ls_tree entries) = some (points (ls_tree entries)) := by
      rw [Text.printed, Text.decode_ascii ascii, Option.map_some, Text.newlines_plain fun feed => (small _ feed).2 rfl]
    refine Monads.except_bind_ok.mpr ⟨_, rfl, ?_⟩
    simp only [output, text, Text.lines_lines lines]
    clear text small ascii lines output empty
    induction entries with
    | nil => rfl
    | cons entry entries ih =>
      rw [List.map_cons, List.mapM_cons, parse_line_listed, ih]
      rfl

/-! ## And the names are those of git -/

theorem printable_ascii {bytes : Bytes} (printable : Printable bytes) : Ascii bytes := fun byte member =>
  (printable byte member).2.trans (by decide)

theorem listed_name (entry : GitEntry) : Text.encodeUtf8 (listed_item entry).name = some (c_quote entry.name) :=
  Text.decodeUtf8_eq_some.mp (Text.decode_ascii (printable_ascii (c_quote_printable entry.name)))

end LedgerVcs
