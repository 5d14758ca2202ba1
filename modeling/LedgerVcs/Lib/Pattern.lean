import LedgerVcs.Lib.Text

set_option autoImplicit false

/-!
# Regular expressions of fixed shape

Sequences of literals and of bounded runs of a character class, as `re.match` takes them: from the start of the text,
and, where the pattern ends in `$`, up to its end or up to a line feed that ends it.
-/

namespace Text

inductive Piece
  /-- One of several literals. -/
  | text (literals : List PyStr)
  /-- `[...]{low,high}` -/
  | run (has : CodePoint → Bool) (low high : Nat)

abbrev Pattern := List Piece

namespace Piece

/-- The piece matches the whole text. -/
def Matches : Piece → PyStr → Prop
  | text literals, whole => whole ∈ literals
  | run has low high, whole => low ≤ whole.length ∧ whole.length ≤ high ∧ ∀ point ∈ whole, has point

instance : (piece : Piece) → (whole : PyStr) → Decidable (piece.Matches whole)
  | text literals, whole => inferInstanceAs (Decidable (whole ∈ literals))
  | run has low high, whole =>
    decidable_of_iff (low ≤ whole.length ∧ whole.length ≤ high ∧ whole.all has = true) (by rw [List.all_eq_true]; rfl)

end Piece

namespace Pattern

/-- The pattern matches the whole text. -/
def Matches : Pattern → PyStr → Prop
  | [], whole => whole = []
  | piece :: pattern, whole => ∃ first rest, whole = first ++ rest ∧ piece.Matches first ∧ Matches pattern rest

/-- What can be left of a text after the pattern. -/
def ends : Pattern → PyStr → List PyStr
  | [], whole => [whole]
  | piece :: pattern, whole =>
    ((List.range (whole.length + 1)).filter fun count => piece.Matches (whole.take count)).flatMap fun count =>
      ends pattern (whole.drop count)

/-- `re.match` with a pattern that ends in `$` -/
def matchLine (pattern : Pattern) (whole : PyStr) : Bool :=
  (ends pattern whole).any fun rest => rest = [] ∨ rest = [0x0a]

theorem mem_ends {pattern : Pattern} {whole rest : PyStr} :
    rest ∈ ends pattern whole ↔ ∃ line, whole = line ++ rest ∧ Matches pattern line := by
  induction pattern generalizing whole with
  | nil => simp [ends, Matches, eq_comm]
  | cons piece pattern ih =>
    simp only [ends, List.mem_flatMap, List.mem_filter, List.mem_range, decide_eq_true_eq, ih]
    constructor
    next =>
      rintro ⟨count, ⟨-, fits⟩, line, left, others⟩
      refine ⟨whole.take count ++ line, ?_, whole.take count, line, rfl, fits, others⟩
      rw [List.append_assoc, ← left, List.take_append_drop]
    next =>
      rintro ⟨_, rfl, first, line, rfl, fits, others⟩
      refine ⟨first.length, ⟨?_, ?_⟩, line, ?_, others⟩
      next =>
        simp only [List.length_append]
        omega
      next => rwa [List.append_assoc, List.take_left]
      next => rw [List.append_assoc, List.drop_left]

theorem matchLine_iff {pattern : Pattern} {whole : PyStr} :
    matchLine pattern whole = true ↔ Matches pattern whole ∨ ∃ line, whole = line ++ [0x0a] ∧ Matches pattern line := by
  simp only [matchLine, List.any_eq_true, decide_eq_true_eq, mem_ends]
  constructor
  next =>
    rintro ⟨rest, ⟨line, rfl, fits⟩, rfl | rfl⟩
    next => exact .inl (by rwa [List.append_nil])
    next => exact .inr ⟨line, rfl, fits⟩
  next =>
    rintro (fits | ⟨line, rfl, fits⟩)
    next => exact ⟨[], ⟨whole, by rw [List.append_nil], fits⟩, .inl rfl⟩
    next => exact ⟨[0x0a], ⟨line, rfl, fits⟩, .inr rfl⟩

/-- A property of all characters that a pattern can match. -/
theorem matches_forall {p : CodePoint → Prop} {pattern : Pattern}
    (pieces : ∀ piece ∈ pattern, ∀ first, piece.Matches first → ∀ point ∈ first, p point) {whole : PyStr} (fits : Matches pattern whole) :
    ∀ point ∈ whole, p point := by
  induction pattern generalizing whole with
  | nil =>
    rw [show whole = [] from fits]
    exact fun _ impossible => by cases impossible
  | cons piece pattern ih =>
    obtain ⟨first, rest, rfl, here, others⟩ := fits
    obtain ⟨mine, theirs⟩ := List.forall_mem_cons.mp pieces
    intro point member
    rcases List.mem_append.mp member with before | after
    next => exact mine first here point before
    next => exact ih theirs others point after

end Pattern

end Text
