import LedgerVcs.Lib.Fnmatch
import Mathlib.Data.List.TakeWhile

set_option autoImplicit false

/-!
# SQLite's GLOB

`*`, `?`, `[...]` and `[^...]`; what is not closed matches nothing. Both the pattern and the text are C strings, which
end at their first NUL.
-/

namespace Text

/-- What comes before the first NUL. -/
def c_string (text : PyStr) : PyStr := text.takeWhile fun point => point ≠ 0

/-- What is listed up to the closing bracket, and what follows it; the character before a hyphen starts a range. -/
def glob_items : Option CodePoint → PyStr → Option (List ClassItem × PyStr)
  | _, [] => none
  | _, [point] => if point = 0x5d then some ([], []) else none
  | prior, point :: next :: rest =>
    if point = 0x5d then some ([], next :: rest)
    else
      match prior with
      | some low =>
        if point = 0x2d ∧ next ≠ 0x5d then (glob_items none rest).map fun (items, after) => (.range low next :: items, after)
        else (glob_items (some point) (next :: rest)).map fun (items, after) => (.one point :: items, after)
      | none => (glob_items (some point) (next :: rest)).map fun (items, after) => (.one point :: items, after)

/-- A closing bracket that comes first is listed. -/
def glob_listed : PyStr → Option (List ClassItem × PyStr)
  | 0x5d :: rest => (glob_items none rest).map fun (items, after) => (.one 0x5d :: items, after)
  | rest => glob_items none rest

def glob_class : PyStr → Option (Token × PyStr)
  | 0x5e :: rest => (glob_listed rest).map fun (items, after) => (.set true items, after)
  | rest => (glob_listed rest).map fun (items, after) => (.set false items, after)

/-- The pattern has at most as many tokens as the first argument allows for. -/
def glob_tokens : Nat → PyStr → List Token
  | 0, _ => []
  | _, [] => []
  | count + 1, point :: rest =>
    if point = 0x2a then .star :: glob_tokens count rest
    else if point = 0x3f then .any :: glob_tokens count rest
    else if point = 0x5b then
      match glob_class rest with
      | none => [.set false []]
      | some (token, after) => token :: glob_tokens count after
    else .set false [.one point] :: glob_tokens count rest

/-- `text GLOB pattern` -/
def glob (pattern text : PyStr) : Bool :=
  matches_tokens (glob_tokens (c_string pattern).length (c_string pattern)) (c_string text)

example : glob (lit "ref#[^a-m]*") (lit "ref#next") = true := by decide

/-- `text.replace(old, new)` for one character -/
def replace (old : CodePoint) (new text : PyStr) : PyStr := text.flatMap fun point => if point = old then new else [point]

/-- `_glob_escape` -/
def glob_escape (value : PyStr) : PyStr :=
  replace 0x3f (lit "[?]") (replace 0x2a (lit "[*]") (replace 0x5b (lit "[[]") value))

theorem escape_nil : glob_escape [] = [] := rfl

theorem escape_special {point : CodePoint} (special : point ∈ ([0x5b, 0x2a, 0x3f] : PyStr)) (value : PyStr) :
    glob_escape (point :: value) = 0x5b :: point :: 0x5d :: glob_escape value := by
  simp only [List.mem_cons, List.not_mem_nil, or_false] at special
  rcases special with rfl | rfl | rfl <;> rfl

theorem escape_plain {point : CodePoint} (plain : point ∉ ([0x5b, 0x2a, 0x3f] : PyStr)) (value : PyStr) :
    glob_escape (point :: value) = point :: glob_escape value := by
  simp only [List.mem_cons, List.not_mem_nil, or_false, not_or] at plain
  simp [glob_escape, replace, plain]

theorem class_special {point : CodePoint} (special : point ∈ ([0x5b, 0x2a, 0x3f] : PyStr)) (rest : PyStr) :
    glob_class (point :: 0x5d :: rest) = some (.set false [.one point], rest) := by
  simp only [List.mem_cons, List.not_mem_nil, or_false] at special
  rcases special with rfl | rfl | rfl <;> cases rest <;> rfl

/-- An escaped text is read as its own characters. -/
theorem tokens_escape (value : PyStr) {count : Nat} (enough : (glob_escape value).length < count) :
    glob_tokens count (glob_escape value ++ [0x2a]) = value.map (fun point => .set false [.one point]) ++ [.star] := by
  induction value generalizing count with
  | nil =>
    obtain ⟨count, rfl⟩ := Nat.exists_eq_succ_of_ne_zero (Nat.ne_zero_of_lt enough)
    cases count <;> rfl
  | cons point value ih =>
    obtain ⟨count, rfl⟩ := Nat.exists_eq_succ_of_ne_zero (Nat.ne_zero_of_lt enough)
    by_cases special : point ∈ ([0x5b, 0x2a, 0x3f] : PyStr)
    next =>
      rw [escape_special special] at enough ⊢
      rw [List.cons_append, List.cons_append, List.cons_append, glob_tokens, if_neg (by decide), if_neg (by decide),
        if_pos rfl, class_special special]
      simp only [List.length_cons] at enough
      have rest : glob_tokens count (glob_escape value ++ [0x2a]) = _ := ih (by omega)
      simp only [rest, List.map_cons, List.cons_append]
    next =>
      rw [escape_plain special] at enough ⊢
      simp only [List.mem_cons, List.not_mem_nil, or_false, not_or] at special
      rw [List.cons_append, glob_tokens, if_neg special.2.1, if_neg special.2.2, if_neg special.1]
      simp only [List.length_cons] at enough
      have rest : glob_tokens count (glob_escape value ++ [0x2a]) = _ := ih (by omega)
      simp only [rest, List.map_cons, List.cons_append]

theorem matches_literal (value text : PyStr) :
    matches_tokens (value.map (fun point => .set false [.one point]) ++ [.star]) text = true ↔ value <+: text := by
  induction value generalizing text with
  | nil =>
    refine ⟨fun _ => List.nil_prefix, fun _ => ?_⟩
    exact List.any_eq_true.mpr ⟨[], (List.mem_tails _ _).mpr List.nil_suffix, rfl⟩
  | cons point value ih =>
    cases text with
    | nil => simp [matches_tokens]
    | cons first text =>
      rw [List.cons_prefix_cons, ← ih text, List.map_cons, List.cons_append, matches_tokens, Bool.and_eq_true]
      refine and_congr_left fun _ => ?_
      rw [List.any_cons, List.any_nil, Bool.or_false, Bool.bne_false, ClassItem.has, decide_eq_true_eq]
      exact eq_comm

theorem escape_members {value : PyStr} (clear : (0 : CodePoint) ∉ value) : (0 : CodePoint) ∉ glob_escape value := by
  induction value with
  | nil => exact clear
  | cons point value ih =>
    have first : 0 ≠ point := List.ne_of_not_mem_cons clear
    have rest := ih (List.not_mem_of_not_mem_cons clear)
    by_cases special : point ∈ ([0x5b, 0x2a, 0x3f] : PyStr)
    next =>
      rw [escape_special special]
      simp [first, rest]
    next =>
      rw [escape_plain special]
      simp [first, rest]

theorem clear_kept {text : PyStr} (clear : (0 : CodePoint) ∉ text) : ∀ point ∈ text, decide (point ≠ 0) = true := by
  rintro point member
  refine decide_eq_true ?_
  rintro rfl
  exact clear member

theorem c_string_clear {text : PyStr} (clear : (0 : CodePoint) ∉ text) : c_string text = text :=
  List.takeWhile_eq_self_iff.mpr (clear_kept clear)

theorem prefix_c_string {value text : PyStr} (clear : (0 : CodePoint) ∉ value) : value <+: c_string text ↔ value <+: text := by
  refine ⟨fun start => start.trans (List.takeWhile_prefix _), ?_⟩
  rintro ⟨rest, rfl⟩
  rw [c_string, List.takeWhile_append_of_pos (clear_kept clear)]
  exact List.prefix_append value _

/-- A text's escaped form and a star match what the text begins. -/
theorem glob_begins {value : PyStr} (clear : (0 : CodePoint) ∉ value) (text : PyStr) :
    glob (glob_escape value ++ lit "*") text = true ↔ value <+: text := by
  have whole : c_string (glob_escape value ++ lit "*") = glob_escape value ++ [0x2a] :=
    c_string_clear fun member => (List.mem_append.mp member).elim (escape_members clear) (by decide)
  rw [glob, whole, tokens_escape value (by simp), matches_literal, prefix_c_string clear]

end Text
