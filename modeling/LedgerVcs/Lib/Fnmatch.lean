import LedgerVcs.Lib.Text

set_option autoImplicit false

/-!
# Shell patterns

`fnmatch.fnmatchcase`: `*`, `?`, `[...]` and `[!...]`, and every other character stands for itself.
-/

namespace Text

inductive ClassItem
  | one (point : CodePoint)
  | range (low high : CodePoint)
deriving DecidableEq

def ClassItem.has (point : CodePoint) : ClassItem → Bool
  | .one only => point = only
  | .range low high => low ≤ point ∧ point ≤ high

inductive Token
  | star
  | any
  | set (negated : Bool) (items : List ClassItem)
deriving DecidableEq

/-- What the text between brackets lists. A range that runs downwards is dropped. -/
def class_items : PyStr → List ClassItem
  | [] => []
  | [point] => [.one point]
  | [point, other] => [.one point, .one other]
  | low :: hyphen :: high :: rest =>
    if hyphen = 0x2d then (if low ≤ high then [.range low high] else []) ++ class_items rest
    else .one low :: class_items (hyphen :: high :: rest)

/-- The text up to the closing bracket, which is not one that comes first, and what follows it. -/
def class_text (pattern : PyStr) : Option (PyStr × PyStr) :=
  let (lead, rest) : PyStr × PyStr :=
    match pattern with
    | 0x21 :: 0x5d :: rest => ([0x21, 0x5d], rest)
    | 0x21 :: rest => ([0x21], rest)
    | 0x5d :: rest => ([0x5d], rest)
    | rest => ([], rest)
  match rest.dropWhile fun point => point ≠ 0x5d with
  | [] => none
  | _ :: after => some (lead ++ rest.takeWhile fun point => point ≠ 0x5d, after)

/-- A leading `!` negates, also where dropping a range has brought it to the front. -/
def class_token (text : PyStr) : Token :=
  let items : List ClassItem :=
    match text with
    | 0x21 :: rest => .one 0x21 :: class_items rest
    | text => class_items text
  match items with
  | .one 0x21 :: rest => .set true rest
  | .range 0x21 high :: rest => .set true (.one 0x2d :: .one high :: rest)
  | items => .set false items

/-- The pattern has at most as many tokens as the first argument allows for. -/
def translate : Nat → PyStr → List Token
  | 0, _ => []
  | _, [] => []
  | count + 1, point :: rest =>
    if point = 0x2a then .star :: translate count rest
    else if point = 0x3f then .any :: translate count rest
    else if point = 0x5b then
      match class_text rest with
      | none => .set false [.one point] :: translate count rest
      | some (text, after) => class_token text :: translate count after
    else .set false [.one point] :: translate count rest

def matches_tokens : List Token → PyStr → Bool
  | [], text => text.isEmpty
  | .star :: tokens, text => text.tails.any (matches_tokens tokens)
  | .any :: tokens, _ :: text => matches_tokens tokens text
  | .set negated items :: tokens, point :: text =>
    (items.any (ClassItem.has point) != negated) && matches_tokens tokens text
  | _ :: _, [] => false

def fnmatchcase (name pattern : PyStr) : Bool := matches_tokens (translate pattern.length pattern) name

theorem fnmatchcase_star (name : PyStr) : fnmatchcase name [0x2a] = true := by
  change name.tails.any (matches_tokens []) = true
  exact List.any_eq_true.mpr ⟨[], (List.mem_tails _ _).mpr List.nil_suffix, rfl⟩

example : fnmatchcase (lit "proximal/swe-7") (lit "proximal/swe-[0-9]") = true := by decide

end Text
