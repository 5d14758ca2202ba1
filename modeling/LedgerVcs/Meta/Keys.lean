import LedgerVcs.Meta.Models
import Mathlib.Data.Nat.Digits.Lemmas

set_option autoImplicit false

namespace LedgerVcs

open Text (PyStr)

def OP_SEQ_DIGITS : Nat := 10

def PAGE_DIGITS : Nat := 6

/-! ## Zero-padded numbers -/

/-- The decimal digits of `f"{number:0{width}d}"`, the leading one first. -/
def padded (width number : Nat) : List Nat :=
  List.replicate (width - (Nat.digits 10 number).length) 0 ++ (Nat.digits 10 number).reverse

theorem padded_injective {width left right : Nat} (same : padded width left = padded width right) :
    left = right := by
  have value (number : Nat) : Nat.ofDigits 10 (padded width number).reverse = number := by
    simp [padded, Nat.ofDigits_append, Nat.ofDigits_digits]
  rw [← value left, same, value right]

/-- Text order of the padded numbers, which is how the store sorts the keys they end. -/
def byText (width : Nat) : Nat → Nat → Ordering := compareOn (padded width)

instance (width : Nat) : Std.TransCmp (byText width) :=
  inferInstanceAs (Std.TransCmp (compareOn (padded width)))

instance (width : Nat) : Std.LawfulEqCmp (byText width) where
  compare_self := compareOn_self
  eq_of_compare := compareOn_eq fun _ _ => padded_injective

/-! ## Sort keys -/

/-- Where a session's page of uploaded names is kept. -/
structure SessionPage where
  session : SessionId
  page : Nat
deriving DecidableEq, Repr

instance : Ord SessionPage :=
  ⟨compareLex (compareOn SessionPage.session) fun left right => byText PAGE_DIGITS left.page right.page⟩

instance : Std.TransOrd SessionPage :=
  inferInstanceAs (Std.TransCmp
    (compareLex (compareOn SessionPage.session) (compareOn fun key => padded PAGE_DIGITS key.page)))

instance : Std.LawfulEqOrd SessionPage where
  compare_self := by
    intro key
    rw [show compare key key = compareLex _ _ key key from rfl, compareLex_eq_eq]
    exact ⟨compareOn_self, compareOn_self⟩
  eq_of_compare := by
    rintro ⟨session, page⟩ ⟨session', page'⟩ same
    rw [show compare _ _ = compareLex _ _ _ _ from rfl, compareLex_eq_eq] at same
    have sameSession : session = session' := Std.LawfulEqOrd.eq_of_compare same.1
    have samePage : page = page' := @Std.LawfulEqCmp.eq_of_compare _ (byText PAGE_DIGITS) _ _ _ same.2
    rw [sameSession, samePage]

inductive SortKey
  | env
  | ref (name : RefName)
  | change (id : ChangeId)
  | op (sequence : Nat)
  | seq
  | session (id : SessionId)
  | session_page (page : SessionPage)
  | idem (key : String)
deriving DecidableEq

def decimal (digits : List Nat) : PyStr := digits.map fun digit => Fin.ofNat _ (48 + digit)

def SortKey.render : SortKey → PyStr
  | .env => Text.lit "env"
  | .ref name => Text.lit "ref#" ++ Text.lit name.value
  | .change id => Text.lit "chg#" ++ id.value
  | .op sequence => Text.lit "op#" ++ decimal (padded OP_SEQ_DIGITS sequence)
  | .seq => Text.lit "seq"
  | .session id => Text.lit "ws#" ++ Text.lit id.value
  | .session_page key =>
      Text.lit "wsp#" ++ Text.lit key.session.value ++ Text.lit "#" ++ decimal (padded PAGE_DIGITS key.page)
  | .idem key => Text.lit "idem#" ++ Text.lit key

theorem render_seq {key : SortKey} : key.render = SortKey.render .seq ↔ key = .seq := by
  constructor
  next =>
    intro same
    have second := congrArg (fun text => text[1]?) same
    have first := congrArg (fun text => text[0]?) same
    cases key <;> simp [SortKey.render, Text.lit, Text.ofChar] at first second ⊢
  next => rintro rfl; rfl

/-- What an item under the key holds. -/
@[reducible] def SortKey.Body : SortKey → Type
  | .env => Environment
  | .ref _ => Ref
  | .change _ => ChangeRecord
  | .op _ => OpLogEntry
  | .seq => Nat
  | .session _ => WriteSession
  | .session_page _ => List ObjectName
  | .idem _ => IdempotencyRecord

end LedgerVcs
