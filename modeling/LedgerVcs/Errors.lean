import LedgerVcs.Lib.Text
import Mathlib.Tactic

set_option autoImplicit false

namespace LedgerVcs

open Text (PyStr)

/-- The exceptions the modelled code raises: the ledger's own hierarchy, and the two of Python's that
reach a caller. A conflict carries the sort key whose condition failed, which the code reads. -/
inductive PyError
  | valueError (message : String)
  | assertionError (message : String)
  | malformedObject (message : String)
  | notCanonical (message : String)
  | unsupportedFormatVersion (message : String)
  | objectNotFound (message : String)
  | corruptObject (message : String)
  | backendUnavailable (message : String)
  | invalidRequest (message : String)
  | unauthenticated (message : String)
  | forbidden (message : String)
  | notFound (message : String)
  | conflict (message : String) (sk : Option PyStr)
  | idempotencyMismatch (message : String)
deriving DecidableEq, Repr

/-- Whether the exception is one of the ledger's own hierarchy. -/
def PyError.is_ledger_error : PyError → Bool
  | .valueError _ => false
  | .assertionError _ => false
  | _ => true

/-- `if not condition: raise error` -/
def ensure (condition : Prop) [Decidable condition] (error : PyError) : Except PyError Unit :=
  if condition then .ok () else .error error

@[simp] theorem ensure_ok {condition : Prop} [Decidable condition] {error : PyError} {done : Unit} :
    ensure condition error = .ok done ↔ condition := by
  by_cases holds : condition <;> simp [ensure, holds]

end LedgerVcs
