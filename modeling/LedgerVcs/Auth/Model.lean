import LedgerVcs.Errors
import LedgerVcs.Lib.Fnmatch
import LedgerVcs.Meta.Models

set_option autoImplicit false

namespace LedgerVcs

open Text (PyStr lit)

/-! ## Operations -/

/-- A bitmask: each bit is one operation. -/
abbrev Operation := BitVec 7

namespace Operation

def READ : Operation := 1

def WRITE : Operation := 2

def ANNOTATE : Operation := 4

def FORK : Operation := 8

def CREATE : Operation := 16

def BUILD : Operation := 32

def ADMIN : Operation := 64

end Operation

/-- `_BY_LABEL`, in the order of the bits. -/
def BY_LABEL : List (PyStr × Operation) :=
  [(lit "env:read", .READ), (lit "env:write", .WRITE), (lit "env:annotate", .ANNOTATE), (lit "env:fork", .FORK),
    (lit "env:create", .CREATE), (lit "env:build", .BUILD), (lit "env:admin", .ADMIN)]

def parse_operations (labels : List PyStr) : Except PyError Operation :=
  labels.foldlM
    (fun result label =>
      match BY_LABEL.lookup label with
      | some operation => .ok (result ||| operation)
      | none => .error (.valueError "unknown operation"))
    0

def render_operations (operations : Operation) : List PyStr :=
  (BY_LABEL.filter fun known => operations &&& known.2 ≠ 0).map Prod.fst

theorem parse_render_operations (operations : Operation) :
    parse_operations (render_operations operations) = .ok operations := by
  have every : ∀ bits : Fin 128, parse_operations (render_operations (.ofFin bits)) = .ok (.ofFin bits) := by
    decide
  exact every operations.toFin

/-! ## Selectors -/

inductive Selector
  | exact (env_id : PyStr)
  | namePrefix (pattern : PyStr)
  | label (required : List (PyStr × PyStr))
deriving DecidableEq

namespace Selector

def matches_name (pattern : PyStr) (name : EnvName) : Bool := Text.fnmatchcase (lit name.value) pattern

/-- `labels` is the mapping's `get`. -/
def covers (env_id : EnvId) (name : EnvName) (labels : PyStr → Option PyStr) : Selector → Bool
  | .exact own => lit env_id.value = own
  | .namePrefix pattern => matches_name pattern name
  | .label required => required.all fun pair => labels pair.1 = some pair.2

def COLON : Text.CodePoint := 0x3a

def COMMA : Text.CodePoint := 0x2c

def EQUALS : Text.CodePoint := 0x3d

def render : Selector → PyStr
  | .exact env_id => lit "id" ++ COLON :: env_id
  | .namePrefix pattern => lit "name" ++ COLON :: pattern
  | .label required =>
    lit "labels" ++ COLON :: [COMMA].intercalate (required.map fun pair => pair.1 ++ EQUALS :: pair.2)

/-- The order of Python's tuples. -/
def pair_le (left right : PyStr × PyStr) : Bool := toLex left ≤ toLex right

def parse_pairs (rest : PyStr) : List (PyStr × PyStr) :=
  ((rest.splitOn COMMA).filter fun pair => pair ≠ []).map (Text.partition EQUALS)

end Selector

open Selector in
def parse_selector (rendered : PyStr) : Except PyError Selector :=
  let (kind, rest) := Text.partition COLON rendered
  if kind = lit "id" then .ok (.exact rest)
  else if kind = lit "name" then .ok (.namePrefix rest)
  else if kind = lit "labels" then .ok (.label ((parse_pairs rest).mergeSort pair_le))
  else .error (.valueError "unknown selector")

namespace Selector

/-- As a parsed selector is: no separator inside a label, and the labels in order. -/
def Plain : Selector → Prop
  | .label required =>
      (∀ pair ∈ required, EQUALS ∉ pair.1 ∧ COMMA ∉ pair.1 ∧ COMMA ∉ pair.2) ∧
        required.Pairwise fun left right => pair_le left right = true
  | _ => True

theorem pairs_parse {required : List (PyStr × PyStr)}
    (plain : ∀ pair ∈ required, EQUALS ∉ pair.1 ∧ COMMA ∉ pair.1 ∧ COMMA ∉ pair.2) :
    parse_pairs ([COMMA].intercalate (required.map fun pair => pair.1 ++ EQUALS :: pair.2)) = required := by
  by_cases none : required = []
  next => rw [none]; rfl
  next =>
    have filled : ∀ piece ∈ required.map fun pair => pair.1 ++ EQUALS :: pair.2, decide (piece ≠ []) = true := by
      intro piece member
      obtain ⟨pair, -, rfl⟩ := List.mem_map.mp member
      exact decide_eq_true (List.append_ne_nil_of_right_ne_nil _ (List.cons_ne_nil _ _))
    rw [parse_pairs, List.splitOn_intercalate]
    next =>
      rw [List.filter_eq_self.mpr filled, List.map_map]
      refine (List.map_congr_left fun pair member => ?_).trans (List.map_id required)
      exact Text.partition_append pair.2 (plain pair member).1
    next =>
      intro piece member
      obtain ⟨pair, there, rfl⟩ := List.mem_map.mp member
      obtain ⟨-, key, value⟩ := plain pair there
      simp [key, value, show COMMA ≠ EQUALS by decide]
    next => simpa using none

/-- A parsed selector survives being rendered and parsed again. -/
theorem parse_render {selector : Selector} (plain : selector.Plain) :
    parse_selector selector.render = .ok selector := by
  cases selector with
  | exact env_id =>
    rw [parse_selector, render, Text.partition_append _ (by decide)]
    rfl
  | namePrefix pattern =>
    rw [parse_selector, render, Text.partition_append _ (by decide)]
    rfl
  | label required =>
    rw [parse_selector, render, Text.partition_append _ (by decide)]
    have sorted := List.mergeSort_of_pairwise plain.2
    simp only [pairs_parse plain.1, sorted]
    rfl

theorem parse_plain {rendered : PyStr} {selector : Selector} (parsed : parse_selector rendered = .ok selector) :
    selector.Plain := by
  simp only [parse_selector] at parsed
  split at parsed
  next => obtain rfl := Except.ok.inj parsed; trivial
  next =>
    split at parsed
    next => obtain rfl := Except.ok.inj parsed; trivial
    next =>
      split at parsed
      next =>
        obtain rfl := Except.ok.inj parsed
        refine ⟨fun pair member => ?_, ?_⟩
        next =>
          obtain ⟨piece, there, rfl⟩ := List.mem_map.mp ((List.mem_mergeSort).mp member)
          have clear := Text.splitOn_clear piece (List.mem_filter.mp there).1
          exact ⟨Text.partition_clear, fun inside => clear (Text.partition_mem (.inl inside)),
            fun inside => clear (Text.partition_mem (.inr inside))⟩
        next =>
          refine List.pairwise_mergeSort ?_ ?_ _
          next =>
            intro first second third le le'
            exact decide_eq_true ((of_decide_eq_true le).trans (of_decide_eq_true le'))
          next =>
            intro left right
            rcases le_total (toLex left) (toLex right) with le | le
            next => simp [pair_le, le]
            next => simp [pair_le, le]
      next => cases parsed

end Selector

/-! ## Scopes -/

structure Scope where
  operations : Operation
  selectors : List Selector
  /-- When present, the only environment the token may touch. -/
  env_id : Option PyStr
deriving DecidableEq

namespace Scope

def permits (scope : Scope) (operation : Operation) (env_id : EnvId) (name : EnvName)
    (labels : PyStr → Option PyStr) : Bool :=
  if scope.env_id.isSome ∧ scope.env_id ≠ some (lit env_id.value) then false
  else if scope.operations &&& operation = 0 then false
  else scope.selectors.any (Selector.covers env_id name labels)

/-- Whether the token has authority over the namespace the name sits in. -/
def could_name (scope : Scope) (name : EnvName) : Bool :=
  if scope.env_id.isSome then false
  else scope.selectors.any fun
    | .namePrefix pattern => Selector.matches_name pattern name
    | _ => false

def narrow (scope : Scope) (operations : Option Operation) (env_id : Option PyStr) : Scope where
  operations := match operations with
    | some operations => scope.operations &&& operations
    | none => scope.operations
  selectors := scope.selectors
  env_id := if scope.env_id = none then env_id else scope.env_id

theorem permits_iff {scope : Scope} {operation : Operation} {env_id : EnvId} {name : EnvName}
    {labels : PyStr → Option PyStr} :
    scope.permits operation env_id name labels = true ↔
      (∀ pin, scope.env_id = some pin → pin = lit env_id.value) ∧ scope.operations &&& operation ≠ 0 ∧
        ∃ selector ∈ scope.selectors, selector.covers env_id name labels = true := by
  rw [permits]
  cases pinned : scope.env_id with
  | none => simp
  | some pin => by_cases here : pin = lit env_id.value <;> simp [here]

/-- Narrowing never widens. -/
theorem narrow_permits {scope : Scope} {operations : Option Operation} {pin : Option PyStr} {operation : Operation}
    {env_id : EnvId} {name : EnvName} {labels : PyStr → Option PyStr}
    (permitted : (scope.narrow operations pin).permits operation env_id name labels = true) :
    scope.permits operation env_id name labels = true := by
  obtain ⟨pinned, allowed, selected⟩ := permits_iff.mp permitted
  refine permits_iff.mpr ⟨fun own same => pinned own ?_, fun none => allowed ?_, selected⟩
  next =>
    change (if scope.env_id = .none then pin else scope.env_id) = some own
    rw [same, if_neg (Option.some_ne_none own)]
  next =>
    cases operations with
    | none => exact none
    | some operations =>
      calc scope.operations &&& operations &&& operation
          = scope.operations &&& operation &&& operations := by
            rw [BitVec.and_assoc, BitVec.and_comm operations, ← BitVec.and_assoc]
        _ = 0 := by rw [none]; exact BitVec.zero_and

end Scope

end LedgerVcs
