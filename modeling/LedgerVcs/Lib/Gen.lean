import Mathlib.Tactic

set_option autoImplicit false

/-! Generators: the values yielded, and the exception that ended them if one did. -/

structure Gen (ε α : Type) where
  yielded : List α
  raised : Option ε
deriving DecidableEq

namespace Gen

variable {ε α β : Type}

def of (values : List α) : Gen ε α := ⟨values, none⟩

def raise (error : ε) : Gen ε α := ⟨[], some error⟩

/-- Goes on with a value, unless there is none. -/
def fetching (result : Except ε β) (rest : β → Gen ε α) : Gen ε α :=
  match result with
  | .ok value => rest value
  | .error error => raise error

/-- `yield from first`, then `yield from second`. -/
def append (first second : Gen ε α) : Gen ε α :=
  match first.raised with
  | some _ => first
  | none => ⟨first.yielded ++ second.yielded, second.raised⟩

def each (values : List β) (body : β → Gen ε α) : Gen ε α :=
  values.foldr (fun value rest => (body value).append rest) (of [])

/-- `for value in generator` -/
def through (gen : Gen ε β) (body : β → Gen ε α) : Gen ε α := (each gen.yielded body).append ⟨[], gen.raised⟩

/-- All the values, for a caller that takes them all. -/
def collect (gen : Gen ε α) : Except ε (List α) :=
  match gen.raised with
  | some error => .error error
  | none => .ok gen.yielded

/-- `next(generator, None)` -/
def first (gen : Gen ε α) : Except ε (Option α) :=
  match gen.yielded, gen.raised with
  | value :: _, _ => .ok (some value)
  | [], none => .ok none
  | [], some error => .error error

@[simp] theorem fetching_ok (value : β) (rest : β → Gen ε α) : fetching (.ok value) rest = rest value := rfl

@[simp] theorem append_of (first second : List α) : (of first : Gen ε α).append (of second) = of (first ++ second) := rfl

@[simp] theorem append_nil (gen : Gen ε α) : gen.append (of []) = gen := by
  rcases gen with ⟨values, none | error⟩ <;> simp [append, of]

@[simp] theorem through_of (values : List β) (body : β → Gen ε α) : (of values).through body = each values body :=
  append_nil _

@[simp] theorem yielded_of (values : List α) : (of values : Gen ε α).yielded = values := rfl

@[simp] theorem collect_of (values : List α) : (of values : Gen ε α).collect = .ok values := rfl

@[simp] theorem first_of (values : List α) : (of values : Gen ε α).first = .ok values.head? := by
  cases values <;> rfl

@[simp] theorem of_inj {first second : List α} : (of first : Gen ε α) = of second ↔ first = second :=
  ⟨congrArg yielded, congrArg of⟩

theorem mem_append {first second : Gen ε α} {found : α} (yields : found ∈ (first.append second).yielded) :
    found ∈ first.yielded ∨ found ∈ second.yielded := by
  rw [append] at yields
  split at yields
  next => exact .inl yields
  next => exact List.mem_append.mp yields

theorem each_map {γ : Type} (f : γ → β) (values : List γ) (body : β → Gen ε α) :
    each (values.map f) body = each values fun value => body (f value) :=
  List.foldr_map

theorem each_of {values : List β} {body : β → Gen ε α} {content : β → List α}
    (plain : ∀ value ∈ values, body value = of (content value)) :
    each values body = of (values.flatMap content) := by
  induction values with
  | nil => rfl
  | cons value values ih =>
    obtain ⟨first, others⟩ := List.forall_mem_cons.mp plain
    change (body value).append (each values body) = _
    rw [first, ih others, append_of, List.flatMap_cons]

theorem each_skip {values : List β} {body : β → Gen ε α} {content : β → List α} {skips : β → Prop} [DecidablePred skips]
    (plain : ∀ value ∈ values, ¬ skips value → body value = of (content value)) :
    (each values fun value => if skips value then of [] else body value) =
      of ((values.filter fun value => ¬ skips value).flatMap content) := by
  induction values with
  | nil => rfl
  | cons value values ih =>
    obtain ⟨first, others⟩ := List.forall_mem_cons.mp plain
    change (if skips value then of [] else body value).append (each values _) = _
    rw [ih others]
    by_cases skipped : skips value
    next => rw [if_pos skipped, append_of, List.nil_append, List.filter_cons_of_neg (by simpa using skipped)]
    next => rw [if_neg skipped, first skipped, append_of, List.filter_cons_of_pos (by simpa using skipped), List.flatMap_cons]

end Gen
