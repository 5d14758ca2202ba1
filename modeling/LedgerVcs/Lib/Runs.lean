import Mathlib.Tactic

set_option autoImplicit false

/-!
# Cutting a list into runs

Values are appended to a pending run, which is closed as soon as `closes` holds of it. `offsets` are
the positions at which the runs end.
-/

namespace Runs

variable {α : Type}

structure State (α : Type) where
  closed : List (List α)
  pending : List α

def State.all (state : State α) : List (List α) :=
  if state.pending = [] then state.closed else state.closed ++ [state.pending]

def step (closes : List α → Bool) (state : State α) (value : α) : State α :=
  if closes (state.pending ++ [value]) then ⟨state.closed ++ [state.pending ++ [value]], []⟩
  else ⟨state.closed, state.pending ++ [value]⟩

def scan (closes : List α → Bool) (values : List α) : State α :=
  values.foldl (step closes) ⟨[], []⟩

@[simp] theorem scan_nil (closes : List α → Bool) : scan closes [] = ⟨[], []⟩ := rfl

theorem scan_concat (closes : List α → Bool) (values : List α) (value : α) :
    scan closes (values ++ [value]) = step closes (scan closes values) value := by
  rw [scan, List.foldl_append]
  rfl

theorem mem_all {state : State α} {run : List α} :
    run ∈ state.all ↔ run ∈ state.closed ∨ (run = state.pending ∧ state.pending ≠ []) := by
  by_cases empty : state.pending = [] <;> simp [State.all, empty]

theorem all_flatten (state : State α) : state.all.flatten = state.closed.flatten ++ state.pending := by
  by_cases empty : state.pending = [] <;> simp [State.all, empty]

theorem scan_flatten (closes : List α → Bool) (values : List α) :
    (scan closes values).closed.flatten ++ (scan closes values).pending = values := by
  induction values using List.reverseRecOn with
  | nil => rfl
  | append_singleton values value ih =>
    rw [scan_concat, step]
    split
    next => simpa using congrArg (· ++ [value]) ih
    next => rw [← List.append_assoc, ih]

theorem closed_correct (closes : List α → Bool) (values : List α) :
    ∀ run ∈ (scan closes values).closed, closes run ∧ run ≠ [] := by
  induction values using List.reverseRecOn with
  | nil => simp
  | append_singleton values value ih =>
    rw [scan_concat, step]
    split
    next closing =>
      intro run member
      rcases List.mem_append.mp member with earlier | last
      next => exact ih run earlier
      next =>
        rw [List.mem_singleton.mp last]
        exact ⟨closing, by simp⟩
    next => exact ih

theorem all_nonempty (closes : List α → Bool) (values : List α) :
    ∀ run ∈ (scan closes values).all, run ≠ [] := by
  intro run member
  rcases mem_all.mp member with closed | ⟨rfl, pending⟩
  next => exact (closed_correct closes values run closed).2
  next => exact pending

/-! ## Lengths of runs -/

/-- A rule that closes every run of some length makes no longer ones. -/
theorem all_at_most {closes : List α → Bool} {maximum : Nat} (positive : 0 < maximum)
    (closing : ∀ run, maximum ≤ run.length → closes run) (values : List α) :
    ∀ run ∈ (scan closes values).all, run.length ≤ maximum := by
  have bounded : (∀ run ∈ (scan closes values).closed, run.length ≤ maximum) ∧
      (scan closes values).pending.length < maximum := by
    induction values using List.reverseRecOn with
    | nil => simpa using positive
    | append_singleton values value ih =>
      obtain ⟨earlier, pending⟩ := ih
      have grown : ((scan closes values).pending ++ [value]).length = (scan closes values).pending.length + 1 := by simp
      rw [scan_concat, step]
      split
      next =>
        refine ⟨fun run member => ?_, positive⟩
        rcases List.mem_append.mp member with there | last
        next => exact earlier run there
        next => rw [List.mem_singleton.mp last]; omega
      next unclosed =>
        refine ⟨earlier, ?_⟩
        by_contra long
        exact unclosed (closing _ (not_lt.mp long))
  intro run member
  rcases mem_all.mp member with there | ⟨rfl, -⟩
  next => exact bounded.1 run there
  next => exact bounded.2.le

theorem length_flatten_ge {runs : List (List α)} {minimum : Nat} (long : ∀ run ∈ runs, minimum ≤ run.length) :
    runs.length * minimum ≤ runs.flatten.length := by
  induction runs with
  | nil => simp
  | cons run runs ih =>
    obtain ⟨first, rest⟩ := List.forall_mem_cons.mp long
    have later := ih rest
    rw [List.length_cons, List.flatten_cons, List.length_append, Nat.add_mul, Nat.one_mul]
    omega

theorem length_all {closes : List α → Bool} {minimum : Nat} (long : ∀ run, closes run → minimum ≤ run.length)
    (values : List α) : (scan closes values).all.length * minimum ≤ values.length + (minimum - 1) := by
  have whole := congrArg List.length (scan_flatten closes values)
  have closed := length_flatten_ge fun run member => long run (closed_correct closes values run member).1
  rw [List.length_append] at whole
  rw [State.all]
  split
  next => omega
  next pending =>
    have some := List.length_pos_of_ne_nil pending
    rw [List.length_append, List.length_singleton, Nat.add_mul, Nat.one_mul]
    omega

/-- All runs but the last were closed. -/
theorem dropLast_closed {closes : List α → Bool} {values run : List α} (member : run ∈ (scan closes values).all.dropLast) :
    closes run := by
  refine (closed_correct closes values run ?_).1
  rw [State.all] at member
  split at member
  next => exact List.mem_of_mem_dropLast member
  next => rwa [List.dropLast_concat] at member

theorem bounded_of_concat {good : List α → Prop} (shorter : ∀ run value, good (run ++ [value]) → good run)
    {closes : List α → Bool} {values : List α} {value : α}
    (bounded : ∀ run ∈ (scan closes (values ++ [value])).all, good run) :
    (∀ run ∈ (scan closes values).all, good run) ∧ good ((scan closes values).pending ++ [value]) := by
  rw [scan_concat, step] at bounded
  have both : (∀ run ∈ (scan closes values).closed, good run) ∧ good ((scan closes values).pending ++ [value]) := by
    split at bounded
    next =>
      simp only [mem_all] at bounded
      exact ⟨fun run member => bounded run (.inl (by simp [member])), bounded _ (.inl (by simp))⟩
    next =>
      simp only [mem_all] at bounded
      exact ⟨fun run member => bounded run (.inl member), bounded _ (.inr ⟨rfl, by simp⟩)⟩
  refine ⟨?_, both.2⟩
  intro run member
  rcases mem_all.mp member with closed | ⟨rfl, _⟩
  next => exact both.1 run closed
  next => exact shorter _ _ both.2

/-- Two closing rules cut alike while they agree on every run that the first one makes. -/
theorem scan_agree {good : List α → Prop} (shorter : ∀ run value, good (run ++ [value]) → good run)
    {closes other : List α → Bool} (agree : ∀ run, good run → closes run = other run) {values : List α}
    (bounded : ∀ run ∈ (scan closes values).all, good run) : scan closes values = scan other values := by
  induction values using List.reverseRecOn with
  | nil => rfl
  | append_singleton values value ih =>
    obtain ⟨earlier, last⟩ := bounded_of_concat shorter bounded
    rw [scan_concat, scan_concat, ← ih earlier, step, step, agree _ last]

theorem scan_open {closes : List α → Bool} {values : List α}
    (unbroken : ∀ run, run <+: values → closes run = false) : scan closes values = ⟨[], values⟩ := by
  induction values using List.reverseRecOn with
  | nil => rfl
  | append_singleton values value ih =>
    have earlier := ih fun run initial => unbroken run (initial.trans (List.prefix_append _ _))
    rw [scan_concat, earlier, step, if_neg]
    simpa using unbroken _ (List.prefix_refl _)

theorem step_all_open (closes : List α → Bool) (state : State α) {value : α} :
    (step closes state value).all = state.closed ++ [state.pending ++ [value]] := by
  rw [step]
  split <;> simp [State.all]

theorem scan_map {β : Type} (f : α → β) (closes : List β → Bool) (values : List α) :
    scan closes (values.map f) =
      ⟨(scan (fun run => closes (run.map f)) values).closed.map (List.map f),
        (scan (fun run => closes (run.map f)) values).pending.map f⟩ := by
  induction values using List.reverseRecOn with
  | nil => rfl
  | append_singleton values value ih =>
    rw [List.map_append, List.map_singleton, scan_concat, scan_concat, ih, step, step]
    simp only [List.map_append, List.map_singleton]
    split <;> simp

theorem State.all_map {β : Type} (f : α → β) (state : State α) :
    State.all ⟨state.closed.map (List.map f), state.pending.map f⟩ = state.all.map (List.map f) := by
  by_cases empty : state.pending = [] <;> simp [State.all, empty]

/-- Runs of images are images of runs. -/
theorem exists_lift {β : Type} (f : α → β) {runs : List (List β)} {values : List α} (whole : runs.flatten = values.map f) :
    ∃ lifted : List (List α), lifted.map (List.map f) = runs ∧ lifted.flatten = values := by
  induction runs generalizing values with
  | nil => exact ⟨[], rfl, (List.map_eq_nil_iff.mp whole.symm).symm⟩
  | cons run runs ih =>
    obtain ⟨first, rest, rfl, same, later⟩ := List.map_eq_append_iff.mp whole.symm
    obtain ⟨lifted, rfl, rfl⟩ := ih later.symm
    exact ⟨first :: lifted, by rw [List.map_cons, same], rfl⟩

/-- What stands for each run, beside what the run has become. -/
theorem exists_pairs {β γ δ : Type} {runs : List γ} {nodes : List δ} {related : γ → δ → Prop} {made : γ → β}
    {good : δ × β → Prop} (stand : List.Forall₂ related runs nodes)
    (becomes : ∀ run ∈ runs, ∀ node, related run node → good (node, made run)) :
    ∃ pairs : List (δ × β), nodes = pairs.map Prod.fst ∧ runs.map made = pairs.map Prod.snd ∧ ∀ pair ∈ pairs, good pair := by
  induction stand with
  | nil => exact ⟨[], rfl, rfl, by simp⟩
  | @cons run node runs nodes first rest ih =>
    obtain ⟨own, later⟩ := List.forall_mem_cons.mp becomes
    obtain ⟨pairs, rfl, same, each⟩ := ih later
    exact ⟨(node, made run) :: pairs, rfl, by rw [List.map_cons, same]; rfl, List.forall_mem_cons.mpr ⟨own node first, each⟩⟩

/-! ## Values that leave no run pending -/

theorem foldl_step (closes : List α → Bool) (values : List α) (state : State α) :
    values.foldl (step closes) state =
      ⟨state.closed ++ (values.foldl (step closes) ⟨[], state.pending⟩).closed, (values.foldl (step closes) ⟨[], state.pending⟩).pending⟩ := by
  induction values generalizing state with
  | nil => simp
  | cons value values ih =>
    rw [List.foldl_cons, List.foldl_cons, ih (step closes state value), ih (step closes ⟨[], state.pending⟩ value), step, step]
    split <;> simp

/-- What comes after whole runs is cut as if nothing had come before. -/
theorem scan_resume {closes : List α → Bool} {front : List α} (settled : (scan closes front).pending = []) (rest : List α) :
    scan closes (front ++ rest) = ⟨(scan closes front).closed ++ (scan closes rest).closed, (scan closes rest).pending⟩ := by
  rw [scan, List.foldl_append, foldl_step, ← scan, settled, ← scan]

theorem all_resume {closes : List α → Bool} {front : List α} (settled : (scan closes front).pending = []) (rest : List α) :
    (scan closes (front ++ rest)).all = (scan closes front).all ++ (scan closes rest).all := by
  rw [scan_resume settled, State.all, State.all, State.all, if_pos settled]
  split <;> simp

/-- A run that none of its beginnings has closed. -/
def Unclosed (closes : List α → Bool) (run : List α) : Prop := ∀ shorter, shorter <+: run → shorter ≠ [] → closes shorter = false

/-- The values fall into runs, each of which closes with its last value and no sooner. -/
inductive Whole (closes : List α → Bool) : List α → Prop
  | nil : Whole closes []
  | concat {front run : List α} {value : α} (whole : Whole closes front) (unclosed : Unclosed closes run)
    (closing : closes (run ++ [value])) : Whole closes (front ++ (run ++ [value]))

theorem scan_unclosed {closes : List α → Bool} {run : List α} (unclosed : Unclosed closes run) : scan closes run = ⟨[], run⟩ := by
  induction run using List.reverseRecOn with
  | nil => rfl
  | append_singleton run value ih =>
    have earlier := ih fun shorter initial => unclosed shorter (initial.trans (List.prefix_append _ _))
    rw [scan_concat, earlier, step, if_neg]
    simpa using unclosed _ (List.prefix_refl _) (by simp)

theorem pending_unclosed (closes : List α → Bool) (values : List α) : Unclosed closes (scan closes values).pending := by
  induction values using List.reverseRecOn with
  | nil => exact fun shorter initial some => absurd (List.prefix_nil.mp initial) some
  | append_singleton values value ih =>
    rw [scan_concat, step]
    split
    next => exact fun shorter initial some => absurd (List.prefix_nil.mp initial) some
    next unclosed =>
      intro shorter initial some
      rcases List.prefix_concat_iff.mp initial with rfl | earlier
      next => simpa using unclosed
      next => exact ih shorter earlier some

theorem Whole.scan {closes : List α → Bool} {values : List α} (whole : Whole closes values) : (scan closes values).pending = [] := by
  induction whole with
  | nil => rfl
  | concat _ unclosed closing ih => rw [scan_resume ih, scan_concat, scan_unclosed unclosed, step, if_pos closing]

theorem whole_closed (closes : List α → Bool) (values : List α) : Whole closes (Runs.scan closes values).closed.flatten := by
  induction values using List.reverseRecOn with
  | nil => exact .nil
  | append_singleton values value ih =>
    rw [scan_concat, step]
    split
    next closing =>
      rw [List.flatten_append, List.flatten_singleton]
      exact .concat ih (pending_unclosed closes values) closing
    next => exact ih

theorem whole_iff {closes : List α → Bool} {values : List α} : Whole closes values ↔ (Runs.scan closes values).pending = [] := by
  constructor
  next => exact Whole.scan
  next =>
    intro settled
    have flat := scan_flatten closes values
    have whole := whole_closed closes values
    rw [settled, List.append_nil] at flat
    rwa [flat] at whole

/-- What was cut before a run is whole. -/
theorem whole_before {closes : List α → Bool} {values : List α} {before after : List (List α)} {run : List α}
    (cut : (Runs.scan closes values).all = before ++ run :: after) : Whole closes before.flatten := by
  have initial {runs : List (List α)} (first : runs <+: (Runs.scan closes values).closed) : Whole closes runs.flatten := by
    clear cut
    induction values using List.reverseRecOn generalizing runs with
    | nil =>
      rw [List.prefix_nil.mp first]
      exact .nil
    | append_singleton values value ih =>
      have whole := whole_closed closes (values ++ [value])
      rw [scan_concat, step] at first whole
      split at first
      next closing =>
        rw [if_pos closing] at whole
        rcases List.prefix_concat_iff.mp first with rfl | earlier
        next => exact whole
        next => exact ih earlier
      next => exact ih first
  rw [State.all] at cut
  split at cut
  next => exact initial (cut ▸ List.prefix_append _ _)
  next =>
    refine initial ?_
    rcases List.append_eq_append_iff.mp cut with ⟨more, rfl, rest⟩ | ⟨more, whole, -⟩
    next =>
      have lengths := congrArg List.length rest
      simp only [List.length_append, List.length_cons, List.length_nil] at lengths
      obtain rfl : more = [] := List.length_eq_zero_iff.mp (by omega)
      rw [List.append_nil]
    next => exact ⟨more, whole.symm⟩

/-! ## Ends of runs -/

def offsets (start : Nat) : List (List α) → List Nat
  | [] => []
  | run :: runs => (start + run.length) :: offsets (start + run.length) runs

theorem offsets_append (start : Nat) (front back : List (List α)) :
    offsets start (front ++ back) = offsets start front ++ offsets (start + front.flatten.length) back := by
  induction front generalizing start with
  | nil => simp [offsets]
  | cons run front ih => simp [offsets, ih, Nat.add_assoc]

theorem offsets_shift (start : Nat) (runs : List (List α)) : offsets start runs = (offsets 0 runs).map (start + ·) := by
  induction runs generalizing start with
  | nil => rfl
  | cons run runs ih =>
    rw [offsets, offsets, List.map_cons, ih (start + run.length), ih (0 + run.length), List.map_map, Nat.zero_add]
    simp [Function.comp_def, Nat.add_assoc]

@[simp] theorem offsets_length (start : Nat) (runs : List (List α)) : (offsets start runs).length = runs.length := by
  induction runs generalizing start with
  | nil => rfl
  | cons run runs ih => rw [offsets, List.length_cons, ih, List.length_cons]

theorem last_offset (start : Nat) (runs : List (List α)) :
    (offsets start runs).reverse.headD start = start + runs.flatten.length := by
  cases runs using List.reverseRecOn with
  | nil => rfl
  | append_singleton runs run => simp [offsets_append, offsets, Nat.add_assoc]

theorem mem_offsets_closed (closes : List α → Bool) (values : List α) (stop : Nat) :
    stop ∈ offsets 0 (scan closes values).closed ↔ 0 < stop ∧ stop ≤ values.length ∧ Whole closes (values.take stop) := by
  induction values using List.reverseRecOn with
  | nil =>
    simp only [scan_nil, offsets, List.not_mem_nil, List.length_nil, false_iff]
    omega
  | append_singleton values value ih =>
    have flat := congrArg List.length (scan_flatten closes values)
    have last : Whole closes (values ++ [value]) ↔ closes ((scan closes values).pending ++ [value]) := by
      rw [whole_iff, scan_concat, step]
      split <;> simp_all
    rw [List.length_append] at flat
    rw [scan_concat, step, List.length_append, List.length_singleton]
    have added : stop ∈ offsets 0 (if closes ((scan closes values).pending ++ [value]) then
          State.mk ((scan closes values).closed ++ [(scan closes values).pending ++ [value]]) []
        else ⟨(scan closes values).closed, (scan closes values).pending ++ [value]⟩).closed ↔
          stop ∈ offsets 0 (scan closes values).closed ∨
            stop = values.length + 1 ∧ closes ((scan closes values).pending ++ [value]) := by
      split
      next closing =>
        rw [offsets_append, List.mem_append, offsets, offsets, List.mem_singleton, List.length_append, List.length_singleton]
        refine or_congr_right ?_
        simp only [closing, and_true]
        omega
      next unclosed => simp [unclosed]
    rw [added, ih, ← last]
    by_cases final : stop = values.length + 1
    next =>
      subst final
      have all : (values ++ [value]).take (values.length + 1) = values ++ [value] := List.take_of_length_le (by simp)
      rw [all]
      constructor
      next =>
        rintro (⟨-, beyond, -⟩ | ⟨-, whole⟩)
        next => omega
        next => exact ⟨by omega, le_refl _, whole⟩
      next => exact fun whole => .inr ⟨rfl, whole.2.2⟩
    next =>
      constructor
      next =>
        rintro (⟨some, inside, whole⟩ | ⟨here, -⟩)
        next =>
          rw [List.take_append_of_le_length inside]
          exact ⟨some, by omega, whole⟩
        next => exact absurd here final
      next =>
        rintro ⟨some, inside, whole⟩
        rw [List.take_append_of_le_length (by omega)] at whole
        exact .inl ⟨some, by omega, whole⟩

/-- Where runs end: after whole runs, and at the end. -/
theorem mem_offsets_all (closes : List α → Bool) (values : List α) (stop : Nat) :
    stop ∈ offsets 0 (scan closes values).all ↔
      0 < stop ∧ stop ≤ values.length ∧ (stop = values.length ∨ Whole closes (values.take stop)) := by
  have flat := congrArg List.length (scan_flatten closes values)
  have final : Whole closes values ↔ (scan closes values).pending = [] := whole_iff
  rw [List.length_append] at flat
  rw [State.all]
  split
  next settled =>
    rw [mem_offsets_closed]
    refine and_congr_right fun some => and_congr_right fun inside => ⟨.inr, ?_⟩
    rintro (rfl | whole)
    next => rw [List.take_length]; exact final.mpr settled
    next => exact whole
  next pending =>
    have some := List.length_pos_of_ne_nil pending
    rw [offsets_append, List.mem_append, mem_offsets_closed, offsets, offsets, List.mem_singleton, Nat.zero_add, flat]
    constructor
    next =>
      rintro (⟨some, inside, whole⟩ | rfl)
      next => exact ⟨some, inside, .inr whole⟩
      next => exact ⟨by omega, le_refl _, .inl rfl⟩
    next =>
      rintro ⟨some, inside, rfl | whole⟩
      next => exact .inr rfl
      next => exact .inl ⟨some, inside, whole⟩

/-- The pieces of `values` between successive ends. -/
def slices (values : List α) : Nat → List Nat → List (List α)
  | _, [] => []
  | start, stop :: ends => (values.drop start).take (stop - start) :: slices values stop ends

theorem slices_offsets (front : List α) (runs : List (List α)) :
    slices (front ++ runs.flatten) front.length (offsets front.length runs) = runs := by
  induction runs generalizing front with
  | nil => rfl
  | cons run runs ih =>
    have later := ih (front ++ run)
    simp only [List.append_assoc, List.length_append] at later
    simp only [offsets, slices, List.flatten_cons, List.drop_left, Nat.add_sub_cancel_left, List.take_left, later]

end Runs
