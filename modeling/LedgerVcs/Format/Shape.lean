import LedgerVcs.Format.Codec
import LedgerVcs.Lib.Runs

set_option autoImplicit false

namespace LedgerVcs

open Wire (Bytes)

def MIN_INTERIOR_CHILDREN : Nat := 2

def MAX_LEVEL : Nat := 255

structure ShapeParams where
  domain : Bytes
  period : Nat
  min_entries : Nat
  max_entries : Nat
  max_node_bytes : Nat
  entries_ordered : 1 ≤ min_entries ∧ min_entries < max_entries
  period_large : 2 ≤ period
  node_bytes_large : 64 ≤ max_node_bytes

def PRODUCTION_SHAPE : ShapeParams where
  domain := SPLIT_DOMAIN
  period := SPLIT_PERIOD
  min_entries := SPLIT_MIN_ENTRIES
  max_entries := SPLIT_MAX_ENTRIES
  max_node_bytes := MAX_NODE_BYTES
  entries_ordered := by decide
  period_large := by decide
  node_bytes_large := by decide

variable (blake3 : Blake3)

def is_boundary (key : Bytes) (level : Nat) (params : ShapeParams) : Except PyError Bool := do
  ensure (level ≤ MAX_LEVEL) (.valueError s!"level out of range: {level}")
  let digest := blake3.digest (params.domain ++ [UInt8.ofNat level] ++ key) 8
  return Wire.ofBE digest % params.period = 0

/-- Whether `partition` ends a node after `key`, with `count` keys and `node_bytes` in the node. -/
def ends_node (key : Bytes) (level : Nat) (params : ShapeParams) (count node_bytes : Nat) :
    Except PyError Bool :=
  let over_byte_budget : Bool := node_bytes ≥ params.max_node_bytes
  if count < params.min_entries ∧ ¬ over_byte_budget then pure false
  else if over_byte_budget ∨ count ≥ params.max_entries then pure true
  else is_boundary blake3 key level params

/-- The loop of `partition` from `index` on; the result is `ends` and `start` as the loop leaves them. -/
def partition_loop (level : Nat) (params : ShapeParams) :
    List (Bytes × Nat) → (index start node_bytes : Nat) → List Nat → Except PyError (List Nat × Nat)
  | [], _, start, _, ends => pure (ends, start)
  | (key, entry_bytes) :: rest, index, start, node_bytes, ends => do
    let node_bytes := node_bytes + entry_bytes
    let count := index - start + 1
    let closes ← ends_node blake3 key level params count node_bytes
    if closes then partition_loop level params rest (index + 1) (index + 1) 0 (ends ++ [index + 1])
    else partition_loop level params rest (index + 1) start node_bytes ends

def ensure_no_lonely_tail (ends : List Nat) : List Nat :=
  match ends.reverse with
  | last :: second :: earlier =>
    let tail := last - second
    if tail ≥ MIN_INTERIOR_CHILDREN then ends
    else
      let previous_start := earlier.headD 0
      let borrowable : Int := ((second : Int) - previous_start) - MIN_INTERIOR_CHILDREN
      let needed := MIN_INTERIOR_CHILDREN - tail
      if borrowable ≥ needed then earlier.reverse ++ [second - needed, last]
      else earlier.reverse ++ [last]
  | _ => ends

def partition (keys : List Bytes) (entry_bytes : List Nat) (level : Nat) (params : ShapeParams) :
    Except PyError (List Nat) := do
  ensure (keys.length = entry_bytes.length) (.valueError "keys and entry_bytes must be the same length")
  let (ends, start) ← partition_loop blake3 level params (keys.zip entry_bytes) 0 0 0 []
  let ends := if start < keys.length then ends ++ [keys.length] else ends
  return if level > 0 then ensure_no_lonely_tail ends else ends

/-! ## Partition as runs of keyed values -/

section Partition

variable {α : Type} (key : α → Bytes) (size : α → Nat)

def run_bytes (run : List α) : Nat := (run.map size).sum

def content_closes (level : Nat) (params : ShapeParams) (run : List α) : Bool :=
  params.min_entries ≤ run.length ∧
    (params.max_entries ≤ run.length ∨ ∃ last ∈ run.getLast?,
      Wire.ofBE (blake3.digest (params.domain ++ [UInt8.ofNat level] ++ key last) 8) % params.period = 0)

def closes (level : Nat) (params : ShapeParams) (run : List α) : Bool :=
  params.max_node_bytes ≤ run_bytes size run ∨ content_closes blake3 key level params run

/-- `_ensure_no_lonely_tail` on the runs themselves. -/
def settle (runs : List (List α)) : List (List α) :=
  match runs.reverse with
  | last :: second :: earlier =>
    if MIN_INTERIOR_CHILDREN ≤ last.length then runs
    else if MIN_INTERIOR_CHILDREN < second.length then
      earlier.reverse ++ [second.dropLast, second.getLast?.toList ++ last]
    else earlier.reverse ++ [second ++ last]
  | _ => runs

theorem settle_concat (earlier : List (List α)) (second last : List α) :
    settle (earlier ++ [second, last]) =
      if MIN_INTERIOR_CHILDREN ≤ last.length then earlier ++ [second, last]
      else if MIN_INTERIOR_CHILDREN < second.length then
        earlier ++ [second.dropLast, second.getLast?.toList ++ last]
      else earlier ++ [second ++ last] := by
  simp [settle]

theorem settle_few {runs : List (List α)} (few : runs.length < 2) : settle runs = runs := by
  match runs, few with
  | [], _ => rfl
  | [_], _ => rfl

theorem ensure_no_lonely_tail_runs (runs : List (List α)) (nonempty : ∀ run ∈ runs, run ≠ []) :
    ensure_no_lonely_tail (Runs.offsets 0 runs) = Runs.offsets 0 (settle runs) := by
  rcases List.eq_nil_or_concat' runs with rfl | ⟨front, last, rfl⟩
  next => rfl
  next =>
    rcases List.eq_nil_or_concat' front with rfl | ⟨earlier, second, rfl⟩
    next => rfl
    next =>
      have lastPositive := List.length_pos_of_ne_nil (nonempty last (by simp))
      have ends : Runs.offsets 0 (earlier ++ [second, last]) =
          Runs.offsets 0 earlier ++ [earlier.flatten.length + second.length,
            earlier.flatten.length + second.length + last.length] := by
        simp [Runs.offsets_append, Runs.offsets]
      have start := Runs.last_offset 0 earlier
      rw [Nat.zero_add] at start
      simp only [List.append_assoc, List.cons_append, List.nil_append]
      rw [settle_concat, ensure_no_lonely_tail, ends]
      simp only [List.reverse_append, List.reverse_cons, List.reverse_nil, List.nil_append, List.cons_append,
        start, List.reverse_reverse]
      have two : MIN_INTERIOR_CHILDREN = 2 := rfl
      by_cases enough : MIN_INTERIOR_CHILDREN ≤ last.length
      next =>
        rw [if_pos (by omega), if_pos enough, ends]
      next =>
        have single : last.length = 1 := by omega
        rw [if_neg (by omega), if_neg enough]
        by_cases spare : MIN_INTERIOR_CHILDREN < second.length
        next =>
          have kept : second.getLast?.toList.length = 1 := by
            cases second with
            | nil => simp only [List.length_nil] at spare; omega
            | cons head tail => rfl
          rw [if_pos (by omega), if_pos spare]
          simp only [Runs.offsets_append, Runs.offsets, List.length_dropLast, List.length_append, kept, single,
            Nat.zero_add, List.append_cancel_left_eq, List.cons.injEq, and_true]
          omega
        next =>
          rw [if_neg (by omega), if_neg spare]
          simp [Runs.offsets_append, Runs.offsets, Nat.add_assoc]

theorem run_bytes_concat (run : List α) (value : α) :
    run_bytes size (run ++ [value]) = run_bytes size run + size value := by
  simp [run_bytes]

theorem is_boundary_ok (k : Bytes) {level : Nat} (params : ShapeParams) (low : level ≤ MAX_LEVEL) :
    is_boundary blake3 k level params = .ok
      (Wire.ofBE (blake3.digest (params.domain ++ [UInt8.ofNat level] ++ k) 8) % params.period = 0 : Bool) := by
  simp only [is_boundary, ensure, if_pos low]
  rfl

theorem is_boundary_high (k : Bytes) {level : Nat} (params : ShapeParams) (high : ¬ level ≤ MAX_LEVEL) :
    is_boundary blake3 k level params = .error (.valueError s!"level out of range: {level}") := by
  simp only [is_boundary, ensure, if_neg high]
  rfl

theorem ends_node_closes (level : Nat) (params : ShapeParams) (run : List α) (value : α) :
    let result := ends_node blake3 (key value) level params (run.length + 1) (run_bytes size run + size value)
    result = .ok (closes blake3 key size level params (run ++ [value])) ∨
      MAX_LEVEL < level ∧ ∃ error, result = .error error := by
  intro result
  have ordered := params.entries_ordered
  have bytes := run_bytes_concat size run value
  have length : (run ++ [value]).length = run.length + 1 := List.length_append
  simp only [result, ends_node, closes, content_closes, ← bytes, length, List.getLast?_concat]
  by_cases heavy : params.max_node_bytes ≤ run_bytes size (run ++ [value])
  next => simp [heavy, pure, Except.pure]
  next =>
    by_cases few : run.length + 1 < params.min_entries
    next =>
      have short : ¬ params.min_entries ≤ run.length + 1 := by omega
      simp [heavy, few, short, pure, Except.pure]
    next =>
      have enough : params.min_entries ≤ run.length + 1 := by omega
      by_cases many : params.max_entries ≤ run.length + 1
      next => simp [heavy, few, enough, many, pure, Except.pure]
      next =>
        by_cases low : level ≤ MAX_LEVEL
        next => simp [heavy, few, enough, many, is_boundary_ok blake3 _ params low]
        next =>
          refine .inr ⟨by omega, .valueError s!"level out of range: {level}", ?_⟩
          simp only [heavy, few, many, decide_false, Bool.false_eq_true, false_and, or_self, if_false,
            is_boundary_high blake3 _ params low]

/-- The loop cuts the runs, unless a boundary is asked for above `MAX_LEVEL`. -/
theorem partition_loop_runs (level : Nat) (params : ShapeParams) (values : List α) (state : Runs.State α) :
    let final := values.foldl (Runs.step (closes blake3 key size level params)) state
    let result := partition_loop blake3 level params (values.map fun value => (key value, size value))
      (state.closed.flatten.length + state.pending.length) state.closed.flatten.length
      (run_bytes size state.pending) (Runs.offsets 0 state.closed)
    result = .ok (Runs.offsets 0 final.closed, final.closed.flatten.length) ∨
      MAX_LEVEL < level ∧ ∃ error, result = .error error := by
  induction values generalizing state with
  | nil => exact .inl rfl
  | cons value values ih =>
    intro final result
    have count : state.closed.flatten.length + state.pending.length - state.closed.flatten.length + 1 =
        state.pending.length + 1 := by omega
    have next := ih (Runs.step (closes blake3 key size level params) state value)
    rcases ends_node_closes blake3 key size level params state.pending value with
      decided | ⟨high, error, failed⟩
    next =>
      simp only [result, List.map_cons, partition_loop, count, decided]
      simp only [final, List.foldl_cons]
      by_cases closing : closes blake3 key size level params (state.pending ++ [value])
      next =>
        rw [Runs.step, if_pos closing] at next ⊢
        simp only [closing, bind, Except.bind, if_true]
        simpa [Runs.offsets_append, Runs.offsets, run_bytes, Nat.add_assoc] using next
      next =>
        rw [Runs.step, if_neg closing] at next ⊢
        simp only [closing, bind, Except.bind]
        simpa [run_bytes_concat, Nat.add_assoc] using next
    next =>
      refine .inr ⟨high, error, ?_⟩
      simp only [result, List.map_cons, partition_loop, count, failed]
      rfl

theorem settle_flatten (runs : List (List α)) : (settle runs).flatten = runs.flatten := by
  rcases List.eq_nil_or_concat' runs with rfl | ⟨front, last, rfl⟩
  next => rfl
  next =>
    rcases List.eq_nil_or_concat' front with rfl | ⟨earlier, second, rfl⟩
    next => rfl
    next =>
      simp only [List.append_assoc, List.cons_append, List.nil_append]
      rw [settle_concat]
      split
      next => rfl
      next =>
        split
        next =>
          have whole : second.dropLast ++ second.getLast?.toList = second := by
            cases second using List.reverseRecOn <;> simp
          simp [← List.append_assoc, whole]
        next => simp

theorem settle_nonempty {runs : List (List α)} (nonempty : ∀ run ∈ runs, run ≠ []) : ∀ run ∈ settle runs, run ≠ [] := by
  rcases List.eq_nil_or_concat' runs with rfl | ⟨front, last, rfl⟩
  next => exact nonempty
  next =>
    rcases List.eq_nil_or_concat' front with rfl | ⟨earlier, second, rfl⟩
    next => exact nonempty
    next =>
      simp only [List.append_assoc, List.cons_append, List.nil_append] at nonempty ⊢
      rw [List.forall_mem_append, List.forall_mem_cons, List.forall_mem_singleton] at nonempty
      obtain ⟨others, some, ends⟩ := nonempty
      rw [settle_concat]
      split_ifs with enough room
      next =>
        rw [List.forall_mem_append, List.forall_mem_cons, List.forall_mem_singleton]
        exact ⟨others, some, ends⟩
      next =>
        have left : second.dropLast ≠ [] := by
          rw [MIN_INTERIOR_CHILDREN] at room
          refine List.ne_nil_of_length_pos ?_
          rw [List.length_dropLast]
          omega
        rw [List.forall_mem_append, List.forall_mem_cons, List.forall_mem_singleton]
        exact ⟨others, left, List.append_ne_nil_of_right_ne_nil _ ends⟩
      next =>
        rw [List.forall_mem_append, List.forall_mem_singleton]
        exact ⟨others, List.append_ne_nil_of_right_ne_nil _ ends⟩

/-- The runs between the ends that `partition` returns. -/
def partition_runs (level : Nat) (params : ShapeParams) (values : List α) : List (List α) :=
  let runs := (Runs.scan (closes blake3 key size level params) values).all
  if level > 0 then settle runs else runs

theorem partition_runs_flatten (level : Nat) (params : ShapeParams) (values : List α) :
    (partition_runs blake3 key size level params values).flatten = values := by
  have whole := Runs.scan_flatten (closes blake3 key size level params) values
  rw [← Runs.all_flatten] at whole
  rw [partition_runs]
  split
  next => rw [settle_flatten, whole]
  next => exact whole

theorem partition_runs_nonempty (level : Nat) (params : ShapeParams) (values : List α) :
    ∀ run ∈ partition_runs blake3 key size level params values, run ≠ [] := by
  have nonempty := Runs.all_nonempty (closes blake3 key size level params) values
  rw [partition_runs]
  split
  next => exact settle_nonempty nonempty
  next => exact nonempty

theorem partition_runs_ne_nil (level : Nat) (params : ShapeParams) {values : List α} (nonempty : values ≠ []) :
    partition_runs blake3 key size level params values ≠ [] := by
  intro none
  apply nonempty
  rw [← partition_runs_flatten blake3 key size level params values, none]
  rfl

theorem final_end (state : Runs.State α) {total : Nat}
    (whole : state.closed.flatten.length + state.pending.length = total) :
    (if state.closed.flatten.length < total then Runs.offsets 0 state.closed ++ [total]
      else Runs.offsets 0 state.closed) = Runs.offsets 0 state.all := by
  rw [Runs.State.all]
  by_cases empty : state.pending = []
  next =>
    rw [empty, List.length_nil] at whole
    rw [if_neg (by omega), if_pos empty]
  next =>
    have positive := List.length_pos_of_ne_nil empty
    rw [if_pos (by omega), if_neg empty, Runs.offsets_append, Runs.offsets, Runs.offsets, Nat.zero_add, whole]

theorem partition_ok (level : Nat) (params : ShapeParams) (values : List α) :
    let result := partition blake3 (values.map key) (values.map size) level params
    result = .ok (Runs.offsets 0 (partition_runs blake3 key size level params values)) ∨
      MAX_LEVEL < level ∧ ∃ error, result = .error error := by
  intro result
  have nonempty := Runs.all_nonempty (closes blake3 key size level params) values
  have whole := congrArg List.length (Runs.scan_flatten (closes blake3 key size level params) values)
  have zipped : (values.map key).zip (values.map size) = values.map fun value => (key value, size value) :=
    List.zip_map'
  have loop := partition_loop_runs blake3 key size level params values ⟨[], []⟩
  simp only [result, partition, ensure, List.length_map, zipped, if_true]
  rw [List.length_append] at whole
  rcases loop with done | ⟨high, error, failed⟩
  next =>
    refine .inl ?_
    change partition_loop blake3 level params _ 0 0 0 [] = _ at done
    simp only [done, bind, Except.bind, pure, Except.pure, Except.ok.injEq]
    rw [← Runs.scan, final_end _ whole, partition_runs]
    split
    next => rw [ensure_no_lonely_tail_runs _ nonempty]
    next => rfl
  next =>
    refine .inr ⟨high, error, ?_⟩
    change partition_loop blake3 level params _ 0 0 0 [] = _ at failed
    simp only [failed, bind, Except.bind]

end Partition

/-! ## Builders -/

/-- A builder's state is what it has handed to `emit` so far. -/
abbrev Emitting := StateT (List (ObjectName × Bytes)) (Except PyError)

def emit_node (node : LedgerObject) : Emitting ObjectName := do
  let framed ← encode node
  let name := name_of_encoded blake3 framed
  modify (· ++ [(name, framed)])
  return name

def tree_entry_bytes (entry : TreeEntry) : Nat := 1 + entry.name.length + 1 + 32 + 2 + 8

def reject_unsorted : List TreeEntry → Except PyError Unit
  | previous :: current :: entries => do
    ensure (¬ current.name ≤ previous.name)
      (.valueError
        "tree entries must be sorted and unique before building; sorting here would mask a caller that assembled its listing wrong")
    reject_unsorted (current :: entries)
  | _ => pure ()

/-- The loop over `ends`: one node for each run, and the entry that stands for it one level up. -/
def build_tree_nodes (level : Nat) (current : List TreeEntry) : (start : Nat) → List Nat → Emitting (List TreeEntry)
  | _, [] => return []
  | start, stop :: ends => do
    let run := (current.drop start).take (stop - start)
    let name ← emit_node blake3 (.tree ⟨level, run⟩)
    let node : TreeEntry := ⟨(run.getLast?.map TreeEntry.name).getD [], .tree, name, 0, 0⟩
    let nodes ← build_tree_nodes level current stop ends
    return node :: nodes

/-- The loop over levels. Nodes above `MAX_LEVEL` cannot be encoded, so it takes at most
`MAX_LEVEL + 2` rounds. -/
def build_tree_levels (params : ShapeParams) : (rounds : Nat) → (level : Nat) → List TreeEntry → Emitting ObjectName
  | 0, _, _ => throw (.assertionError "unreachable")
  | rounds + 1, level, current => do
    let ends ← partition blake3 (current.map TreeEntry.name) (current.map tree_entry_bytes) level params
    let nodes ← build_tree_nodes blake3 level current 0 ends
    match nodes with
    | [node] => return node.target
    | _ => build_tree_levels params rounds (level + 1) nodes

def build_tree (entries : List TreeEntry) (params : ShapeParams) : Emitting ObjectName := do
  if entries = [] then emit_node blake3 (.tree ⟨0, []⟩)
  else
    reject_unsorted entries
    build_tree_levels blake3 params (MAX_LEVEL + 2) 0 entries

end LedgerVcs
