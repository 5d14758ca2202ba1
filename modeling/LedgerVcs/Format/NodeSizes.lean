import LedgerVcs.Format.RoundTrip
import LedgerVcs.Format.Shape

set_option autoImplicit false

/-!
# Which directories fit in nodes

A node closes once its entries reach the byte budget, but the codec counts its header too. A level is
therefore written without error exactly when its names, cut by content alone, stay seven bytes below
the limit.
-/

namespace LedgerVcs

open Wire (Bytes)

variable (blake3 : Blake3)

/-- The bytes before the entries: kind, version, level and count. -/
def NODE_HEADER_BYTES : Nat := HEADER_BYTES + 1 + 4

def name_bytes (name : Bytes) : Nat := 1 + name.length + 1 + 32 + 2 + 8

def FitsNode (run : List Bytes) : Prop := NODE_HEADER_BYTES + run_bytes name_bytes run ≤ MAX_NODE_BYTES

instance (run : List Bytes) : Decidable (FitsNode run) := inferInstanceAs (Decidable (_ ≤ _))

/-- The cut by hash boundaries and entry counts, without the byte budget. -/
def content_scan (level : Nat) (names : List Bytes) : Runs.State Bytes :=
  Runs.scan (content_closes blake3 id level PRODUCTION_SHAPE) names

def ends_production_node (level : Nat) (run : List Bytes) : Bool :=
  closes blake3 id name_bytes level PRODUCTION_SHAPE run

/-- The nodes of a level if the byte budget never mattered. Above level 0 the last two names make a
node of their own when the name before the last one ends a node. -/
def content_nodes (level : Nat) (names : List Bytes) : List (List Bytes) :=
  match names.reverse with
  | last :: second :: front =>
    let before := content_scan blake3 level front.reverse
    if level > 0 ∧ ends_production_node blake3 level (before.pending ++ [second]) then
      before.all ++ [[second, last]]
    else (content_scan blake3 level names).all
  | _ => (content_scan blake3 level names).all

/-- Every node of every level fits, in at most `levels` levels from `level` on. -/
def FitsLevels : (levels : Nat) → (level : Nat) → List Bytes → Prop
  | 0, _, _ => False
  | levels + 1, level, names =>
    let nodes := content_nodes blake3 level names
    (∀ run ∈ nodes, FitsNode run) ∧
      (nodes.length ≤ 1 ∨ FitsLevels levels (level + 1) (nodes.map fun run => run.getLastD []))

/-! ## One level -/

theorem exists_last_two {names : List Bytes} (enough : 2 ≤ names.length) :
    ∃ front second last, names = front ++ [second, last] := by
  obtain ⟨init, last, rfl⟩ := (List.eq_nil_or_concat' names).resolve_left (by rintro rfl; simp at enough)
  obtain ⟨front, second, rfl⟩ := (List.eq_nil_or_concat' init).resolve_left (by rintro rfl; simp at enough)
  exact ⟨front, second, last, List.append_assoc ..⟩

def ShortNames (names : List Bytes) : Prop := ∀ name ∈ names, name.length ≤ MAX_ENTRY_NAME_BYTES

theorem run_bytes_small {run : List Bytes} (short : ShortNames run) : run_bytes name_bytes run ≤ 299 * run.length := by
  induction run with
  | nil => exact Nat.le_refl _
  | cons name run ih =>
    obtain ⟨first, others⟩ := List.forall_mem_cons.mp short
    have rest := ih others
    simp only [run_bytes, List.map_cons, List.sum_cons, name_bytes, List.length_cons, MAX_ENTRY_NAME_BYTES] at *
    omega

theorem production_node_long {level : Nat} {run : List Bytes} (short : ShortNames run)
    (ends : ends_production_node blake3 level run) : 64 ≤ run.length := by
  have small := run_bytes_small short
  simp only [ends_production_node, closes, content_closes, Bool.decide_or, Bool.or_eq_true, decide_eq_true_eq] at ends
  change MAX_NODE_BYTES ≤ _ ∨ SPLIT_MIN_ENTRIES ≤ _ ∧ _ at ends
  simp only [MAX_NODE_BYTES, SPLIT_MIN_ENTRIES] at ends
  omega

/-- The runs of a level above 0 from those of all but its last two names. -/
def add_last_two (level : Nat) (before : Runs.State Bytes) (second last : Bytes) : List (List Bytes) :=
  if ends_production_node blake3 level (before.pending ++ [second]) then before.all ++ [[second, last]]
  else before.closed ++ [before.pending ++ [second, last]]

theorem content_nodes_concat {level : Nat} (above : 0 < level) (front : List Bytes) (second last : Bytes) :
    content_nodes blake3 level (front ++ [second, last]) =
      add_last_two blake3 level (content_scan blake3 level front) second last := by
  simp only [content_nodes, List.reverse_append, List.reverse_cons, List.reverse_nil, List.nil_append,
    List.cons_append, List.reverse_reverse, above, true_and, add_last_two]
  split
  next => rfl
  next continues =>
    have stays : content_closes blake3 id level PRODUCTION_SHAPE
        ((content_scan blake3 level front).pending ++ [second]) = false := by
      simp only [ends_production_node, closes, Bool.decide_or, Bool.or_eq_true, decide_eq_true_eq] at continues
      simpa using fun content => continues (.inr content)
    rw [List.append_cons front, content_scan, Runs.scan_concat, Runs.scan_concat, Runs.step_all_open, ← content_scan,
      Runs.step, stays]
    simp

theorem partition_runs_production (level : Nat) (names : List Bytes) :
    partition_runs blake3 id name_bytes level PRODUCTION_SHAPE names =
      let runs := (Runs.scan (ends_production_node blake3 level) names).all
      if level > 0 then settle runs else runs := rfl

theorem partition_runs_concat {level : Nat} (above : 0 < level) {front : List Bytes} {second last : Bytes}
    (short : ShortNames (front ++ [second, last])) :
    partition_runs blake3 id name_bytes level PRODUCTION_SHAPE (front ++ [second, last]) =
      add_last_two blake3 level (Runs.scan (ends_production_node blake3 level) front) second last := by
  have pending_short : ShortNames ((Runs.scan (ends_production_node blake3 level) front).pending ++ [second, last]) := by
    intro name member
    apply short
    have whole := Runs.scan_flatten (ends_production_node blake3 level) front
    rw [← whole]
    simp only [List.mem_append] at member ⊢
    rcases member with pending | two
    next => exact .inl (.inr pending)
    next => exact .inr two
  rw [partition_runs_production]
  simp only [gt_iff_lt, above, if_true]
  rw [add_last_two, List.append_cons front, Runs.scan_concat, Runs.step_all_open, Runs.scan_concat, Runs.step]
  split
  next ends =>
    have long := production_node_long blake3
      (fun name member => pending_short name (by simp at member ⊢; tauto)) ends
    have two : MIN_INTERIOR_CHILDREN = 2 := rfl
    rw [List.length_append, List.length_singleton] at long
    have started : (Runs.scan (ends_production_node blake3 level) front).pending ≠ [] := by
      intro empty
      rw [empty, List.length_nil] at long
      omega
    rw [List.append_assoc, List.singleton_append, settle_concat,
      if_neg (by simp only [List.nil_append, List.length_singleton]; omega),
      if_pos (by rw [List.length_append, List.length_singleton]; omega), Runs.State.all, if_neg started]
    simp
  next =>
    rcases List.eq_nil_or_concat' (Runs.scan (ends_production_node blake3 level) front).closed with none | ⟨earlier, final, some⟩
    next => simp [none, settle]
    next =>
      rw [some, List.append_assoc, List.singleton_append, settle_concat, if_pos (by simp [MIN_INTERIOR_CHILDREN])]
      simp

theorem budget_agrees {level : Nat} (run : List Bytes) (light : run_bytes name_bytes run < MAX_NODE_BYTES) :
    ends_production_node blake3 level run = content_closes blake3 id level PRODUCTION_SHAPE run := by
  have notFull : ¬ PRODUCTION_SHAPE.max_node_bytes ≤ run_bytes name_bytes run := Nat.not_le.mpr light
  simp [ends_production_node, closes, notFull]

theorem lighter (run : List Bytes) (name : Bytes) (light : run_bytes name_bytes (run ++ [name]) < MAX_NODE_BYTES) :
    run_bytes name_bytes run < MAX_NODE_BYTES := by
  rw [run_bytes_concat] at light
  omega

theorem fits_light {run : List Bytes} (fits : FitsNode run) : run_bytes name_bytes run < MAX_NODE_BYTES := by
  simp only [FitsNode, NODE_HEADER_BYTES] at fits
  omega

theorem add_last_two_light {level : Nat} {before : Runs.State Bytes} {second last : Bytes}
    (fits : ∀ run ∈ add_last_two blake3 level before second last, FitsNode run) :
    ∀ run ∈ before.all, run_bytes name_bytes run < MAX_NODE_BYTES := by
  rw [add_last_two] at fits
  intro run member
  split at fits
  next => exact fits_light (fits run (List.mem_append_left _ member))
  next =>
    rcases Runs.mem_all.mp member with closed | ⟨rfl, -⟩
    next => exact fits_light (fits run (List.mem_append_left _ closed))
    next =>
      have whole := fits_light (fits _ (List.mem_append_right _ (List.mem_singleton.mpr rfl)))
      rw [List.append_cons] at whole
      exact lighter _ _ (lighter _ _ whole)

theorem level_exact {level : Nat} {names : List Bytes} (short : ShortNames names) (enough : level = 0 ∨ 2 ≤ names.length) :
    let cut := partition_runs blake3 id name_bytes level PRODUCTION_SHAPE names
    let content := content_nodes blake3 level names
    (∀ run ∈ cut, FitsNode run) ∨ (∀ run ∈ content, FitsNode run) → cut = content := by
  intro cut content fits
  have same (front : List Bytes) (light : (∀ run ∈ (Runs.scan (ends_production_node blake3 level) front).all,
        run_bytes name_bytes run < MAX_NODE_BYTES) ∨
      ∀ run ∈ (content_scan blake3 level front).all, run_bytes name_bytes run < MAX_NODE_BYTES) :
      Runs.scan (ends_production_node blake3 level) front = content_scan blake3 level front := by
    rcases light with budget | plain
    next => exact Runs.scan_agree lighter (fun run => budget_agrees blake3 run) budget
    next => exact (Runs.scan_agree lighter (fun run light => (budget_agrees blake3 run light).symm) plain).symm
  by_cases ground : level = 0
  next =>
    subst ground
    have flat : content = (content_scan blake3 0 names).all := by
      simp only [content, content_nodes]
      split <;> simp
    have cutFlat : cut = (Runs.scan (ends_production_node blake3 0) names).all :=
      (partition_runs_production blake3 0 names).trans (if_neg (by omega))
    rw [cutFlat, flat] at fits ⊢
    rw [same names (fits.imp (fun all run member => fits_light (all run member))
      fun all run member => fits_light (all run member))]
  next =>
    obtain ⟨front, second, last, rfl⟩ := exists_last_two (enough.resolve_left ground)
    have cutTwo := partition_runs_concat blake3 (Nat.pos_of_ne_zero ground) short
    have contentTwo := content_nodes_concat blake3 (Nat.pos_of_ne_zero ground) front second last
    simp only [cut, content] at fits ⊢
    rw [cutTwo, contentTwo] at fits ⊢
    rw [same front (fits.imp (add_last_two_light blake3) (add_last_two_light blake3))]

/-- Above level 0 the cut leaves no node with a single child. -/
theorem cut_children {level : Nat} {names : List Bytes} (short : ShortNames names) (above : 0 < level)
    (enough : 2 ≤ names.length) :
    ∀ run ∈ partition_runs blake3 id name_bytes level PRODUCTION_SHAPE names, 2 ≤ run.length := by
  obtain ⟨front, second, last, rfl⟩ := exists_last_two enough
  rw [partition_runs_concat blake3 above short, add_last_two]
  have whole := Runs.scan_flatten (ends_production_node blake3 level) front
  have short_front : ShortNames front := fun name member => short name (List.mem_append_left _ member)
  have closed_long : ∀ run ∈ (Runs.scan (ends_production_node blake3 level) front).closed, 2 ≤ run.length := by
    intro run member
    have ends := (Runs.closed_correct (ends_production_node blake3 level) front run member).1
    have short_run : ShortNames run := fun name inside => short_front name (by
      rw [← whole]
      exact List.mem_append_left _ (List.mem_flatten.mpr ⟨run, member, inside⟩))
    have long := production_node_long blake3 short_run ends
    omega
  split
  next ends =>
    have short_pending : ShortNames ((Runs.scan (ends_production_node blake3 level) front).pending ++ [second]) := by
      intro name member
      rcases List.mem_append.mp member with pending | two
      next => exact short_front name (whole ▸ List.mem_append_right _ pending)
      next => exact short name (by simp [List.mem_singleton.mp two])
    have long := production_node_long blake3 short_pending ends
    rw [List.length_append, List.length_singleton] at long
    intro run member
    rcases List.mem_append.mp member with earlier | two
    next =>
      rcases Runs.mem_all.mp earlier with closed | ⟨rfl, -⟩
      next => exact closed_long run closed
      next => omega
    next => rw [List.mem_singleton.mp two]; exact Nat.le_refl 2
  next =>
    intro run member
    rcases List.mem_append.mp member with closed | two
    next => exact closed_long run closed
    next => rw [List.mem_singleton.mp two, List.length_append]; exact Nat.le_add_left ..

/-! ## The nodes of one level -/

/-- An entry that any node of this level can hold. -/
def ValidAt (level : Nat) (entry : TreeEntry) : Prop :=
  validate_entry_name entry.name = .ok () ∧ validate_tree_entry_fields level entry = .ok () ∧ Fits.treeEntry entry

def Ascending (entries : List TreeEntry) : Prop := entries.Pairwise fun left right => left.name < right.name

theorem validate_entries_ok {level : Nat} {entries : List TreeEntry} {previous : Option Bytes}
    (valid : ∀ entry ∈ entries, ValidAt level entry) (ascending : Ascending entries)
    (after : ∀ before ∈ previous, ∀ entry ∈ entries, before < entry.name) :
    validate_tree_entries_from level previous entries = .ok () := by
  induction entries generalizing previous with
  | nil => rfl
  | cons entry entries ih =>
    obtain ⟨first, others⟩ := List.forall_mem_cons.mp valid
    obtain ⟨below, rest⟩ := List.pairwise_cons.mp ascending
    have tail := @ih (some entry.name) others rest (by simpa using below)
    simp only [validate_tree_entries_from, Monads.except_bind_ok, ensure_ok, tail, first.1, first.2.1]
    simpa using fun before member => after before member entry List.mem_cons_self

theorem layout_entries_length (entries : List TreeEntry) :
    (entries.flatMap Layout.treeEntry).length = run_bytes tree_entry_bytes entries := by
  induction entries with
  | nil => rfl
  | cons entry entries ih =>
    have digest : entry.target.digest.length = 32 := entry.target.sized
    rw [List.flatMap_cons, List.length_append, ih]
    simp only [Layout.treeEntry, Layout.sized, List.length_append, Wire.length_toBE, digest, run_bytes,
      tree_entry_bytes, List.map_cons, List.sum_cons]

theorem node_encodes {level : Nat} {run : List TreeEntry} (valid : ∀ entry ∈ run, ValidAt level entry)
    (ascending : Ascending run) (nonempty : run ≠ []) (low : level ≤ MAX_LEVEL) (children : 0 < level → 2 ≤ run.length) :
    (∃ framed, encode (.tree ⟨level, run⟩) = .ok framed) ↔ FitsNode (run.map TreeEntry.name) := by
  have size : HEADER_BYTES + (Layout.tree ⟨level, run⟩).length =
      NODE_HEADER_BYTES + run_bytes name_bytes (run.map TreeEntry.name) := by
    have entries := layout_entries_length run
    simp only [Layout.tree, Layout.node, List.length_append, Wire.length_toBE, entries, NODE_HEADER_BYTES, run_bytes,
      List.map_map]
    have each : name_bytes ∘ TreeEntry.name = tree_entry_bytes := rfl
    rw [each]
    simp only [Nat.add_assoc]
  simp only [encode_ok, exists_and_left, exists_eq, and_true, Fits.object, size]
  refine and_iff_right_of_imp fun small => ?_
  have count : run.length ≤ run_bytes name_bytes (run.map TreeEntry.name) := by
    have each := List.length_le_sum_of_one_le ((run.map TreeEntry.name).map name_bytes) (by simp [name_bytes])
    simpa [run_bytes] using each
  have positive := List.length_pos_of_ne_nil nonempty
  refine ⟨⟨⟨Int.natCast_nonneg _, ?_⟩, ?_, ?_⟩, fun entry member => (valid entry member).2.2, ?_⟩
  next => simp only [MAX_LEVEL] at low; simp only [U8_MAX]; omega
  next => simp only [MAX_NODE_BYTES] at small; simp only [U32_MAX]; omega
  next =>
    simp only [validate_node_level, Monads.except_bind_ok, ensure_ok]
    exact ⟨(), by omega, by omega⟩
  next => exact validate_entries_ok valid ascending (by simp)

theorem settle_map {α β : Type} (f : α → β) (runs : List (List α)) :
    settle (runs.map (List.map f)) = (settle runs).map (List.map f) := by
  rcases List.eq_nil_or_concat' runs with rfl | ⟨front, last, rfl⟩
  next => rfl
  next =>
    rcases List.eq_nil_or_concat' front with rfl | ⟨earlier, second, rfl⟩
    next => rfl
    next =>
      simp only [List.append_assoc, List.cons_append, List.nil_append, List.map_append, List.map_cons, List.map_nil]
      rw [settle_concat, settle_concat, List.length_map, List.length_map]
      split
      next => simp
      next =>
        split
        next =>
          have last_map : (second.getLast?.map f).toList = second.getLast?.toList.map f := by
            cases second.getLast? <;> rfl
          simp [last_map]
        next => simp

theorem partition_runs_names (level : Nat) (params : ShapeParams) (entries : List TreeEntry) :
    (partition_runs blake3 TreeEntry.name tree_entry_bytes level params entries).map (List.map TreeEntry.name) =
      partition_runs blake3 id name_bytes level params (entries.map TreeEntry.name) := by
  have same : (fun run : List TreeEntry => closes blake3 id name_bytes level params (run.map TreeEntry.name)) =
      closes blake3 TreeEntry.name tree_entry_bytes level params := by
    funext run
    have bytes : run_bytes name_bytes (run.map TreeEntry.name) = run_bytes tree_entry_bytes run := by
      rw [run_bytes, List.map_map]
      rfl
    simp [closes, content_closes, bytes, List.getLast?_map]
  simp only [partition_runs, Runs.scan_map, same, Runs.State.all_map]
  split
  next => rw [settle_map]
  next => rfl

theorem emit_node_ok {node : LedgerObject} {emitted out : List (ObjectName × Bytes)} {name : ObjectName} :
    emit_node blake3 node emitted = .ok (name, out) ↔
      ∃ framed, encode node = .ok framed ∧ name = name_of_encoded blake3 framed ∧ out = emitted ++ [(name, framed)] := by
  simp only [emit_node, Monads.bind_ok, Monads.liftM_ok, Monads.modify_ok, Monads.pure_ok]
  constructor
  next =>
    rintro ⟨framed, _, ⟨encoded, rfl⟩, _, _, rfl, rfl, rfl⟩
    exact ⟨framed, encoded, rfl, rfl⟩
  next =>
    rintro ⟨framed, encoded, rfl, rfl⟩
    exact ⟨framed, emitted, ⟨encoded, rfl⟩, ⟨⟩, _, rfl, rfl, rfl⟩

/-- A pair of a name and bytes that `emit` may receive. -/
def Emitted (pair : ObjectName × Bytes) : Prop :=
  pair.1 = name_of_encoded blake3 pair.2 ∧ ∃ node : Tree, encode (.tree node) = .ok pair.2

/-- An entry that stands for a node of the level below. -/
def Bare (entry : TreeEntry) : Prop := entry.kind = .tree ∧ entry.mode = 0 ∧ entry.size = 0

theorem slice_head {α : Type} (front run : List α) (rest : List (List α)) :
    ((front ++ (run :: rest).flatten).drop front.length).take (front.length + run.length - front.length) = run := by
  simp

theorem build_tree_nodes_written {level : Nat} (front : List TreeEntry) (runs : List (List TreeEntry))
    {emitted out : List (ObjectName × Bytes)} {nodes : List TreeEntry}
    (built : build_tree_nodes blake3 level (front ++ runs.flatten) front.length (Runs.offsets front.length runs)
      emitted = .ok (nodes, out)) :
    (∀ run ∈ runs, ∃ framed, encode (.tree ⟨level, run⟩) = .ok framed) ∧
      nodes.map TreeEntry.name = runs.map (fun run => (run.map TreeEntry.name).getLastD []) ∧
      (∀ node ∈ nodes, Bare node) ∧
      ∃ added, out = emitted ++ added ∧ ∀ pair ∈ added, Emitted blake3 pair := by
  induction runs generalizing front emitted nodes with
  | nil =>
    obtain ⟨rfl, rfl⟩ := Monads.pure_ok.mp built
    simp
  | cons run runs ih =>
    rw [Runs.offsets, build_tree_nodes] at built
    simp only [slice_head, Monads.bind_ok, emit_node_ok, Monads.pure_ok] at built
    obtain ⟨name, middle, ⟨framed, encoded, rfl, rfl⟩, rest, _, others, rfl, rfl⟩ := built
    have later := ih (front ++ run) (by simpa using others)
    obtain ⟨encodable, names, bare, added, rfl, decodable⟩ := later
    refine ⟨?_, ?_, ?_, (name_of_encoded blake3 framed, framed) :: added, by simp, ?_⟩
    next => exact List.forall_mem_cons.mpr ⟨⟨framed, encoded⟩, encodable⟩
    next => simp [names, List.getLastD_eq_getLast?, List.getLast?_map]
    next => exact List.forall_mem_cons.mpr ⟨⟨rfl, rfl, rfl⟩, bare⟩
    next => exact List.forall_mem_cons.mpr ⟨⟨rfl, _, encoded⟩, decodable⟩

theorem build_tree_nodes_total {level : Nat} (front : List TreeEntry) (runs : List (List TreeEntry))
    (encodable : ∀ run ∈ runs, ∃ framed, encode (.tree ⟨level, run⟩) = .ok framed)
    (emitted : List (ObjectName × Bytes)) :
    ∃ nodes out, build_tree_nodes blake3 level (front ++ runs.flatten) front.length
      (Runs.offsets front.length runs) emitted = .ok (nodes, out) := by
  induction runs generalizing front emitted with
  | nil => exact ⟨[], emitted, rfl⟩
  | cons run runs ih =>
    obtain ⟨⟨framed, encoded⟩, others⟩ := List.forall_mem_cons.mp encodable
    let name := name_of_encoded blake3 framed
    obtain ⟨nodes, out, built⟩ := ih (front ++ run) others (emitted ++ [(name, framed)])
    have rest : build_tree_nodes blake3 level (front ++ (run :: runs).flatten) (front.length + run.length)
        (Runs.offsets (front.length + run.length) runs) (emitted ++ [(name, framed)]) = .ok (nodes, out) := by
      simpa using built
    rw [Runs.offsets, build_tree_nodes]
    simp only [slice_head, Monads.bind_ok, emit_node_ok, Monads.pure_ok]
    exact ⟨_, out, name, _, ⟨framed, encoded, rfl, rfl⟩, nodes, out, rest, rfl, rfl⟩

/-! ## All levels -/

theorem next_level {level : Nat} {runs : List (List TreeEntry)} {nodes : List TreeEntry}
    (valid : ∀ entry ∈ runs.flatten, ValidAt level entry) (ascending : Ascending runs.flatten)
    (nonempty : ∀ run ∈ runs, run ≠ []) (bare : ∀ node ∈ nodes, Bare node)
    (names : nodes.map TreeEntry.name = runs.map fun run => (run.map TreeEntry.name).getLastD []) :
    (∀ node ∈ nodes, ValidAt (level + 1) node) ∧ Ascending nodes := by
  have lasts : (nodes.map TreeEntry.name).Sublist (runs.flatten.map TreeEntry.name) := by
    rw [names]
    clear names valid ascending
    induction runs with
    | nil => exact List.Sublist.slnil
    | cons run runs ih =>
      obtain ⟨front, last, rfl⟩ := (List.eq_nil_or_concat' run).resolve_left (nonempty run (by simp))
      have rest := ih fun other member => nonempty other (List.mem_cons_of_mem _ member)
      simpa using (List.sublist_append_right (front.map TreeEntry.name) _).trans
        (List.Sublist.append_left (rest.cons_cons last.name) _)
  constructor
  next =>
    intro node member
    obtain ⟨kind, mode, size⟩ := bare node member
    obtain ⟨entry, source, same⟩ := List.mem_map.mp (lasts.subset (List.mem_map_of_mem member))
    have checked := valid entry source
    refine ⟨same ▸ checked.1, ?_, same ▸ checked.2.2.1, ?_, ?_⟩
    next => simp [validate_tree_entry_fields, kind, mode, size]
    next => rw [mode]; exact ⟨by decide, by decide⟩
    next => rw [size]; exact ⟨by decide, by decide⟩
  next =>
    have names_ascending : (runs.flatten.map TreeEntry.name).Pairwise (· < ·) := List.pairwise_map.mpr ascending
    exact List.pairwise_map.mp (names_ascending.sublist lasts)

theorem short_names {level : Nat} {entries : List TreeEntry} (valid : ∀ entry ∈ entries, ValidAt level entry) :
    ShortNames (entries.map TreeEntry.name) := by
  intro name member
  obtain ⟨entry, source, rfl⟩ := List.mem_map.mp member
  exact (valid entry source).2.2.1

/-- One round of `build_tree`: it succeeds exactly when the nodes of the level fit. -/
theorem round_exact {level : Nat} {current : List TreeEntry} (valid : ∀ entry ∈ current, ValidAt level entry)
    (ascending : Ascending current) (low : level ≤ MAX_LEVEL) (children : 0 < level → 2 ≤ current.length) :
    let runs := partition_runs blake3 TreeEntry.name tree_entry_bytes level PRODUCTION_SHAPE current
    let content := content_nodes blake3 level (current.map TreeEntry.name)
    ((∀ run ∈ runs, ∃ framed, encode (.tree ⟨level, run⟩) = .ok framed) ↔ ∀ run ∈ content, FitsNode run) ∧
      ((∀ run ∈ content, FitsNode run) → runs.map (List.map TreeEntry.name) = content) ∧ ∀ run ∈ runs, run ≠ [] := by
  intro runs content
  have short := short_names valid
  have names : runs.map (List.map TreeEntry.name) = partition_runs blake3 id name_bytes level PRODUCTION_SHAPE
    (current.map TreeEntry.name) := partition_runs_names ..
  have flat : runs.flatten = current := partition_runs_flatten ..
  have sublist (run) (member : run ∈ runs) : run.Sublist current := flat ▸ List.sublist_flatten_of_mem member
  have many (above : 0 < level) (run) (member : run ∈ runs) : 2 ≤ run.length := by
    have wide := cut_children blake3 short above (by simpa using children above) (run.map TreeEntry.name)
      (names ▸ List.mem_map_of_mem member)
    simpa using wide
  have nonempty (run) (member : run ∈ runs) : run ≠ [] := by
    by_cases ground : level = 0
    next =>
      subst ground
      exact Runs.all_nonempty _ _ run member
    next =>
      have two := many (Nat.pos_of_ne_zero ground) run member
      intro empty
      rw [empty] at two
      simp at two
  have each : (∀ run ∈ runs, ∃ framed, encode (.tree ⟨level, run⟩) = .ok framed) ↔
      ∀ run ∈ runs.map (List.map TreeEntry.name), FitsNode run := by
    simp only [List.forall_mem_map]
    refine forall₂_congr fun run member => ?_
    exact node_encodes (fun entry inside => valid entry ((sublist run member).subset inside))
      (ascending.sublist (sublist run member)) (nonempty run member) low fun above => many above run member
  have same : (∀ run ∈ runs.map (List.map TreeEntry.name), FitsNode run) ∨ (∀ run ∈ content, FitsNode run) →
      runs.map (List.map TreeEntry.name) = content := by
    rw [names]
    apply level_exact blake3 short
    rcases Nat.eq_zero_or_pos level with ground | above
    next => exact .inl ground
    next => exact .inr (by simpa using children above)
  refine ⟨each.trans ⟨fun fits => same (.inl fits) ▸ fits, fun fits => same (.inr fits) ▸ fits⟩,
    fun fits => same (.inr fits), nonempty⟩

theorem round_ok {rounds level : Nat} {params : ShapeParams} {current : List TreeEntry}
    {emitted out : List (ObjectName × Bytes)} {root : ObjectName} :
    build_tree_levels blake3 params (rounds + 1) level current emitted = .ok (root, out) ↔
      ∃ nodes middle,
        partition blake3 (current.map TreeEntry.name) (current.map tree_entry_bytes) level params =
          .ok (Runs.offsets 0 (partition_runs blake3 TreeEntry.name tree_entry_bytes level params current)) ∧
        build_tree_nodes blake3 level current 0
          (Runs.offsets 0 (partition_runs blake3 TreeEntry.name tree_entry_bytes level params current)) emitted =
            .ok (nodes, middle) ∧
        ((∃ node, nodes = [node] ∧ root = node.target ∧ out = middle) ∨
          (nodes.length ≠ 1 ∧ build_tree_levels blake3 params rounds (level + 1) nodes middle = .ok (root, out))) := by
  simp only [build_tree_levels, Monads.bind_ok, Monads.liftM_ok]
  constructor
  next =>
    rintro ⟨ends, _, ⟨cut, rfl⟩, nodes, middle, built, rest⟩
    rcases partition_ok blake3 TreeEntry.name tree_entry_bytes level params current with exact | ⟨-, error, failed⟩
    next =>
      obtain rfl := Except.ok.inj (cut.symm.trans exact)
      refine ⟨nodes, middle, cut, built, ?_⟩
      rcases nodes with _ | ⟨node, _ | _⟩
      next => simpa using rest
      next => simpa [eq_comm] using Monads.pure_ok.mp rest
      next => simpa using rest
    next => cases cut.symm.trans failed
  next =>
    rintro ⟨nodes, middle, cut, built, rest⟩
    refine ⟨_, emitted, ⟨cut, rfl⟩, nodes, middle, built, ?_⟩
    rcases nodes with _ | ⟨node, _ | _⟩
    next => simpa using rest
    next => exact Monads.pure_ok.mpr (by simpa [eq_comm] using rest)
    next => simpa using rest

theorem round_written {level : Nat} {params : ShapeParams} {current nodes : List TreeEntry}
    {emitted middle : List (ObjectName × Bytes)}
    (built : build_tree_nodes blake3 level current 0
      (Runs.offsets 0 (partition_runs blake3 TreeEntry.name tree_entry_bytes level params current)) emitted =
        .ok (nodes, middle)) :
    let runs := partition_runs blake3 TreeEntry.name tree_entry_bytes level params current
    (∀ run ∈ runs, ∃ framed, encode (.tree ⟨level, run⟩) = .ok framed) ∧
      nodes.map TreeEntry.name = runs.map (fun run => (run.map TreeEntry.name).getLastD []) ∧
      (∀ node ∈ nodes, Bare node) ∧
      ∃ added, middle = emitted ++ added ∧ ∀ pair ∈ added, Emitted blake3 pair :=
  build_tree_nodes_written blake3 [] _ (by simpa [partition_runs_flatten] using built)

theorem too_high_to_encode {level : Nat} {run : List TreeEntry} {framed : Bytes} (high : MAX_LEVEL < level) :
    encode (.tree ⟨level, run⟩) ≠ .ok framed := by
  intro encoded
  have low := (encode_ok.mp encoded).1.1.1.1.2
  simp only [U8_MAX] at low
  simp only [MAX_LEVEL] at high
  omega

theorem levels_exact (levels : Nat) {level : Nat} {current : List TreeEntry} (emitted : List (ObjectName × Bytes))
    (total : level + levels = MAX_LEVEL + 1) (valid : ∀ entry ∈ current, ValidAt level entry)
    (ascending : Ascending current) (nonempty : current ≠ []) (children : 0 < level → 2 ≤ current.length) :
    (∃ root out, build_tree_levels blake3 PRODUCTION_SHAPE (levels + 1) level current emitted = .ok (root, out)) ↔
      FitsLevels blake3 levels level (current.map TreeEntry.name) := by
  induction levels generalizing level current emitted with
  | zero =>
    refine iff_of_false ?_ id
    rintro ⟨root, out, built⟩
    obtain ⟨nodes, middle, -, built, -⟩ := (round_ok blake3).mp built
    obtain ⟨run, member⟩ := List.exists_mem_of_ne_nil _ (partition_runs_ne_nil blake3 _ _ _ _ nonempty)
    obtain ⟨framed, encoded⟩ := (round_written blake3 built).1 run member
    exact too_high_to_encode (by omega) encoded
  | succ levels ih =>
    have low : level ≤ MAX_LEVEL := by omega
    obtain ⟨encodable, same, runs_nonempty⟩ := round_exact blake3 valid ascending low children
    have flat := partition_runs_flatten blake3 TreeEntry.name tree_entry_bytes level PRODUCTION_SHAPE current
    have some_run := List.length_pos_of_ne_nil
      (partition_runs_ne_nil blake3 TreeEntry.name tree_entry_bytes level PRODUCTION_SHAPE nonempty)
    have above {nodes : List TreeEntry} {middle : List (ObjectName × Bytes)}
        (built : build_tree_nodes blake3 level current 0 (Runs.offsets 0
          (partition_runs blake3 TreeEntry.name tree_entry_bytes level PRODUCTION_SHAPE current)) emitted = .ok (nodes, middle))
        (several : nodes.length ≠ 1) :
        (∃ root out, build_tree_levels blake3 PRODUCTION_SHAPE (levels + 1) (level + 1) nodes middle = .ok (root, out)) ↔
          FitsLevels blake3 levels (level + 1) (nodes.map TreeEntry.name) := by
      obtain ⟨-, names, bare, -⟩ := round_written blake3 built
      have count := congrArg List.length names
      simp only [List.length_map] at count
      obtain ⟨valid_nodes, ascending_nodes⟩ :=
        next_level (by rw [flat]; exact valid) (by rw [flat]; exact ascending) runs_nonempty bare names
      exact ih middle (by omega) valid_nodes ascending_nodes (List.ne_nil_of_length_pos (by omega)) fun _ => by omega
    have lasts {nodes : List TreeEntry} {middle : List (ObjectName × Bytes)}
        (built : build_tree_nodes blake3 level current 0 (Runs.offsets 0
          (partition_runs blake3 TreeEntry.name tree_entry_bytes level PRODUCTION_SHAPE current)) emitted = .ok (nodes, middle))
        (fits : ∀ run ∈ content_nodes blake3 level (current.map TreeEntry.name), FitsNode run) :
        nodes.map TreeEntry.name =
          (content_nodes blake3 level (current.map TreeEntry.name)).map fun run => run.getLastD [] := by
      rw [(round_written blake3 built).2.1, ← same fits, List.map_map]
      rfl
    rw [FitsLevels]
    constructor
    next =>
      rintro ⟨root, out, succeeded⟩
      obtain ⟨nodes, middle, -, built, rest⟩ := (round_ok blake3).mp succeeded
      have fits := encodable.mp (round_written blake3 built).1
      have names := lasts built fits
      refine ⟨fits, ?_⟩
      rcases rest with ⟨node, rfl, -, -⟩ | ⟨several, rest⟩
      next =>
        have count := congrArg List.length names
        simp only [List.length_map, List.length_singleton] at count
        exact .inl (by omega)
      next =>
        rw [← names]
        exact .inr ((above built several).mp ⟨root, out, rest⟩)
    next =>
      rintro ⟨fits, rest⟩
      obtain ⟨nodes, middle, built⟩ := build_tree_nodes_total blake3 [] _ (encodable.mpr fits) emitted
      rw [List.nil_append, flat] at built
      have cut := (partition_ok blake3 TreeEntry.name tree_entry_bytes level PRODUCTION_SHAPE current).resolve_right
        fun high => absurd high.1 (by omega)
      have names := lasts built fits
      have count := congrArg List.length names
      have runs_count := congrArg List.length (round_written blake3 built).2.1
      simp only [List.length_map] at count runs_count
      by_cases single : nodes.length = 1
      next =>
        obtain ⟨node, rfl⟩ := List.length_eq_one_iff.mp single
        exact ⟨node.target, middle, (round_ok blake3).mpr ⟨_, _, cut, built, .inl ⟨node, rfl, rfl, rfl⟩⟩⟩
      next =>
        have fits_above := rest.resolve_left (by omega)
        rw [← names] at fits_above
        obtain ⟨root, out, succeeded⟩ := (above built single).mpr fits_above
        exact ⟨root, out, (round_ok blake3).mpr ⟨_, _, cut, built, .inr ⟨single, succeeded⟩⟩⟩

theorem levels_emitted {params : ShapeParams} (rounds : Nat) {level : Nat} {current : List TreeEntry}
    {emitted out : List (ObjectName × Bytes)} {root : ObjectName}
    (built : build_tree_levels blake3 params rounds level current emitted = .ok (root, out)) :
    ∃ added, out = emitted ++ added ∧ ∀ pair ∈ added, Emitted blake3 pair := by
  induction rounds generalizing level current emitted with
  | zero => cases built
  | succ rounds ih =>
    obtain ⟨nodes, middle, -, written, rest⟩ := (round_ok blake3).mp built
    obtain ⟨-, -, -, added, rfl, emits⟩ := round_written blake3 written
    rcases rest with ⟨-, -, -, rfl⟩ | ⟨-, above⟩
    next => exact ⟨added, rfl, emits⟩
    next =>
      obtain ⟨more, rfl, others⟩ := ih above
      refine ⟨added ++ more, List.append_assoc .., ?_⟩
      intro pair member
      exact (List.mem_append.mp member).elim (emits pair) (others pair)

/-- Encoding fails above `MAX_LEVEL`, so the loop never asks for more rounds than it is given. -/
theorem rounds_suffice {params : ShapeParams} (extra rounds : Nat) {level : Nat} {current : List TreeEntry}
    (emitted : List (ObjectName × Bytes)) (nonempty : current ≠ []) (low : level ≤ MAX_LEVEL + 1)
    (enough : MAX_LEVEL + 2 ≤ level + rounds) :
    build_tree_levels blake3 params (rounds + extra) level current emitted =
      build_tree_levels blake3 params rounds level current emitted := by
  induction rounds generalizing level current emitted with
  | zero => omega
  | succ rounds ih =>
    rw [Nat.add_right_comm, build_tree_levels, build_tree_levels]
    simp only [bind, StateT.bind]
    rcases partition_ok blake3 TreeEntry.name tree_entry_bytes level params current with cut | ⟨-, error, failed⟩
    next =>
      simp only [cut, liftM, monadLift, MonadLift.monadLift, StateT.lift, bind, Except.bind, pure, Except.pure]
      cases built : build_tree_nodes blake3 level current 0
        (Runs.offsets 0 (partition_runs blake3 TreeEntry.name tree_entry_bytes level params current)) emitted with
      | error error => rfl
      | ok pair =>
        obtain ⟨nodes, middle⟩ := pair
        obtain ⟨encodable, names, -⟩ := round_written blake3 built
        have some_run := List.length_pos_of_ne_nil
          (partition_runs_ne_nil blake3 TreeEntry.name tree_entry_bytes level params nonempty)
        have count := congrArg List.length names
        simp only [List.length_map] at count
        by_cases high : MAX_LEVEL < level
        next =>
          obtain ⟨run, member⟩ := List.exists_mem_of_length_pos some_run
          obtain ⟨framed, encoded⟩ := encodable run member
          exact absurd encoded (too_high_to_encode high)
        next =>
          have above := @ih (level + 1) nodes middle (List.ne_nil_of_length_pos (by omega)) (by omega) (by omega)
          match nodes with
          | [] => exact above
          | [_] => rfl
          | _ :: _ :: _ => exact above
    next =>
      simp only [failed, liftM, monadLift, MonadLift.monadLift, StateT.lift, bind, Except.bind]

end LedgerVcs
