import LedgerVcs.Format.NodeSizes

set_option autoImplicit false

/-! The blob node tree of one file. -/

namespace LedgerVcs

open Wire (Bytes)

def BLOB_ENTRY_BYTES : Nat := 40

section Builder

variable (blake3 : Blake3)

/-- The loop over `ends`: one node for each run, and the reference to it one level up. -/
def build_blob_nodes (level : Nat) (entries : List BlobEntry) : (start : Nat) → List Nat → Emitting (List BlobEntry)
  | _, [] => return []
  | start, stop :: ends => do
    let run := (entries.drop start).take (stop - start)
    let name ← emit_node blake3 (.blob ⟨level, run⟩)
    let node : BlobEntry := ⟨name, (run.map BlobEntry.size).sum⟩
    let nodes ← build_blob_nodes level entries stop ends
    return node :: nodes

/-- The loop over levels, with the bound of `build_tree_levels`. -/
def build_blob_levels (params : ShapeParams) : (rounds : Nat) → (level : Nat) → List BlobEntry → Emitting ObjectName
  | 0, _, _ => throw (.assertionError "unreachable")
  | rounds + 1, level, entries => do
    let ends ← partition blake3 (entries.map fun entry => entry.target.digest)
      (List.replicate entries.length BLOB_ENTRY_BYTES) level params
    let nodes ← build_blob_nodes blake3 level entries 0 ends
    match nodes with
    | [node] => return node.target
    | _ => build_blob_levels params rounds (level + 1) nodes

def build_blob (chunks : List BlobEntry) (params : ShapeParams) : Emitting ObjectName :=
  if chunks = [] then emit_node blake3 (.blob ⟨0, []⟩)
  else build_blob_levels blake3 params (MAX_LEVEL + 2) 0 chunks

end Builder

/-! ## The runs of a level -/

/-- Runs that are long enough, but for the last one, settle without being merged. -/
theorem settle_lengths {α : Type} {runs : List (List α)} {maximum : Nat} (nonempty : ∀ run ∈ runs, run ≠ [])
    (long : ∀ run ∈ runs.dropLast, MIN_INTERIOR_CHILDREN < run.length) (short : ∀ run ∈ runs, run.length ≤ maximum)
    (enough : MIN_INTERIOR_CHILDREN ≤ runs.flatten.length) (room : MIN_INTERIOR_CHILDREN ≤ maximum) :
    (settle runs).length = runs.length ∧
      ∀ run ∈ settle runs, MIN_INTERIOR_CHILDREN ≤ run.length ∧ run.length ≤ maximum := by
  have two : MIN_INTERIOR_CHILDREN = 2 := rfl
  rcases List.eq_nil_or_concat' runs with rfl | ⟨front, last, rfl⟩
  next => simp [two] at enough
  next =>
    rw [List.dropLast_concat] at long
    rcases List.eq_nil_or_concat' front with rfl | ⟨earlier, second, rfl⟩
    next =>
      rw [settle_few (by simp)]
      refine ⟨rfl, fun run member => ?_⟩
      obtain rfl := List.mem_singleton.mp member
      exact ⟨by simpa using enough, short _ member⟩
    next =>
      have spare := long second (by simp)
      have some := List.length_pos_of_ne_nil (nonempty last (by simp))
      simp only [List.append_assoc, List.cons_append, List.nil_append] at short ⊢
      rw [settle_concat]
      by_cases wide : MIN_INTERIOR_CHILDREN ≤ last.length
      next =>
        rw [if_pos wide]
        refine ⟨rfl, fun run member => ⟨?_, short run member⟩⟩
        simp only [List.mem_append, List.mem_cons, List.not_mem_nil, or_false] at member
        rcases member with early | rfl | rfl
        next => exact (long run (by simp [early])).le
        next => exact spare.le
        next => exact wide
      next =>
        rw [if_neg wide, if_pos spare]
        have given : second.getLast?.toList.length = 1 := by
          cases second with
          | nil => simp at spare
          | cons head tail => rfl
        refine ⟨by simp, fun run member => ?_⟩
        simp only [List.mem_append, List.mem_cons, List.not_mem_nil, or_false] at member
        rcases member with early | rfl | rfl
        next => exact ⟨(long run (by simp [early])).le, short run (by simp [early])⟩
        next =>
          have above := short second (by simp)
          rw [List.length_dropLast]
          omega
        next =>
          rw [List.length_append, given]
          omega

section Levels

variable (blake3 : Blake3)

def blob_runs (level : Nat) (params : ShapeParams) (entries : List BlobEntry) : List (List BlobEntry) :=
  partition_runs blake3 (fun entry => entry.target.digest) (fun _ => BLOB_ENTRY_BYTES) level params entries

theorem blob_partition (level : Nat) (params : ShapeParams) (entries : List BlobEntry) :
    let result := partition blake3 (entries.map fun entry => entry.target.digest)
      (List.replicate entries.length BLOB_ENTRY_BYTES) level params
    result = .ok (Runs.offsets 0 (blob_runs blake3 level params entries)) ∨
      MAX_LEVEL < level ∧ ∃ error, result = .error error := by
  rw [← List.map_const']
  exact partition_ok ..

theorem blob_runs_flatten (level : Nat) (params : ShapeParams) (entries : List BlobEntry) :
    (blob_runs blake3 level params entries).flatten = entries := partition_runs_flatten ..

def ends_blob_node (level : Nat) (run : List BlobEntry) : Bool :=
  closes blake3 (fun entry => entry.target.digest) (fun _ => BLOB_ENTRY_BYTES) level PRODUCTION_SHAPE run

theorem blob_node_long {level : Nat} {run : List BlobEntry} (ends : ends_blob_node blake3 level run) :
    SPLIT_MIN_ENTRIES ≤ run.length := by
  simp only [ends_blob_node, closes, content_closes, decide_eq_true_eq] at ends
  rcases ends with heavy | ⟨enough, -⟩
  next =>
    simp only [run_bytes, List.map_const', List.sum_replicate, smul_eq_mul, PRODUCTION_SHAPE, MAX_NODE_BYTES, BLOB_ENTRY_BYTES]
      at heavy
    simp only [SPLIT_MIN_ENTRIES]
    omega
  next => exact enough

theorem blob_node_full {level : Nat} (run : List BlobEntry) (full : SPLIT_MAX_ENTRIES ≤ run.length) :
    ends_blob_node blake3 level run := by
  simp only [ends_blob_node, closes, content_closes, decide_eq_true_eq]
  refine .inr ⟨?_, .inl full⟩
  simp only [SPLIT_MAX_ENTRIES] at full
  simp only [PRODUCTION_SHAPE, SPLIT_MIN_ENTRIES]
  omega

/-- The production shape makes nodes of a size that can be encoded, and few of them. -/
theorem blob_runs_lengths {level : Nat} {entries : List BlobEntry}
    (enough : 0 < level → MIN_INTERIOR_CHILDREN ≤ entries.length) :
    let runs := blob_runs blake3 level PRODUCTION_SHAPE entries
    runs.length * SPLIT_MIN_ENTRIES ≤ entries.length + (SPLIT_MIN_ENTRIES - 1) ∧
      ∀ run ∈ runs, run ≠ [] ∧ run.length ≤ SPLIT_MAX_ENTRIES ∧ (0 < level → MIN_INTERIOR_CHILDREN ≤ run.length) := by
  have nonempty := Runs.all_nonempty (ends_blob_node blake3 level) entries
  have few := Runs.length_all (fun run (ends : ends_blob_node blake3 level run) => blob_node_long blake3 ends) entries
  have short := Runs.all_at_most (by decide) (@blob_node_full blake3 level) entries
  have flat := Runs.scan_flatten (ends_blob_node blake3 level) entries
  rw [← Runs.all_flatten] at flat
  intro runs
  by_cases above : 0 < level
  next =>
    have settled : runs = settle (Runs.scan (ends_blob_node blake3 level) entries).all := if_pos above
    have long (run : List BlobEntry) (member : run ∈ (Runs.scan (ends_blob_node blake3 level) entries).all.dropLast) :
        MIN_INTERIOR_CHILDREN < run.length := by
      have ends := Runs.dropLast_closed member
      exact lt_of_lt_of_le (by decide) (blob_node_long blake3 ends)
    obtain ⟨count, lengths⟩ := settle_lengths nonempty long short (by rw [flat]; exact enough above) (by decide)
    rw [settled, count]
    refine ⟨few, fun run member => ?_⟩
    obtain ⟨two, most⟩ := lengths run member
    refine ⟨List.ne_nil_of_length_pos (lt_of_lt_of_le (by decide) two), most, fun _ => two⟩
  next =>
    have plain : runs = (Runs.scan (ends_blob_node blake3 level) entries).all := if_neg above
    rw [plain]
    exact ⟨few, fun run member => ⟨nonempty run member, short run member, fun high => absurd high above⟩⟩

theorem layout_references_length (entries : List BlobEntry) :
    (entries.flatMap Layout.blobEntry).length = entries.length * BLOB_ENTRY_BYTES := by
  induction entries with
  | nil => rfl
  | cons entry entries ih =>
    have digest : entry.target.digest.length = 32 := entry.target.sized
    rw [List.flatMap_cons, List.length_append, ih]
    simp only [Layout.blobEntry, List.length_append, Wire.length_toBE, digest, List.length_cons, BLOB_ENTRY_BYTES]
    omega

theorem blob_encodes {level : Nat} {run : List BlobEntry} (valid : ∀ entry ∈ run, Fits.blobEntry entry)
    (nonempty : run ≠ []) (most : run.length ≤ SPLIT_MAX_ENTRIES) (low : level ≤ MAX_LEVEL)
    (children : 0 < level → MIN_INTERIOR_CHILDREN ≤ run.length) :
    ∃ framed, encode (.blob ⟨level, run⟩) = .ok framed := by
  have size : HEADER_BYTES + (Layout.blob ⟨level, run⟩).length = HEADER_BYTES + 5 + run.length * BLOB_ENTRY_BYTES := by
    have entries := layout_references_length run
    simp only [Layout.blob, Layout.node, List.length_append, Wire.length_toBE, entries]
    omega
  have positive := List.length_pos_of_ne_nil nonempty
  simp only [SPLIT_MAX_ENTRIES] at most
  simp only [MAX_LEVEL] at low
  simp only [encode_ok, exists_and_left, exists_eq, and_true, Fits.object, size]
  refine ⟨⟨⟨⟨Int.natCast_nonneg _, ?_⟩, ?_, ?_⟩, valid⟩, ?_⟩
  next => simp only [U8_MAX]; omega
  next => simp only [U32_MAX]; omega
  next =>
    simp only [validate_node_level, Monads.except_bind_ok, ensure_ok]
    simp only [MIN_INTERIOR_CHILDREN] at children
    exact ⟨(), by omega, by omega⟩
  next => simp only [HEADER_BYTES, BLOB_ENTRY_BYTES, MAX_NODE_BYTES]; omega

/-! ## One level -/

/-- The reference one level up that stands for a run. -/
structure FileStandsFor (level : Nat) (out : List (ObjectName × Bytes)) (run : List BlobEntry) (node : BlobEntry) : Prop where
  sized : node.size = (run.map BlobEntry.size).sum
  emitted : ∃ framed, encode (.blob ⟨level, run⟩) = .ok framed ∧ (node.target, framed) ∈ out

theorem FileStandsFor.mono {level : Nat} {out more : List (ObjectName × Bytes)} {run : List BlobEntry} {node : BlobEntry}
    (stands : FileStandsFor level out run node) (within : out ⊆ more) : FileStandsFor level more run node := by
  obtain ⟨sized, framed, encoded, member⟩ := stands
  exact ⟨sized, framed, encoded, within member⟩

/-- A pair of a name and bytes that `emit` may receive. -/
def EmittedBlob (pair : ObjectName × Bytes) : Prop :=
  pair.1 = name_of_encoded blake3 pair.2 ∧ ∃ node : Blob, encode (.blob node) = .ok pair.2

theorem build_blob_nodes_total {level : Nat} (front : List BlobEntry) (runs : List (List BlobEntry))
    (encodable : ∀ run ∈ runs, ∃ framed, encode (.blob ⟨level, run⟩) = .ok framed)
    (emitted : List (ObjectName × Bytes)) :
    ∃ nodes added, build_blob_nodes blake3 level (front ++ runs.flatten) front.length (Runs.offsets front.length runs)
      emitted = .ok (nodes, emitted ++ added) ∧ List.Forall₂ (FileStandsFor level added) runs nodes ∧
        ∀ pair ∈ added, EmittedBlob blake3 pair := by
  induction runs generalizing front emitted with
  | nil => exact ⟨[], [], by rw [List.append_nil]; rfl, .nil, by simp⟩
  | cons run runs ih =>
    obtain ⟨⟨framed, encoded⟩, others⟩ := List.forall_mem_cons.mp encodable
    let name := name_of_encoded blake3 framed
    obtain ⟨nodes, added, built, stand, emits⟩ := ih (front ++ run) others (emitted ++ [(name, framed)])
    refine ⟨⟨name, (run.map BlobEntry.size).sum⟩ :: nodes, (name, framed) :: added, ?_, ?_, ?_⟩
    next =>
      have rest : build_blob_nodes blake3 level (front ++ (run :: runs).flatten) (front.length + run.length)
          (Runs.offsets (front.length + run.length) runs) (emitted ++ [(name, framed)]) =
            .ok (nodes, emitted ++ (name, framed) :: added) := by
        simpa using built
      rw [Runs.offsets, build_blob_nodes]
      simp only [slice_head, Monads.bind_ok, emit_node_ok, Monads.pure_ok]
      exact ⟨name, _, ⟨framed, encoded, rfl, rfl⟩, nodes, _, rest, rfl, rfl⟩
    next =>
      refine .cons ⟨rfl, framed, encoded, List.mem_cons_self⟩ (stand.imp fun _ _ stands => ?_)
      exact stands.mono (List.subset_cons_self _ _)
    next => exact List.forall_mem_cons.mpr ⟨⟨rfl, _, encoded⟩, emits⟩

/-- References that a node can hold, and whose sizes add up to one that fits. -/
structure Referable (entries : List BlobEntry) : Prop where
  positive : ∀ entry ∈ entries, 0 < entry.size
  total : (entries.map BlobEntry.size).sum ≤ U64_MAX

theorem Referable.fits {entries : List BlobEntry} (referable : Referable entries) :
    ∀ entry ∈ entries, Fits.blobEntry entry := by
  obtain ⟨positive, total⟩ := referable
  intro entry member
  have most : entry.size ≤ (entries.map BlobEntry.size).sum := by
    refine List.single_le_sum (fun size there => ?_) _ (List.mem_map_of_mem member)
    obtain ⟨other, inside, rfl⟩ := List.mem_map.mp there
    exact (positive other inside).le
  exact ⟨positive entry member, (positive entry member).le, most.trans total⟩

theorem Referable.count {entries : List BlobEntry} (referable : Referable entries) :
    (entries.length : Int) ≤ (entries.map BlobEntry.size).sum := by
  obtain ⟨positive, -⟩ := referable
  induction entries with
  | nil => rfl
  | cons entry entries ih =>
    obtain ⟨first, rest⟩ := List.forall_mem_cons.mp positive
    have later := ih rest
    rw [List.length_cons, List.map_cons, List.sum_cons]
    omega

theorem stands_sizes {level : Nat} {out : List (ObjectName × Bytes)} {runs : List (List BlobEntry)} {nodes : List BlobEntry}
    (stand : List.Forall₂ (FileStandsFor level out) runs nodes) :
    (nodes.map BlobEntry.size).sum = (runs.flatten.map BlobEntry.size).sum := by
  induction stand with
  | nil => rfl
  | cons first rest ih =>
    rw [List.map_cons, List.sum_cons, List.flatten_cons, List.map_append, List.sum_append, first.sized, ih]

theorem exists_stands {level : Nat} {out : List (ObjectName × Bytes)} {runs : List (List BlobEntry)}
    {nodes : List BlobEntry} (stand : List.Forall₂ (FileStandsFor level out) runs nodes) :
    ∀ node ∈ nodes, ∃ run ∈ runs, FileStandsFor level out run node := by
  induction stand with
  | nil => simp
  | cons first rest ih =>
    refine List.forall_mem_cons.mpr ⟨⟨_, List.mem_cons_self, first⟩, fun node member => ?_⟩
    obtain ⟨run, there, stands⟩ := ih node member
    exact ⟨run, List.mem_cons_of_mem _ there, stands⟩

theorem Referable.next {level : Nat} {out : List (ObjectName × Bytes)} {runs : List (List BlobEntry)}
    {nodes : List BlobEntry} (referable : Referable runs.flatten) (nonempty : ∀ run ∈ runs, run ≠ [])
    (stand : List.Forall₂ (FileStandsFor level out) runs nodes) : Referable nodes := by
  refine ⟨fun node member => ?_, stands_sizes stand ▸ referable.total⟩
  obtain ⟨run, there, sized, -⟩ := exists_stands stand node member
  rw [sized]
  refine List.sum_pos _ (fun size inside => ?_) (by simpa using nonempty run there)
  obtain ⟨entry, listed, rfl⟩ := List.mem_map.mp inside
  exact referable.positive entry (List.mem_flatten.mpr ⟨run, there, listed⟩)

/-! ## All levels -/

/-- The levels of a file from one of them up to the root. -/
inductive FileLevels (out : List (ObjectName × Bytes)) : (level : Nat) → List BlobEntry → (root : ObjectName) → Prop
  | top {level : Nat} {entries : List BlobEntry} {node : BlobEntry} (stands : FileStandsFor level out entries node) :
    FileLevels out level entries node.target
  | lower {level : Nat} {runs : List (List BlobEntry)} {nodes : List BlobEntry} {root : ObjectName}
    (nonempty : ∀ run ∈ runs, run ≠ []) (stand : List.Forall₂ (FileStandsFor level out) runs nodes)
    (above : FileLevels out (level + 1) nodes root) : FileLevels out level runs.flatten root

theorem FileLevels.mono {out more : List (ObjectName × Bytes)} {level : Nat} {entries : List BlobEntry} {root : ObjectName}
    (levels : FileLevels out level entries root) (within : out ⊆ more) : FileLevels more level entries root := by
  induction levels with
  | top stands => exact .top (stands.mono within)
  | lower nonempty stand above ih => exact .lower nonempty (stand.imp fun _ _ stands => stands.mono within) ih

/-! ## Whatever the shape -/

theorem build_blob_nodes_stand {level : Nat} (front : List BlobEntry) (runs : List (List BlobEntry))
    {emitted out : List (ObjectName × Bytes)} {nodes : List BlobEntry}
    (built : build_blob_nodes blake3 level (front ++ runs.flatten) front.length (Runs.offsets front.length runs)
      emitted = .ok (nodes, out)) :
    List.Forall₂ (FileStandsFor level out) runs nodes ∧ emitted ⊆ out := by
  induction runs generalizing front emitted nodes with
  | nil =>
    obtain ⟨rfl, rfl⟩ := Monads.pure_ok.mp built
    exact ⟨.nil, List.Subset.refl _⟩
  | cons run runs ih =>
    rw [Runs.offsets, build_blob_nodes] at built
    simp only [slice_head, Monads.bind_ok, emit_node_ok, Monads.pure_ok] at built
    obtain ⟨name, middle, ⟨framed, encoded, rfl, rfl⟩, rest, _, others, rfl, rfl⟩ := built
    obtain ⟨later, within⟩ := ih (front ++ run) (by simpa using others)
    exact ⟨.cons ⟨rfl, framed, encoded, within (by simp)⟩ later, fun pair member => within (by simp [member])⟩

theorem build_blob_levels_stand (params : ShapeParams) (rounds : Nat) {level : Nat} {entries : List BlobEntry}
    {emitted out : List (ObjectName × Bytes)} {root : ObjectName}
    (built : build_blob_levels blake3 params rounds level entries emitted = .ok (root, out)) :
    FileLevels out level entries root ∧ emitted ⊆ out := by
  induction rounds generalizing level entries emitted with
  | zero => cases built
  | succ rounds ih =>
    rw [build_blob_levels] at built
    obtain ⟨ends, _, first, built⟩ := Monads.bind_ok.mp built
    obtain ⟨cut, rfl⟩ := Monads.liftM_ok.mp first
    have whole := (blob_partition blake3 level params entries).resolve_right fun high => by
      obtain ⟨-, error, failed⟩ := high
      rw [cut] at failed
      cases failed
    obtain rfl := Except.ok.inj (cut.symm.trans whole)
    obtain ⟨nodes, middle, written, rest⟩ := Monads.bind_ok.mp built
    have flat := blob_runs_flatten blake3 level params entries
    have nonempty : ∀ run ∈ blob_runs blake3 level params entries, run ≠ [] :=
      partition_runs_nonempty blake3 _ _ level params entries
    obtain ⟨stand, within⟩ := build_blob_nodes_stand blake3 [] _ (by rw [List.nil_append, flat]; exact written)
    have higher (above : build_blob_levels blake3 params rounds (level + 1) nodes middle = .ok (root, out)) :
        FileLevels out level entries root ∧ emitted ⊆ out := by
      obtain ⟨levels, kept⟩ := ih above
      have below := FileLevels.lower nonempty (stand.imp fun _ _ stands => stands.mono kept) levels
      rw [flat] at below
      exact ⟨below, List.Subset.trans within kept⟩
    rcases nodes with _ | ⟨node, _ | ⟨other, nodes⟩⟩
    next => exact higher rest
    next =>
      obtain ⟨rfl, rfl⟩ := Monads.pure_ok.mp rest
      obtain ⟨run, only⟩ := List.length_eq_one_iff.mp stand.length_eq
      rw [only, List.flatten_singleton] at flat
      rw [only, flat] at stand
      exact ⟨.top (List.forall₂_cons.mp stand).1, within⟩
    next => exact higher rest

theorem build_blob_stand {chunks : List BlobEntry} {params : ShapeParams} {out : List (ObjectName × Bytes)} {root : ObjectName}
    (built : build_blob blake3 chunks params [] = .ok (root, out)) : FileLevels out 0 chunks root := by
  rw [build_blob] at built
  split at built
  next none =>
    obtain ⟨framed, encoded, rfl, rfl⟩ := (emit_node_ok blake3).mp built
    subst none
    exact @FileLevels.top _ 0 [] ⟨_, 0⟩ ⟨rfl, framed, encoded, List.mem_singleton.mpr rfl⟩
  next => exact (build_blob_levels_stand blake3 params _ built).1

/-! ## The production shape -/

theorem blob_round {level : Nat} {entries : List BlobEntry} (rounds : Nat) (emitted : List (ObjectName × Bytes))
    (low : level ≤ MAX_LEVEL) (referable : Referable entries)
    (children : 0 < level → MIN_INTERIOR_CHILDREN ≤ entries.length) :
    ∃ nodes added, List.Forall₂ (FileStandsFor level added) (blob_runs blake3 level PRODUCTION_SHAPE entries) nodes ∧
      (∀ pair ∈ added, EmittedBlob blake3 pair) ∧
        build_blob_levels blake3 PRODUCTION_SHAPE (rounds + 1) level entries emitted =
          match nodes with
          | [node] => .ok (node.target, emitted ++ added)
          | _ => build_blob_levels blake3 PRODUCTION_SHAPE rounds (level + 1) nodes (emitted ++ added) := by
  have flat := blob_runs_flatten blake3 level PRODUCTION_SHAPE entries
  obtain ⟨-, lengths⟩ := blob_runs_lengths blake3 children
  have encodable (run : List BlobEntry) (member : run ∈ blob_runs blake3 level PRODUCTION_SHAPE entries) :
      ∃ framed, encode (.blob ⟨level, run⟩) = .ok framed := by
    obtain ⟨nonempty, most, two⟩ := lengths run member
    refine blob_encodes (fun entry inside => referable.fits entry ?_) nonempty most low two
    rw [← flat]
    exact List.mem_flatten.mpr ⟨run, member, inside⟩
  obtain ⟨nodes, added, built, stand, emits⟩ := build_blob_nodes_total blake3 [] _ encodable emitted
  simp only [List.nil_append, List.length_nil, flat] at built
  have cut := (blob_partition blake3 level PRODUCTION_SHAPE entries).resolve_right fun high => absurd high.1 (not_lt.mpr low)
  refine ⟨nodes, added, stand, emits, ?_⟩
  rw [build_blob_levels]
  simp only [bind, StateT.bind, liftM, monadLift, MonadLift.monadLift, StateT.lift, cut, Except.bind, pure, Except.pure, built]
  rcases nodes with _ | ⟨node, _ | ⟨other, nodes⟩⟩ <;> rfl

/-- Every level has at most one node for each 64 entries, so that so many levels are enough. -/
theorem build_blob_levels_total (heights : Nat) {rounds level : Nat} {entries : List BlobEntry}
    (emitted : List (ObjectName × Bytes)) (enough : heights < rounds) (low : level + heights ≤ MAX_LEVEL)
    (referable : Referable entries) (nonempty : entries ≠ []) (children : 0 < level → MIN_INTERIOR_CHILDREN ≤ entries.length)
    (count : entries.length ≤ SPLIT_MIN_ENTRIES ^ (heights + 1)) :
    ∃ root added, build_blob_levels blake3 PRODUCTION_SHAPE rounds level entries emitted = .ok (root, emitted ++ added) ∧
      (∀ pair ∈ added, EmittedBlob blake3 pair) ∧ FileLevels added level entries root := by
  induction rounds generalizing heights level entries emitted with
  | zero => omega
  | succ rounds ih =>
    obtain ⟨nodes, added, stand, emits, built⟩ := blob_round blake3 rounds emitted (by omega) referable children
    have flat := blob_runs_flatten blake3 level PRODUCTION_SHAPE entries
    obtain ⟨few, lengths⟩ := blob_runs_lengths blake3 children
    have some_run := List.length_pos_of_ne_nil (partition_runs_ne_nil blake3 (fun entry : BlobEntry => entry.target.digest)
      (fun _ => BLOB_ENTRY_BYTES) level PRODUCTION_SHAPE nonempty)
    change 0 < (blob_runs blake3 level PRODUCTION_SHAPE entries).length at some_run
    have same := stand.length_eq
    by_cases single : nodes.length = 1
    next =>
      obtain ⟨node, rfl⟩ := List.length_eq_one_iff.mp single
      obtain ⟨run, only⟩ := List.length_eq_one_iff.mp (same.trans single)
      rw [only, List.flatten_singleton] at flat
      rw [only, flat] at stand
      obtain ⟨stands, -⟩ := List.forall₂_cons.mp stand
      exact ⟨node.target, added, built, emits, .top stands⟩
    next =>
      have several : MIN_INTERIOR_CHILDREN ≤ nodes.length := by
        simp only [MIN_INTERIOR_CHILDREN]
        omega
      have fewer : nodes.length ≤ SPLIT_MIN_ENTRIES ^ heights := by
        rw [pow_succ] at count
        simp only [SPLIT_MIN_ENTRIES] at few count ⊢
        omega
      obtain ⟨heights, rfl⟩ := Nat.exists_eq_succ_of_ne_zero fun (none : heights = 0) => by
        rw [none, pow_zero] at fewer
        omega
      have higher : build_blob_levels blake3 PRODUCTION_SHAPE (rounds + 1) level entries emitted =
          build_blob_levels blake3 PRODUCTION_SHAPE rounds (level + 1) nodes (emitted ++ added) := by
        rw [built]
        rcases nodes with _ | ⟨node, _ | _⟩
        next => rfl
        next => exact absurd rfl single
        next => rfl
      have whole : Referable (blob_runs blake3 level PRODUCTION_SHAPE entries).flatten := by rwa [flat]
      obtain ⟨root, more, rest, others, levels⟩ := @ih heights (level + 1) nodes (emitted ++ added) (by omega) (by omega)
        (whole.next (fun run member => (lengths run member).1) stand) (List.ne_nil_of_length_pos (by omega))
        (fun _ => several) fewer
      refine ⟨root, added ++ more, by rw [higher, rest, List.append_assoc], ?_, ?_⟩
      next =>
        intro pair member
        exact (List.mem_append.mp member).elim (emits pair) (others pair)
      next =>
        have below := FileLevels.lower (fun run member => (lengths run member).1)
          (stand.imp fun _ _ stands => stands.mono (List.subset_append_left added more))
          (levels.mono (List.subset_append_right added more))
        rwa [flat] at below

/-- The production shape builds every file of less than 2^64 bytes. -/
theorem build_blob_total {chunks : List BlobEntry} (referable : Referable chunks) :
    ∃ root emitted, build_blob blake3 chunks PRODUCTION_SHAPE [] = .ok (root, emitted) ∧
      (∀ pair ∈ emitted, EmittedBlob blake3 pair) ∧ FileLevels emitted 0 chunks root := by
  rw [build_blob]
  by_cases none : chunks = []
  next =>
    subst none
    have encodes : encode (.blob ⟨0, []⟩) = .ok (Layout.object (.blob ⟨0, []⟩)) := by rfl
    refine ⟨_, _, (emit_node_ok blake3).mpr ⟨_, encodes, rfl, rfl⟩, ?_, ?_⟩
    next =>
      intro pair member
      obtain rfl := List.mem_singleton.mp member
      exact ⟨rfl, _, encodes⟩
    next => exact @FileLevels.top _ 0 [] ⟨_, 0⟩ ⟨rfl, _, encodes, List.mem_singleton.mpr rfl⟩
  next =>
    rw [if_neg none]
    have few : chunks.length ≤ SPLIT_MIN_ENTRIES ^ (10 + 1) := by
      have power : SPLIT_MIN_ENTRIES ^ (10 + 1) = 73786976294838206464 := by decide
      have many := referable.count
      have total := referable.total
      simp only [U64_MAX] at total
      omega
    exact build_blob_levels_total blake3 10 [] (by decide) (by decide) referable none
      (fun above => absurd above (lt_irrefl _)) few

end Levels

end LedgerVcs
