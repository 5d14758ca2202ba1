import LedgerVcs.Runtime.Checkout

set_option autoImplicit false

/-! What an ingest reports, against what it has stored. -/

namespace LedgerVcs

open Prog (ofExcept)
open Wire (Bytes)

/-! ## Puts, one after the other -/

section Puts

variable (corpus : Corpus)

/-- What the store tells of a put, and leaves. -/
def World.put (world : World) (name : ObjectName) : PutOutcome × World :=
  if name ∈ world.backend then
    (⟨name, false, corpus.length name, 0⟩, { world with tombstones := world.tombstones.erase name })
  else (⟨name, true, corpus.length name, corpus.occupied name⟩, world.written corpus name)

def World.puts : World → List ObjectName → World
  | world, [] => world
  | world, name :: names => (world.put corpus name).2.puts names

def World.outcomes : World → List ObjectName → List PutOutcome
  | _, [] => []
  | world, name :: names => (world.put corpus name).1 :: (world.put corpus name).2.outcomes names

variable {corpus} {world : World}

theorem runs_put (name : ObjectName) :
    runs corpus (put_encoded corpus name) world = (.ok (world.put corpus name).1, (world.put corpus name).2) := by
  by_cases stored : name ∈ world.backend
  next => rw [runs_put_stored stored, World.put, if_pos stored]
  next => rw [runs_put_new stored, World.put, if_neg stored]

theorem puts_append (first second : List ObjectName) : world.puts corpus (first ++ second) = (world.puts corpus first).puts corpus second := by
  induction first generalizing world with
  | nil => rfl
  | cons name first ih => exact ih

theorem outcomes_append (first second : List ObjectName) :
    world.outcomes corpus (first ++ second) = world.outcomes corpus first ++ (world.puts corpus first).outcomes corpus second := by
  induction first generalizing world with
  | nil => rfl
  | cons name first ih => exact congrArg (_ :: ·) ih

/-! ### Each new object weighs once -/

theorem put_stores (name : ObjectName) : (world.put corpus name).2.backend = insert name world.backend := by
  rw [World.put]
  split
  next stored => exact (Finset.insert_eq_self.mpr stored).symm
  next => rfl

theorem puts_stores (names : List ObjectName) : (world.puts corpus names).backend = world.backend ∪ names.toFinset := by
  induction names generalizing world with
  | nil => simp [World.puts]
  | cons name names ih => rw [World.puts, ih, put_stores, List.toFinset_cons, Finset.insert_union, Finset.union_insert]

/-- What the created objects among the outcomes weigh. -/
def created_weight (weight : ObjectName → Nat) (outcomes : List PutOutcome) : Nat :=
  (outcomes.map fun outcome => if outcome.created then weight outcome.name else 0).sum

theorem put_weighs (weight : ObjectName → Nat) (name : ObjectName) :
    world.backend.sum weight + (if (world.put corpus name).1.created then weight (world.put corpus name).1.name else 0) =
      (world.put corpus name).2.backend.sum weight := by
  rw [put_stores, World.put]
  by_cases stored : name ∈ world.backend
  next => simp [stored]
  next => simp [stored, Nat.add_comm]

theorem outcomes_weigh (weight : ObjectName → Nat) (names : List ObjectName) :
    world.backend.sum weight + created_weight weight (world.outcomes corpus names) = (world.puts corpus names).backend.sum weight := by
  induction names generalizing world with
  | nil => rfl
  | cons name names ih =>
    have first := @put_weighs corpus world weight name
    have rest := @ih (world.put corpus name).2
    rw [created_weight] at rest
    rw [World.puts, ← rest, ← first, World.outcomes, created_weight, List.map_cons, List.sum_cons, Nat.add_assoc]

theorem outcomes_new (weight : ObjectName → Nat) (names : List ObjectName) :
    created_weight weight (world.outcomes corpus names) = ((world.puts corpus names).backend \ world.backend).sum weight := by
  have kept : world.backend ⊆ (world.puts corpus names).backend := by
    rw [puts_stores]
    exact Finset.subset_union_left
  have whole := @outcomes_weigh corpus world weight names
  have parts : ((world.puts corpus names).backend \ world.backend).sum weight + world.backend.sum weight =
      (world.puts corpus names).backend.sum weight := Finset.sum_sdiff kept
  omega

/-! ### What the catalogue adds -/

/-- What `total` answers. -/
def World.catalogued_bytes (world : World) : Nat := (exec .none .catalog_total world).1.2

theorem insertIfNew_bytes {catalog : Std.ExtTreeMap ObjectName CatalogRow} {name : ObjectName} (fresh : name ∉ catalog) (row : CatalogRow) :
    ((catalog.insertIfNew name row).toList.map fun entry => entry.2.size).sum =
      row.size + (catalog.toList.map fun entry => entry.2.size).sum := by
  have distinct (rows : Std.ExtTreeMap ObjectName CatalogRow) : rows.toList.Nodup :=
    rows.distinct_keys_toList.imp fun different same => different (by rw [same]; exact Std.ReflOrd.compare_self)
  have absent : (name, row) ∉ catalog.toList := fun member => by
    have found := Std.ExtTreeMap.mem_toList_iff_getElem?_eq_some.mp member
    exact fresh (Std.ExtTreeMap.mem_iff_isSome_getElem?.mpr (by rw [found]; rfl))
  have same : (catalog.insertIfNew name row).toList.Perm ((name, row) :: catalog.toList) := by
    refine (List.perm_ext_iff_of_nodup (distinct _) (List.nodup_cons.mpr ⟨absent, distinct _⟩)).mpr fun entry => ?_
    rw [List.mem_cons, Std.ExtTreeMap.mem_toList_iff_getElem?_eq_some, Std.ExtTreeMap.mem_toList_iff_getElem?_eq_some,
      Std.ExtTreeMap.getElem?_insertIfNew]
    obtain ⟨key, value⟩ := entry
    by_cases here : name = key
    next =>
      subst here
      simp [fresh, eq_comm]
    next => simp [here, Ne.symm here]
  rw [(same.map fun entry => entry.2.size).sum_eq, List.map_cons, List.sum_cons]

/-- Objects that are new to the store and to the catalogue add what they occupy. -/
theorem puts_catalogued (names : List ObjectName)
    (uncatalogued : ∀ name ∈ (world.puts corpus names).backend \ world.backend, name ∉ world.catalog) :
    world.catalogued_bytes + created_weight corpus.occupied (world.outcomes corpus names) =
      (world.puts corpus names).catalogued_bytes := by
  induction names generalizing world with
  | nil => rfl
  | cons name names ih =>
    have kept : name ∈ ((world.put corpus name).2.puts corpus names).backend := by
      rw [puts_stores, put_stores]
      exact Finset.mem_union_left _ (Finset.mem_insert_self _ _)
    rw [World.puts] at uncatalogued ⊢
    rw [World.outcomes, created_weight, List.map_cons, List.sum_cons, ← created_weight]
    by_cases stored : name ∈ world.backend
    next =>
      have same : world.put corpus name =
          (⟨name, false, corpus.length name, 0⟩, { world with tombstones := world.tombstones.erase name }) := if_pos stored
      rw [same] at uncatalogued ⊢
      rw [← ih uncatalogued]
      dsimp only
      rw [if_neg (by decide), Nat.zero_add]
      rfl
    next =>
      have fresh : name ∉ world.catalog := uncatalogued name (Finset.mem_sdiff.mpr ⟨kept, stored⟩)
      have same : world.put corpus name = (⟨name, true, corpus.length name, corpus.occupied name⟩, world.written corpus name) :=
        if_neg stored
      rw [same] at uncatalogued ⊢
      have grown : (world.written corpus name).catalogued_bytes = corpus.occupied name + world.catalogued_bytes :=
        insertIfNew_bytes fresh _
      have rest := ih fun other new => by
        obtain ⟨there, absent⟩ := Finset.mem_sdiff.mp new
        have here : name ∈ (world.written corpus name).backend := Finset.mem_insert_self _ _
        have apart : name ≠ other := by
          rintro rfl
          exact absent here
        have before : other ∉ world.catalog :=
          uncatalogued other (Finset.mem_sdiff.mpr ⟨there, fun old => absent (Finset.mem_insert_of_mem old)⟩)
        simpa [World.written, Std.ExtTreeMap.mem_insertIfNew, apart] using before
      rw [grown] at rest
      rw [← rest]
      dsimp only
      rw [if_pos rfl]
      omega

/-! ### Again -/

/-- What is stored and has no tombstone. -/
def World.Settled (world : World) (name : ObjectName) : Prop := name ∈ world.backend ∧ name ∉ world.tombstones

theorem put_settled {name : ObjectName} (settled : world.Settled name) :
    world.put corpus name = (⟨name, false, corpus.length name, 0⟩, world) := by
  have absent : world.tombstones.erase name = world.tombstones := by
    refine Std.ExtTreeMap.ext_getElem? fun other => ?_
    rw [Std.ExtTreeMap.getElem?_erase]
    split
    next same =>
      rw [← Std.LawfulEqOrd.compare_eq_iff_eq.mp same, Std.ExtTreeMap.getElem?_eq_none settled.2]
    next => rfl
  rw [World.put, if_pos settled.1, absent]

theorem puts_settled {names : List ObjectName} (settled : ∀ name ∈ names, world.Settled name) :
    world.puts corpus names = world := by
  induction names with
  | nil => rfl
  | cons name names ih =>
    obtain ⟨first, others⟩ := List.forall_mem_cons.mp settled
    rw [World.puts, put_settled first]
    exact ih others

theorem put_leaves_stored (name : ObjectName) : (world.put corpus name).2.Settled name := by
  refine ⟨by rw [put_stores]; exact Finset.mem_insert_self _ _, ?_⟩
  rw [World.put]
  split <;> simp [World.written]

theorem put_leaves_settled {name : ObjectName} (other : ObjectName) (settled : world.Settled name) :
    (world.put corpus other).2.Settled name := by
  refine ⟨by rw [put_stores]; exact Finset.mem_insert_of_mem settled.1, ?_⟩
  have apart := settled.2
  rw [World.put]
  split <;> simp [World.written, apart]

theorem puts_leave_settled {name : ObjectName} (names : List ObjectName) (settled : world.Settled name) :
    (world.puts corpus names).Settled name := by
  induction names generalizing world with
  | nil => exact settled
  | cons other names ih => exact ih (put_leaves_settled other settled)

theorem puts_settle (names : List ObjectName) : ∀ name ∈ names, (world.puts corpus names).Settled name := by
  induction names generalizing world with
  | nil => exact fun _ impossible => by cases impossible
  | cons name names ih => exact List.forall_mem_cons.mpr ⟨puts_leave_settled names (put_leaves_stored name), ih⟩

end Puts

/-! ## What an ingest does, whatever is stored -/

/-- Without the counts of what it walks through. -/
def IngestStats.bill (stats : IngestStats) : IngestStats := { stats with files := 0, directories := 0, symlinks := 0, chunks := 0 }

section Ingests

variable {α β : Type} {corpus : Corpus} {blake3 : Blake3}

/-- It puts the same objects from every state, comes to the same end, and bills the outcomes. -/
def Bills (corpus : Corpus) (act : Ingesting α) : Prop :=
  ∃ names, (∃ error, ∀ stats world, runs corpus (act stats) world = (.error error, world.puts corpus names)) ∨
    ∃ value, ∀ stats world, ∃ counted, runs corpus (act stats) world = (.ok (value, counted), world.puts corpus names) ∧
      counted.bill = (world.outcomes corpus names).foldl IngestStats.record stats.bill

theorem bills_bind {act : Ingesting α} {rest : α → Ingesting β} (first : Bills corpus act) (others : ∀ value, Bills corpus (rest value)) :
    Bills corpus (act >>= rest) := by
  have opened (stats : IngestStats) : (act >>= rest) stats = act stats >>= fun pair => rest pair.1 pair.2 := rfl
  obtain ⟨names, ⟨error, early⟩ | ⟨value, early⟩⟩ := first
  next =>
    refine ⟨names, .inl ⟨error, fun stats world => ?_⟩⟩
    rw [opened, runs, Prog.run_bind, ← runs, early]
  next =>
    have goes (stats : IngestStats) (world : World) : ∃ counted,
        runs corpus ((act >>= rest) stats) world = runs corpus (rest value counted) (world.puts corpus names) ∧
          counted.bill = (world.outcomes corpus names).foldl IngestStats.record stats.bill := by
      obtain ⟨counted, ran, billed⟩ := early stats world
      exact ⟨counted, by rw [opened, runs, Prog.run_bind_ok _ ran, runs], billed⟩
    obtain ⟨names', ⟨error, late⟩ | ⟨value', late⟩⟩ := others value
    next =>
      refine ⟨names ++ names', .inl ⟨error, fun stats world => ?_⟩⟩
      obtain ⟨counted, ran, -⟩ := goes stats world
      rw [ran, late, puts_append]
    next =>
      refine ⟨names ++ names', .inr ⟨value', fun stats world => ?_⟩⟩
      obtain ⟨counted, ran, billed⟩ := goes stats world
      obtain ⟨counted', ran', billed'⟩ := late counted (world.puts corpus names)
      refine ⟨counted', by rw [ran, ran', puts_append], ?_⟩
      rw [billed', billed, outcomes_append, List.foldl_append]

theorem bills_pure (value : α) : Bills corpus (pure value) := ⟨[], .inr ⟨value, fun stats _ => ⟨stats, rfl, rfl⟩⟩⟩

theorem bills_lift (result : Except PyError α) : Bills corpus (liftM (ofExcept result : Act α) : Ingesting α) := by
  cases result with
  | error error => exact ⟨[], .inl ⟨error, fun _ _ => rfl⟩⟩
  | ok value => exact ⟨[], .inr ⟨value, fun stats _ => ⟨stats, rfl, rfl⟩⟩⟩

theorem bills_modify {f : IngestStats → IngestStats} (unbilled : ∀ stats, (f stats).bill = stats.bill) :
    Bills corpus (modify f : Ingesting PUnit) := ⟨[], .inr ⟨⟨⟩, fun stats _ => ⟨f stats, rfl, unbilled stats⟩⟩⟩

theorem bills_put (object : LedgerObject) : Bills corpus (Storing.put corpus IngestStats.record object) := by
  have opened (stats : IngestStats) : Storing.put corpus IngestStats.record object stats =
      put_object corpus object >>= fun outcome => pure (outcome.name, stats.record outcome) := by
    change (put_object corpus object >>= fun outcome => pure (outcome, stats)) >>= _ = _
    rw [bind_assoc]
    rfl
  cases named : corpus.name_of object with
  | error error =>
    refine ⟨[], .inl ⟨error, fun stats world => ?_⟩⟩
    rw [opened, put_object, named]
    rfl
  | ok name =>
    refine ⟨[name], .inr ⟨name, fun stats world => ⟨stats.record (world.put corpus name).1, ?_, rfl⟩⟩⟩
    have put : runs corpus (put_object corpus object) world = (.ok (world.put corpus name).1, (world.put corpus name).2) := by
      rw [put_object, named]
      exact runs_put name
    have same : (world.put corpus name).1.name = name := by rw [World.put]; split <;> rfl
    rw [opened, runs, Prog.run_bind_ok _ put, same]
    rfl

theorem bills_mapM {items : List α} {round : α → Ingesting β} (rounds : ∀ item ∈ items, Bills corpus (round item)) :
    Bills corpus (items.mapM round) := by
  induction items with
  | nil => exact bills_pure []
  | cons item items ih =>
    rw [List.mapM_cons]
    obtain ⟨first, others⟩ := List.forall_mem_cons.mp rounds
    exact bills_bind first fun _ => bills_bind (ih others) fun _ => bills_pure _

/-! ### The builders -/

theorem build_blob_nodes_bills (level : Nat) (entries : List BlobEntry) (start : Nat) (ends : List Nat) :
    Bills corpus (Storing.build_blob_nodes corpus IngestStats.record level entries start ends) := by
  induction ends generalizing start with
  | nil => exact bills_pure []
  | cons stop ends ih => exact bills_bind (bills_put _) fun _ => bills_bind (ih stop) fun _ => bills_pure _

theorem build_blob_levels_bills (params : ShapeParams) (rounds level : Nat) (entries : List BlobEntry) :
    Bills corpus (Storing.build_blob_levels corpus IngestStats.record blake3 params rounds level entries) := by
  induction rounds generalizing level entries with
  | zero => exact bills_lift _
  | succ rounds ih =>
    refine bills_bind (bills_lift _) fun ends => bills_bind (build_blob_nodes_bills level entries 0 ends) fun nodes => ?_
    rcases nodes with _ | ⟨node, _ | ⟨other, nodes⟩⟩
    next => exact ih _ _
    next => exact bills_pure _
    next => exact ih _ _

theorem build_tree_nodes_bills (level : Nat) (current : List TreeEntry) (start : Nat) (ends : List Nat) :
    Bills corpus (Storing.build_tree_nodes corpus IngestStats.record level current start ends) := by
  induction ends generalizing start with
  | nil => exact bills_pure []
  | cons stop ends ih => exact bills_bind (bills_put _) fun _ => bills_bind (ih stop) fun _ => bills_pure _

theorem build_tree_levels_bills (params : ShapeParams) (rounds level : Nat) (current : List TreeEntry) :
    Bills corpus (Storing.build_tree_levels corpus IngestStats.record blake3 params rounds level current) := by
  induction rounds generalizing level current with
  | zero => exact bills_lift _
  | succ rounds ih =>
    refine bills_bind (bills_lift _) fun ends => bills_bind (build_tree_nodes_bills level current 0 ends) fun nodes => ?_
    rcases nodes with _ | ⟨node, _ | ⟨other, nodes⟩⟩
    next => exact ih _ _
    next => exact bills_pure _
    next => exact ih _ _

theorem build_tree_bills (entries : List TreeEntry) (params : ShapeParams) :
    Bills corpus (Storing.build_tree corpus IngestStats.record blake3 entries params) := by
  rw [Storing.build_tree]
  split
  next => exact bills_put _
  next => exact bills_bind (bills_lift _) fun _ => build_tree_levels_bills _ _ _ _

/-! ### The walk -/

variable {ingester : Ingester}

theorem build_blob_bills (entries : List BlobEntry) : Bills ingester.corpus (ingester.build_blob entries) := by
  rw [Ingester.build_blob, Storing.build_blob]
  split
  next => exact bills_put _
  next => exact build_blob_levels_bills _ _ _ _

theorem put_chunk_bills (payload : Bytes) : Bills ingester.corpus (ingester.put_chunk payload) :=
  bills_bind (bills_put _) fun _ => bills_pure _

theorem write_stream_bills (source : List Bytes) : Bills ingester.corpus (ingester.write_stream source) := by
  refine bills_bind (bills_mapM fun payload _ => ?_) fun entries => ?_
  next => exact bills_bind (put_chunk_bills payload) fun _ => bills_bind (bills_modify fun _ => rfl) fun _ => bills_pure _
  next =>
    split
    next => exact bills_put _
    next => exact build_blob_bills entries

theorem write_bytes_bills (data : Bytes) : Bills ingester.corpus (ingester.write_bytes data) := by
  rw [Ingester.write_bytes]
  split
  next => exact bills_put _
  next =>
    refine bills_bind (bills_mapM fun payload _ => put_chunk_bills payload) fun entries => ?_
    exact bills_bind (bills_modify fun _ => rfl) fun _ => build_blob_bills entries

theorem walk_directory_bills {children : List (Bytes × Ingesting TreeEntry)} (inner : ∀ child ∈ children, Bills ingester.corpus child.2) :
    Bills ingester.corpus (ingester.walk_directory children) := by
  refine bills_bind (bills_lift _) fun _ => bills_bind (bills_mapM fun child member => ?_) fun entries => ?_
  next =>
    have there : child ∈ children := (List.mergeSort_perm children _).mem_iff.mp (List.mem_of_mem_filter member)
    exact bills_bind (bills_lift _) fun _ => inner child there
  next => exact bills_bind (bills_modify fun _ => rfl) fun _ => build_tree_bills entries _

theorem entry_for_bills (node : Node) : ∀ name, Bills ingester.corpus (ingester.entry_for node name) := by
  induction node with
  | file content executable =>
    intro name
    rw [Ingester.entry_for]
    exact bills_bind (bills_modify fun _ => rfl) fun _ => bills_bind (write_stream_bills _) fun _ => bills_pure _
  | symlink target =>
    intro name
    rw [Ingester.entry_for]
    refine bills_bind (bills_lift _) fun read => bills_bind (bills_modify fun _ => rfl) fun _ => ?_
    exact bills_bind (write_bytes_bills read) fun _ => bills_pure _
  | special =>
    intro name
    rw [Ingester.entry_for]
    exact bills_lift _
  | directory children ih =>
    intro name
    rw [Ingester.entry_for]
    refine bills_bind (walk_directory_bills fun entry member => ?_) fun _ => bills_pure _
    rw [ingester.entries_for_map] at member
    obtain ⟨child, there, rfl⟩ := List.mem_map.mp member
    exact ih child there child.1

theorem ingest_directory_bills (node : Node) : Bills ingester.corpus (ingester.ingest_directory node) := by
  cases node with
  | directory children =>
    refine walk_directory_bills fun entry member => ?_
    rw [ingester.entries_for_map] at member
    obtain ⟨child, -, rfl⟩ := List.mem_map.mp member
    exact entry_for_bills child.2 child.1
  | _ => exact bills_lift _

/-! ### Listed in another order -/

theorem encodable (children : List (Bytes × Ingesting TreeEntry)) :
    (children.forM fun child => do let _ ← fs_encode child.1) =
      if children.all fun child => (Text.decodeUtf8 child.1).isSome then .ok ()
      else .error (.valueError "'utf-8' codec can't encode characters: surrogates not allowed") := by
  induction children with
  | nil => rfl
  | cons child children ih =>
    rw [List.forM_eq_forM] at ih ⊢
    rw [List.forM_cons, ih, List.all_cons]
    cases read : Text.decodeUtf8 child.1 with
    | none =>
      rw [fs_encode, read]
      rfl
    | some =>
      rw [fs_encode, read]
      rfl

theorem walk_directory_sorted (children : List (Bytes × Ingesting TreeEntry)) :
    ingester.walk_directory (children.mergeSort fun left right => left.1 ≤ right.1) = ingester.walk_directory children := by
  have again : (children.mergeSort fun left right => left.1 ≤ right.1).mergeSort (fun left right => left.1 ≤ right.1) =
      children.mergeSort fun left right => left.1 ≤ right.1 :=
    List.mergeSort_of_pairwise (List.pairwise_mergeSort (fun _ _ _ => by simpa using List.le_trans) (fun left right => by
      simpa using List.le_total left.1 right.1) children)
  rw [Ingester.walk_directory, Ingester.walk_directory, encodable, encodable, again, (List.mergeSort_perm children _).all_eq]

theorem walk_arranged {children : Listing} (inner : ∀ child ∈ children, ∀ name, ingester.entry_for child.2.arranged name = ingester.entry_for child.2 name) :
    ingester.walk_directory (ingester.entries_for ((children.mergeSort fun left right => left.1 ≤ right.1).map fun child =>
      (child.1, child.2.arranged))) = ingester.walk_directory (ingester.entries_for children) := by
  have sorted : (children.mergeSort fun left right => left.1 ≤ right.1).map (fun child => (child.1, ingester.entry_for child.2 child.1)) =
      (ingester.entries_for children).mergeSort fun left right => left.1 ≤ right.1 := by
    rw [ingester.entries_for_map, List.map_mergeSort]
    intro left _ right _
    rfl
  have same : (children.mergeSort fun left right => left.1 ≤ right.1).map (fun child => (child.1, ingester.entry_for child.2.arranged child.1)) =
      (children.mergeSort fun left right => left.1 ≤ right.1).map fun child => (child.1, ingester.entry_for child.2 child.1) :=
    List.map_congr_left fun child member => by rw [inner child (List.mem_mergeSort.mp member)]
  rw [ingester.entries_for_map, List.map_map, ← walk_directory_sorted (ingester.entries_for children), ← sorted, ← same]
  rfl

theorem entry_for_arranged (node : Node) : ∀ name, ingester.entry_for node.arranged name = ingester.entry_for node name := by
  induction node with
  | directory children ih =>
    intro name
    rw [Node.arranged_directory, Ingester.entry_for, Ingester.entry_for, walk_arranged ih]
  | _ => exact fun _ => by rw [Node.arranged]; simp

theorem ingest_arranged (node : Node) : ingester.ingest_directory node.arranged = ingester.ingest_directory node := by
  cases node with
  | directory children =>
    rw [Node.arranged_directory]
    exact walk_arranged fun child _ => entry_for_arranged child.2
  | _ => rw [Node.arranged]; simp

/-! ### The bill -/

theorem put_sized (world : World) (name : ObjectName) :
    (world.put corpus name).1.size = corpus.length (world.put corpus name).1.name ∧
      (world.put corpus name).1.stored_size =
        if (world.put corpus name).1.created then corpus.occupied (world.put corpus name).1.name else 0 := by
  rw [World.put]
  split <;> exact ⟨rfl, rfl⟩

theorem outcomes_sized {world : World} {names : List ObjectName} :
    ∀ outcome ∈ world.outcomes corpus names, outcome.size = corpus.length outcome.name ∧
      outcome.stored_size = if outcome.created then corpus.occupied outcome.name else 0 := by
  induction names generalizing world with
  | nil => exact fun _ impossible => by cases impossible
  | cons name names ih => exact List.forall_mem_cons.mpr ⟨put_sized world name, ih⟩

/-- A counter that each created object moves by what it weighs. -/
theorem bill_weighs {counter : IngestStats → Nat} {weight : ObjectName → Nat} {outcomes : List PutOutcome}
    (moves : ∀ stats : IngestStats, ∀ outcome ∈ outcomes,
      counter (stats.record outcome) = counter stats + if outcome.created then weight outcome.name else 0) (stats : IngestStats) :
    counter (outcomes.foldl IngestStats.record stats) = counter stats + created_weight weight outcomes := by
  induction outcomes generalizing stats with
  | nil => rfl
  | cons outcome outcomes ih =>
    have rest := ih (fun stats other member => moves stats other (List.mem_cons_of_mem _ member)) (stats.record outcome)
    rw [List.foldl_cons, rest, moves stats outcome List.mem_cons_self, created_weight, created_weight, List.map_cons, List.sum_cons,
      Nat.add_assoc]

theorem bill_weight {world : World} {names : List ObjectName} {stats : IngestStats}
    (billed : stats.bill = (world.outcomes corpus names).foldl IngestStats.record IngestStats.none.bill) :
    stats.objects_created = created_weight (fun _ => 1) (world.outcomes corpus names) ∧
      stats.bytes_stored = created_weight corpus.length (world.outcomes corpus names) ∧
      stats.bytes_on_disk = created_weight corpus.occupied (world.outcomes corpus names) := by
  have sized := @outcomes_sized corpus world names
  have created := @bill_weighs IngestStats.objects_created (fun _ => 1) (world.outcomes corpus names) (fun _ _ _ => rfl)
    IngestStats.none.bill
  have stored := @bill_weighs IngestStats.bytes_stored corpus.length (world.outcomes corpus names)
    (fun _ outcome member => by rw [IngestStats.record, (sized outcome member).1]) IngestStats.none.bill
  have on_disk := @bill_weighs IngestStats.bytes_on_disk corpus.occupied (world.outcomes corpus names)
    (fun _ outcome member => by rw [IngestStats.record, (sized outcome member).2]) IngestStats.none.bill
  rw [← billed] at created stored on_disk
  exact ⟨created.trans (Nat.zero_add _), stored.trans (Nat.zero_add _), on_disk.trans (Nat.zero_add _)⟩

end Ingests

/-- The report of an ingest, against the objects and the catalogued bytes that it adds; and that of an ingest of the same
directory, in whatever order it is listed, right after it. -/
theorem ingest_accounts (ingester : Ingester) {node listed : Node} (unchanged : listed.arranged = node.arranged) {world after : World}
    {root : ObjectName} {stats : IngestStats}
    (ingested : runs ingester.corpus (ingester.ingest_directory node .none) world = (.ok (root, stats), after)) :
    world.backend ⊆ after.backend ∧
      stats.objects_created + world.backend.card = after.backend.card ∧
      stats.bytes_stored = (after.backend \ world.backend).sum ingester.corpus.length ∧
      ((∀ name ∈ after.backend \ world.backend, name ∉ world.catalog) →
        stats.bytes_on_disk + world.catalogued_bytes = after.catalogued_bytes) ∧
      ∃ again, runs ingester.corpus (ingester.ingest_directory listed .none) after = (.ok (root, again), after) ∧
        again.objects_created = 0 ∧ again.bytes_stored = 0 ∧ again.bytes_on_disk = 0 := by
  have repeated : ingester.ingest_directory listed = ingester.ingest_directory node := by
    rw [← ingest_arranged listed, unchanged, ingest_arranged]
  obtain ⟨names, ⟨error, fails⟩ | ⟨value, goes⟩⟩ := @ingest_directory_bills ingester node
  next =>
    rw [fails] at ingested
    cases ingested
  obtain ⟨counted, ran, billed⟩ := goes .none world
  obtain ⟨outcome, rfl⟩ := Prod.mk.inj (ran.symm.trans ingested)
  cases outcome
  obtain ⟨again, ran', billed'⟩ := goes .none (world.puts ingester.corpus names)
  obtain ⟨created, stored, on_disk⟩ := bill_weight billed
  have still : (world.puts ingester.corpus names).puts ingester.corpus names = world.puts ingester.corpus names :=
    puts_settled (puts_settle names)
  have nothing (weight : ObjectName → Nat) : created_weight weight ((world.puts ingester.corpus names).outcomes ingester.corpus names) = 0 := by
    rw [outcomes_new, still, Finset.sdiff_self, Finset.sum_empty]
  obtain ⟨created', stored', on_disk'⟩ := bill_weight billed'
  have kept : world.backend ⊆ (world.puts ingester.corpus names).backend := by
    rw [puts_stores]
    exact Finset.subset_union_left
  refine ⟨kept, ?_, ?_, fun uncatalogued => ?_, again, ?_, ?_, ?_, ?_⟩
  next =>
    have whole := @outcomes_weigh ingester.corpus world (fun _ => 1) names
    rw [← Finset.card_eq_sum_ones, ← Finset.card_eq_sum_ones] at whole
    omega
  next => rw [stored, outcomes_new]
  next => rw [on_disk, ← puts_catalogued names uncatalogued, Nat.add_comm]
  next => rw [repeated, ran', still]
  next => rw [created', nothing]
  next => rw [stored', nothing]
  next => rw [on_disk', nothing]

/-! ## A directory with the same directory twice -/

def sharedRoot : LedgerObject := .tree ⟨0, [⟨[0x61], .tree, emptyTreeName, 0, 0⟩, ⟨[0x62], .tree, emptyTreeName, 0, 0⟩]⟩

def sharedRootName : ObjectName where
  digest := [
    0xec, 0x7f, 0x6b, 0xcb, 0xa4, 0xa7, 0x9a, 0xaa, 0x44, 0xac, 0x2c, 0x7e, 0x99, 0x48, 0x24, 0x2e, 0x70,
    0x97, 0xf9, 0xf2, 0x27, 0x03, 0x90, 0xb3, 0x31, 0xa4, 0xf4, 0x74, 0x24, 0xda, 0x37, 0xd5]
  sized := rfl

/-- The digests are those of BLAKE3. -/
def sharedDigests : Blake3 := .ofTable [(emptyTreeFramed, emptyTreeName.digest), (Layout.object sharedRoot, sharedRootName.digest)]

def sharedIngester : Ingester where
  corpus := .ofBytes sharedDigests [emptyTreeFramed, Layout.object sharedRoot] List.length (by decide)
  blake3 := sharedDigests
  chunk_params := smallChunks
  shape_params := PRODUCTION_SHAPE
  exclude := default_exclude

def sharedDirectory : Node := .directory [([0x61], .directory []), ([0x62], .directory [])]

def sharedStored : World := (runs sharedIngester.corpus (sharedIngester.ingest_directory sharedDirectory .none) (.empty 0)).2

/-- Three objects are offered, and two are stored. -/
theorem ingest_accounts_shared :
    sharedStored.backend.card = 2 ∧ (sharedStored.backend \ ∅).sum sharedIngester.corpus.length = 104 ∧
      sharedStored.catalogued_bytes = 104 ∧
      ∃ again, runs sharedIngester.corpus (sharedIngester.ingest_directory sharedDirectory .none) sharedStored =
          (.ok (sharedRootName, again), sharedStored) ∧
        again.objects_created = 0 ∧ again.bytes_stored = 0 ∧ again.bytes_on_disk = 0 := by
  have first : ([0x61] : Bytes) ≤ [0x62] := by decide
  have ran : (runs sharedIngester.corpus (sharedIngester.ingest_directory sharedDirectory .none) (.empty 0)).1 =
      .ok (sharedRootName, ⟨0, 3, 0, 0, 3, 2, 111, 104, 104⟩) := by
    rw [sharedDirectory]
    simp only [Ingester.ingest_directory, Ingester.entries_for, Ingester.entry_for, Ingester.walk_directory, List.mergeSort_nil]
    rw [List.mergeSort_of_pairwise (by simp [first])]
    decide +kernel
  obtain ⟨-, created, stored, on_disk, again⟩ := ingest_accounts sharedIngester rfl (Prod.ext ran rfl)
  exact ⟨created.symm, stored.symm, (on_disk fun _ _ => Std.ExtTreeMap.not_mem_empty).symm, again⟩

/-- The catalogue still has the row of an object whose deletion was interrupted. -/
def rowOnly : World := { World.empty 0 with catalog := (∅ : Std.ExtTreeMap ObjectName CatalogRow).insert emptyTreeName ⟨7, some .tree, 0⟩ }

def emptyIngester : Ingester := { sharedIngester with corpus := emptyTreeOnly, blake3 := emptyTreeDigests }

/-- Seven bytes are reported, and the catalogue does not grow. -/
theorem ingest_recatalogues :
    (∀ name ∈ rowOnly.backend, name ∈ rowOnly.catalog) ∧
      ∃ stats after, runs emptyTreeOnly (emptyIngester.ingest_directory (.directory []) .none) rowOnly = (.ok (emptyTreeName, stats), after) ∧
        stats.bytes_on_disk + rowOnly.catalogued_bytes ≠ after.catalogued_bytes := by
  refine ⟨fun name stored => absurd stored (Finset.notMem_empty name), ⟨0, 1, 0, 0, 1, 1, 7, 7, 7⟩, _, Prod.ext ?_ rfl, ?_⟩
  next =>
    simp only [Ingester.ingest_directory, Ingester.entries_for, Ingester.walk_directory, List.mergeSort_nil]
    decide
  next =>
    simp only [Ingester.ingest_directory, Ingester.entries_for, Ingester.walk_directory, List.mergeSort_nil]
    decide

end LedgerVcs
