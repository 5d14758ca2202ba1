import LedgerVcs.Maintenance.Plan

set_option autoImplicit false

/-! What a scan of the catalogue lists, shard by shard. -/

namespace LedgerVcs

open Wire (Bytes)

/-- A dict. Its listings sort the keys. -/
abbrev InMemoryWriteCatalog : Type := Std.ExtTreeMap ObjectName CatalogEntry

namespace InMemoryWriteCatalog

def record (memory : InMemoryWriteCatalog) (entries : List CatalogEntry) : InMemoryWriteCatalog :=
  entries.foldl (fun known entry => known.insertIfNew entry.name entry) memory

def forget (memory : InMemoryWriteCatalog) (names : List ObjectName) : InMemoryWriteCatalog :=
  names.foldl (fun known name => known.erase name) memory

/-- What the loop yields for one key. -/
def in_shard (prefix_bits shard : Nat) (row : ObjectName × CatalogEntry) : Except PyError Bool := do
  return decide ((← shard_of row.1 prefix_bits) = shard)

def iter_shard (memory : InMemoryWriteCatalog) (prefix_bits shard : Nat) : Except PyError (List CatalogEntry) := do
  let rows ← memory.toList.filterM (in_shard prefix_bits shard)
  return rows.map Prod.snd

end InMemoryWriteCatalog

namespace SqliteWriteCatalog

def record (entries : List CatalogEntry) : Act Unit := do
  let _ ← entries.mapM fun entry => issue (.catalog_record entry)

def forget (names : List ObjectName) : Act Unit := do
  let _ ← each names fun name => issue (.catalog_forget name)

/-- Every shard in turn. -/
def iter_shards (prefix_bits : Nat) : Act (List CatalogEntry) :=
  (List.range (1 <<< prefix_bits)).foldlM (fun listed shard => do
    return listed ++ (← iter_shard prefix_bits shard)) []

end SqliteWriteCatalog

/-- What a store asks of its catalogue. -/
inductive CatalogCall
  | record (entries : List CatalogEntry)
  | forget (names : List ObjectName)

def CatalogCall.sqlite : CatalogCall → Act Unit
  | .record entries => SqliteWriteCatalog.record entries
  | .forget names => SqliteWriteCatalog.forget names

def CatalogCall.in_memory (memory : InMemoryWriteCatalog) : CatalogCall → InMemoryWriteCatalog
  | .record entries => memory.record entries
  | .forget names => memory.forget names

/-- The rows of the table, as a dict holds them. -/
def World.entries (world : World) : InMemoryWriteCatalog := world.catalog.map fun name row => ⟨row, name⟩

variable {corpus : Corpus} {world : World} {prefix_bits : Nat}

/-! ## The two catalogues hold the same -/

theorem entries_record_entry (entry : CatalogEntry) (world : World) :
    (exec corpus (.catalog_record entry) world).2.entries = world.entries.insertIfNew entry.name entry := by
  refine Std.ExtTreeMap.ext_getElem? fun name => ?_
  simp only [World.entries, exec, Std.ExtTreeMap.getElem?_map, Std.ExtTreeMap.getElem?_insertIfNew,
    Std.ExtTreeMap.mem_map]
  split
  next here =>
    obtain rfl := Std.LawfulEqOrd.eq_of_compare here.1
    rfl
  next => rfl

theorem entries_forget_name (name : ObjectName) (world : World) :
    (exec corpus (.catalog_forget name) world).2.entries = world.entries.erase name := by
  refine Std.ExtTreeMap.ext_getElem? fun other => ?_
  simp only [World.entries, exec, Std.ExtTreeMap.getElem?_map, Std.ExtTreeMap.getElem?_erase]
  split <;> rfl

theorem entries_call (call : CatalogCall) (world : World) :
    (runs corpus call.sqlite world).2.entries = call.in_memory world.entries := by
  cases call with
  | record entries =>
    obtain ⟨values, returns⟩ := @Prog.run_mapM _ _ _ _ _ (exec corpus) _
      (fun entry => issue (.catalog_record entry)) (fun _ _ => ⟨_, rfl⟩) entries world
    rw [CatalogCall.sqlite, SqliteWriteCatalog.record, runs, Prog.run_bind_ok _ returns]
    exact (List.foldl_hom World.entries fun before entry => (@entries_record_entry corpus entry before).symm).symm
  | forget names =>
    obtain ⟨values, returns⟩ := @Prog.run_mapM _ _ _ _ _ (exec corpus) _
      (fun name => issue (.catalog_forget name)) (fun _ _ => ⟨_, rfl⟩) names world
    rw [CatalogCall.sqlite, SqliteWriteCatalog.forget, each, runs, Prog.run_bind_ok _ returns]
    exact (List.foldl_hom World.entries fun before name => (@entries_forget_name corpus name before).symm).symm

/-- A store's catalogue after these calls. -/
def World.after_calls (corpus : Corpus) (world : World) (calls : List CatalogCall) : World :=
  calls.foldl (fun before call => (runs corpus call.sqlite before).2) world

def InMemoryWriteCatalog.after_calls (calls : List CatalogCall) : InMemoryWriteCatalog :=
  calls.foldl CatalogCall.in_memory ∅

theorem entries_after_calls (calls : List CatalogCall) (empty : world.catalog = ∅) :
    (world.after_calls corpus calls).entries = .after_calls calls := by
  have none : world.entries = ∅ := by
    refine Std.ExtTreeMap.ext_getElem? fun name => ?_
    simp [World.entries, empty]
  rw [World.after_calls, InMemoryWriteCatalog.after_calls, ← none]
  exact (List.foldl_hom World.entries fun before call => (@entries_call corpus call before).symm).symm

/-! ## One shard -/

theorem filter_eq_iff {α : Type} {first second : α → Bool} {items : List α} :
    items.filter first = items.filter second ↔ ∀ item ∈ items, first item = second item := by
  constructor
  next =>
    intro same item member
    have kept : item ∈ items.filter first ↔ item ∈ items.filter second := by rw [same]
    rw [List.mem_filter, List.mem_filter, and_iff_right member, and_iff_right member] at kept
    exact Bool.eq_iff_iff.mpr kept
  next => exact List.filter_congr

theorem runs_iter_shard {shard : Nat} {low high : Bytes} (bounds : shard_bounds prefix_bits shard = .ok (low, high)) :
    runs corpus (SqliteWriteCatalog.iter_shard prefix_bits shard) world = (.ok (range_entries world low high), world) := by
  rw [SqliteWriteCatalog.iter_shard, bounds]
  rfl

theorem in_memory_iter_shard (accepted : 0 < prefix_bits ∧ prefix_bits ≤ MAX_PREFIX_BITS) (shard : Nat)
    (world : World) :
    world.entries.iter_shard prefix_bits shard =
      .ok ((world.catalog.toList.filter fun row => shard_of row.1 prefix_bits = .ok shard).map
        fun row => ⟨row.2, row.1⟩) := by
  have tested (row : ObjectName × CatalogEntry) : InMemoryWriteCatalog.in_shard prefix_bits shard row =
      .ok (decide (shard_of row.1 prefix_bits = .ok shard)) := by
    obtain ⟨number, _, numbered⟩ := has_shard accepted row.1
    rw [InMemoryWriteCatalog.in_shard, numbered]
    simp [bind, Except.bind, pure, Except.pure]
  rw [InMemoryWriteCatalog.iter_shard, Monads.filterM_ok fun row _ => tested row, World.entries,
    Std.ExtTreeMap.toList_map, List.filter_map]
  change Except.ok (List.map Prod.snd (List.map _ _)) = _
  rw [List.map_map]
  rfl

/-- The two list the same of a shard, unless it is the last and there is a digest to overlook. -/
theorem iter_shard_agrees (accepted : 0 < prefix_bits ∧ prefix_bits ≤ MAX_PREFIX_BITS) {shard : Nat}
    (fits : shard < 2 ^ prefix_bits) (world : World) :
    runs corpus (SqliteWriteCatalog.iter_shard prefix_bits shard) world =
        (world.entries.iter_shard prefix_bits shard, world) ↔
      ¬ (shard + 1 = 2 ^ prefix_bits ∧ ∃ name ∈ world.catalog, Overlooked name) := by
  obtain ⟨low, high, bounds⟩ := @accepted_bounds _ accepted shard (by simpa [Nat.shiftLeft_eq] using fits)
  have same_rows : Function.Injective fun row : ObjectName × CatalogRow => (⟨row.2, row.1⟩ : CatalogEntry) := by
    intro left right same
    obtain ⟨rows, names⟩ := CatalogEntry.mk.inj same
    exact Prod.ext names rows
  rw [runs_iter_shard bounds, in_memory_iter_shard accepted, range_entries, Prod.mk.injEq, Except.ok.injEq,
    and_iff_left rfl, List.map_inj_right same_rows, filter_eq_iff]
  simp only [decide_eq_decide, Prod.forall, range_exact bounds, Std.ExtTreeMap.mem_toList_iff_getElem?_eq_some]
  constructor
  next =>
    rintro every ⟨last, name, stored, overlooked⟩
    obtain ⟨row, found⟩ := Option.isSome_iff_exists.mp (Std.ExtTreeMap.isSome_getElem?_iff_mem.mpr stored)
    exact every name row found ⟨overlooked, last⟩
  next =>
    rintro none name row found ⟨overlooked, last⟩
    exact none ⟨last, name, Std.ExtTreeMap.isSome_getElem?_iff_mem.mp (by rw [found]; rfl), overlooked⟩

/-- The keep-sets' names of a shard, unless it is the last and there is a digest to overlook. -/
theorem keepset_iter_shard_exact (accepted : 0 < prefix_bits ∧ prefix_bits ≤ MAX_PREFIX_BITS) {shard : Nat}
    (fits : shard < 2 ^ prefix_bits) (world : World) :
    runs corpus (SqliteKeepSetStore.iter_shard prefix_bits shard) world =
        (.ok ((world.keepset.image Prod.snd).filter fun name => shard_of name prefix_bits = .ok shard), world) ↔
      ¬ (shard + 1 = 2 ^ prefix_bits ∧ ∃ name, world.Live name ∧ Overlooked name) := by
  obtain ⟨low, high, bounds⟩ := @accepted_bounds _ accepted shard (by simpa [Nat.shiftLeft_eq] using fits)
  have listed : runs corpus (SqliteKeepSetStore.iter_shard prefix_bits shard) world =
      (.ok (range_live world low high), world) := by
    rw [SqliteKeepSetStore.iter_shard, bounds]
    rfl
  rw [listed, range_live, Prod.mk.injEq, Except.ok.injEq, and_iff_left rfl, Finset.filter_inj']
  simp only [Finset.mem_image, Prod.exists, exists_eq_right, range_exact bounds]
  constructor
  next =>
    rintro every ⟨last, name, ⟨env, kept⟩, overlooked⟩
    exact every ⟨env, kept⟩ ⟨overlooked, last⟩
  next =>
    rintro none name ⟨env, kept⟩ ⟨overlooked, last⟩
    exact none ⟨last, name, ⟨env, kept⟩, overlooked⟩

/-! ## All shards -/

/-- What one shard adds to the scan. -/
def shard_entries (world : World) (prefix_bits shard : Nat) : List CatalogEntry :=
  match shard_bounds prefix_bits shard with
  | .error _ => []
  | .ok (low, high) => range_entries world low high

theorem names_range_entries (world : World) (low high : Bytes) :
    (range_entries world low high).map CatalogEntry.name = world.catalog.keys.filter (InRange low high) := by
  rw [range_entries, List.map_map, ← Std.ExtTreeMap.map_fst_toList_eq_keys, List.filter_map]
  rfl

/-- The scan comes to each digest that no sentinel cuts off, once. -/
theorem runs_iter_shards (accepted : 0 < prefix_bits ∧ prefix_bits ≤ MAX_PREFIX_BITS) (world : World) :
    ∃ listed, runs corpus (SqliteWriteCatalog.iter_shards prefix_bits) world = (.ok listed, world) ∧
      (listed.map CatalogEntry.name).Nodup ∧
        ∀ name, name ∈ listed.map CatalogEntry.name ↔ name ∈ world.catalog ∧ ¬ Overlooked name := by
  have rounds (so_far : List CatalogEntry) (shard : Nat) (member : shard ∈ List.range (1 <<< prefix_bits)) :
      Prog.run (exec corpus) (do return so_far ++ (← SqliteWriteCatalog.iter_shard prefix_bits shard)) world =
        (.ok (so_far ++ shard_entries world prefix_bits shard), world) := by
    obtain ⟨low, high, bounds⟩ := accepted_bounds accepted member
    rw [Prog.run_bind_ok _ (runs_iter_shard bounds), shard_entries, bounds]
    rfl
  have names {shard : Nat} (member : shard ∈ List.range (1 <<< prefix_bits)) :
      (shard_entries world prefix_bits shard).map CatalogEntry.name =
        world.catalog.keys.filter fun name => shard_of name prefix_bits = .ok shard ∧ ¬ Overlooked name := by
    obtain ⟨low, high, bounds⟩ := accepted_bounds accepted member
    rw [shard_entries, bounds, names_range_entries]
    exact List.filter_congr fun name _ => decide_eq_decide.mpr (inRange_iff bounds name)
  refine ⟨_, Prog.run_foldlM _ rounds [], ?_⟩
  rw [← List.flatMap_eq_foldl, List.map_flatMap, List.flatMap_congr fun shard member => names member]
  constructor
  next =>
    rw [List.nodup_flatMap]
    refine ⟨fun shard _ => Std.ExtTreeMap.nodup_keys.filter _, List.nodup_range.imp fun {first second} different => ?_⟩
    intro name inFirst inSecond
    obtain ⟨here, -⟩ := of_decide_eq_true (List.mem_filter.mp inFirst).2
    obtain ⟨there, -⟩ := of_decide_eq_true (List.mem_filter.mp inSecond).2
    exact different (Except.ok.inj (here.symm.trans there))
  next =>
    intro name
    simp only [List.mem_flatMap, List.mem_filter, decide_eq_true_eq, Std.ExtTreeMap.mem_keys]
    constructor
    next => rintro ⟨shard, -, stored, -, seen⟩; exact ⟨stored, seen⟩
    next =>
      rintro ⟨stored, seen⟩
      obtain ⟨shard, member, here⟩ := has_shard accepted name
      exact ⟨shard, member, stored, here, seen⟩

theorem iter_shards_exact (accepted : 0 < prefix_bits ∧ prefix_bits ≤ MAX_PREFIX_BITS) (world : World) :
    (∃ listed, runs corpus (SqliteWriteCatalog.iter_shards prefix_bits) world = (.ok listed, world) ∧
        ∀ name ∈ world.catalog, (listed.map CatalogEntry.name).count name = 1) ↔
      ∀ name ∈ world.catalog, ¬ Overlooked name := by
  obtain ⟨listed, returns, once, visited⟩ := @runs_iter_shards corpus prefix_bits accepted world
  constructor
  next =>
    rintro ⟨listed', returns', every⟩ name stored
    obtain rfl : listed = listed' := Except.ok.inj (congrArg Prod.fst (returns.symm.trans returns'))
    exact ((visited name).mp (List.count_pos_iff.mp (by rw [every name stored]; exact Nat.one_pos))).2
  next =>
    intro seen
    exact ⟨listed, returns, fun name stored =>
      List.count_eq_one_of_mem once ((visited name).mpr ⟨stored, seen name stored⟩)⟩

/-- A shard's range, a scan of all shards and the two catalogues agree with the shard numbers unless the sentinel
cuts off a digest of the last shard. -/
theorem shards_exact (corpus : Corpus) (prefix_bits : Nat) (accepted : check_bits prefix_bits = .ok ()) :
    (∀ shard < 2 ^ prefix_bits, ∃ low high, shard_bounds prefix_bits shard = .ok (low, high) ∧
      ∀ name, (InRange low high name ↔ shard_of name prefix_bits = .ok shard) ↔
        ¬ (Overlooked name ∧ shard + 1 = 2 ^ prefix_bits)) ∧
    (∀ world : World,
      (∃ listed, runs corpus (SqliteWriteCatalog.iter_shards prefix_bits) world = (.ok listed, world) ∧
          ∀ name ∈ world.catalog, (listed.map CatalogEntry.name).count name = 1) ↔
        ∀ name ∈ world.catalog, ¬ Overlooked name) ∧
    (∀ (clock : Int) (calls : List CatalogCall), ∀ shard < 2 ^ prefix_bits,
      let world := (World.empty clock).after_calls corpus calls
      runs corpus (SqliteWriteCatalog.iter_shard prefix_bits shard) world =
          ((InMemoryWriteCatalog.after_calls calls).iter_shard prefix_bits shard, world) ↔
        ¬ (shard + 1 = 2 ^ prefix_bits ∧ ∃ name ∈ world.catalog, Overlooked name)) ∧
    (∀ world : World, ∀ shard < 2 ^ prefix_bits,
      runs corpus (SqliteKeepSetStore.iter_shard prefix_bits shard) world =
          (.ok ((world.keepset.image Prod.snd).filter fun name => shard_of name prefix_bits = .ok shard), world) ↔
        ¬ (shard + 1 = 2 ^ prefix_bits ∧ ∃ name, world.Live name ∧ Overlooked name)) := by
  have accepted := ensure_ok.mp accepted
  refine ⟨fun shard fits => ?_, iter_shards_exact accepted, fun clock calls shard fits => ?_,
    fun world shard fits => keepset_iter_shard_exact accepted fits world⟩
  next =>
    obtain ⟨low, high, bounds⟩ := @accepted_bounds _ accepted shard (by simpa [Nat.shiftLeft_eq] using fits)
    exact ⟨low, high, bounds, range_exact bounds⟩
  next =>
    rw [← @entries_after_calls corpus (World.empty clock) calls rfl]
    exact iter_shard_agrees accepted fits _

/-- Four bits, and a store that has come to catalogue the digest of zeros. -/
theorem shards_exact_sixteen :
    ∃ low high, shard_bounds 4 15 = .ok (low, high) ∧ InRange low high topName = False ∧
      runs .none (SqliteWriteCatalog.iter_shard 4 0) ((World.empty 0).after_calls .none [.record [⟨⟨1, none, 0⟩, zeroName⟩]]) =
        ((InMemoryWriteCatalog.after_calls [.record [⟨⟨1, none, 0⟩, zeroName⟩]]).iter_shard 4 0,
          (World.empty 0).after_calls .none [.record [⟨⟨1, none, 0⟩, zeroName⟩]]) := by
  obtain ⟨ranges, -, agree, -⟩ := shards_exact .none 4 rfl
  obtain ⟨low, high, bounds, exact_⟩ := ranges 15 (by decide)
  refine ⟨low, high, bounds, eq_false fun inside => ?_, (agree 0 [.record [⟨⟨1, none, 0⟩, zeroName⟩]] 0 (by decide)).mpr ?_⟩
  next => exact (exact_ topName).mp ⟨fun _ => by decide, fun _ => inside⟩ ⟨by decide, rfl⟩
  next => rintro ⟨wrong, -⟩; cases wrong

/-- The last shard's range leaves out a digest of that shard, which starts with four `0xff` bytes. -/
theorem top_digest_unlisted :
    shard_bounds 4 15 = .ok ([0xf0, 0x00, 0x00], [0xff, 0xff, 0xff, 0xff]) ∧ shard_of topName 4 = .ok 15 ∧
      ¬ InRange [0xf0, 0x00, 0x00] [0xff, 0xff, 0xff, 0xff] topName := by
  decide

end LedgerVcs
