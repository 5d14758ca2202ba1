import LedgerVcs.Maintenance.Gc

set_option autoImplicit false

namespace LedgerVcs

open Wire (Bytes)
open GarbageCollector (scan_shard env_leased session_leased)

/-! ## What the collector should take, and what it looks at -/

/-- Recorded under an upload session of the environment that has not expired. -/
def RecordedIn (partition : Partition) (now : Int) (name : ObjectName) : Prop :=
  ∃ (session : SessionId) (item : Item WriteSession),
    partition.sessions[session]? = some item ∧ now < item.body.expires_at_us ∧
      ∃ (page : SessionPage) (recorded : Item (List ObjectName)),
        partition.session_pages[page]? = some recorded ∧
          page.session = item.body.session_id ∧ name ∈ recorded.body

def Leased (world : World) (name : ObjectName) : Prop :=
  ∃ env, RecordedIn (world.partition env) world.clock name

/-- Recorded in a page that the bounded lists of environments, sessions and pages come to. -/
def ListedIn (partition : Partition) (now : Int) (name : ObjectName) : Prop :=
  ∃ item ∈ partition.query 1000 .sessions, now < item.body.expires_at_us ∧
    ∃ row ∈ partition.query PAGE_QUERY_LIMIT (.session_pages item.body.session_id), name ∈ row.2.body

def Listed (world : World) (name : ObjectName) : Prop :=
  ∃ env_name ∈ world.names.keys.take 10000, ∃ claim, world.names[env_name]? = some claim ∧
    ListedIn (world.partition claim.env_id) world.clock name

/-- Catalogued, and written no later than the cutoff. -/
def Old (config : GcConfig) (world : World) (name : ObjectName) : Prop :=
  ∃ row, world.catalog[name]? = some row ∧ row.written_at_us ≤ world.clock - config.grace_us

def Eligible (config : GcConfig) (world : World) (name : ObjectName) : Prop :=
  Old config world name ∧ ¬ world.Live name ∧ ¬ Leased world name

def Collectable (config : GcConfig) (world : World) (name : ObjectName) : Prop :=
  Old config world name ∧ ¬ world.Live name ∧ ¬ Listed world name ∧ ¬ Overlooked name

/-! ## Loops that gather -/

theorem mem_foldl {α β : Type} [DecidableEq α] {gather : Finset α → β → Finset α} {gives : β → Prop} {a : α}
    {items : List β} {start : Finset α}
    (round : ∀ so_far, ∀ item ∈ items, a ∈ gather so_far item ↔ a ∈ so_far ∨ gives item) :
    a ∈ items.foldl gather start ↔ a ∈ start ∨ ∃ item ∈ items, gives item := by
  induction items generalizing start with
  | nil => simp
  | cons item items ih =>
    rw [List.foldl_cons, ih fun so_far later member => round so_far later (List.mem_cons_of_mem _ member),
      round start item List.mem_cons_self]
    simp only [List.mem_cons, exists_eq_or_imp, or_assoc]

/-! ## The leases the collector reads -/

section Leases

variable {corpus : Corpus} {world : World}

theorem runs_uploaded (env : EnvId) (session : SessionId) :
    runs corpus (uploaded_objects env session) world =
      (.ok (((world.partition env).query PAGE_QUERY_LIMIT (.session_pages session)).flatMap fun page =>
        page.2.body), world) := rfl

def session_gather (env : EnvId) (world : World) (leased : Finset ObjectName) (session : WriteSession) :
    Finset ObjectName :=
  if session.expires_at_us > world.clock then
    leased ∪ (((world.partition env).query PAGE_QUERY_LIMIT (.session_pages session.session_id)).flatMap
      fun page => page.2.body).toFinset
  else leased

theorem runs_session_leased (env : EnvId) (leased : Finset ObjectName) (session : WriteSession) :
    runs corpus (session_leased env world.clock leased session) world =
      (.ok (session_gather env world leased session), world) := by
  rw [session_leased, session_gather]
  split <;> rfl

def env_gather (world : World) (leased : Finset ObjectName) (name : EnvName) : Finset ObjectName :=
  match world.names[name]? with
  | none => leased
  | some claim =>
    (((world.partition claim.env_id).query 1000 .sessions).map Item.body).foldl
      (session_gather claim.env_id world) leased

theorem runs_env_leased {name : EnvName} {claim : NameClaim} (claimed : world.names[name]? = some claim)
    (leased : Finset ObjectName) :
    runs corpus (env_leased world.clock leased name) world = (.ok (env_gather world leased name), world) := by
  have resolved : runs corpus (resolve_env_name name) world = (.ok claim.env_id, world) := by
    simp [runs, resolve_env_name, issue, exec, claimed]
  rw [env_leased, runs, Prog.run_bind_ok _ resolved, env_gather, claimed]
  exact Prog.run_foldlM _ (fun so_far session _ => runs_session_leased claim.env_id so_far session) _

theorem mem_session_gather {env : EnvId} {leased : Finset ObjectName} {session : WriteSession}
    {name : ObjectName} :
    name ∈ session_gather env world leased session ↔ name ∈ leased ∨
      (world.clock < session.expires_at_us ∧
        ∃ row ∈ (world.partition env).query PAGE_QUERY_LIMIT (.session_pages session.session_id),
          name ∈ row.2.body) := by
  rw [session_gather]
  split
  next live => simp only [Finset.mem_union, List.mem_toFinset, List.mem_flatMap, true_and, live]
  next expired => simp [expired]

theorem mem_env_gather {env_name : EnvName} {claim : NameClaim}
    (claimed : world.names[env_name]? = some claim) {leased : Finset ObjectName} {name : ObjectName} :
    name ∈ env_gather world leased env_name ↔
      name ∈ leased ∨ ListedIn (world.partition claim.env_id) world.clock name := by
  rw [env_gather, claimed]
  simp only
  rw [@mem_foldl _ _ _ (session_gather claim.env_id world) _ _ _ _ fun so_far session _ => mem_session_gather,
    ListedIn]
  simp only [List.mem_map, exists_exists_and_eq_and]

/-- The leased set is exactly what the bounded lists lead to. -/
theorem runs_leased :
    ∃ leased, runs corpus GarbageCollector.leased world = (.ok leased, world) ∧
      ∀ name, name ∈ leased ↔ Listed world name := by
  have known : ∀ env_name ∈ world.names.keys.take 10000, ∃ claim, world.names[env_name]? = some claim := by
    intro env_name member
    have key := Std.ExtTreeMap.mem_keys.mp (List.mem_of_mem_take member)
    exact Option.isSome_iff_exists.mp (Std.ExtTreeMap.isSome_getElem?_iff_mem.mpr key)
  have envs : runs corpus (list_envs "" 10000) world = (.ok (world.names.keys.take 10000), world) := by
    have every : (world.names.toList.filter fun row => "".toList.isPrefixOf row.1.value.toList) =
        world.names.toList := by simp
    change (Except.ok (((world.names.toList.filter _).take 10000).map Prod.fst), world) = _
    rw [every, List.map_take, Std.ExtTreeMap.map_fst_toList_eq_keys]
  refine ⟨(world.names.keys.take 10000).foldl (env_gather world) ∅, ?_, ?_⟩
  next =>
    change runs corpus (list_envs "" 10000 >>= fun envs => envs.foldlM (env_leased world.clock) ∅) world = _
    rw [runs, Prog.run_bind_ok _ envs]
    refine Prog.run_foldlM _ (fun so_far env_name member => ?_) _
    obtain ⟨claim, claimed⟩ := known env_name member
    exact runs_env_leased claimed so_far
  next =>
    intro name
    rw [@mem_foldl _ _ _ (env_gather world) fun env_name => ∃ claim, world.names[env_name]? = some claim ∧
      ListedIn (world.partition claim.env_id) world.clock name]
    next => simp [Listed]
    next =>
      intro so_far env_name member
      obtain ⟨claim, claimed⟩ := known env_name member
      rw [mem_env_gather claimed]
      simp [claimed]

theorem listed_leased {name : ObjectName} (listed : Listed world name) : Leased world name := by
  obtain ⟨env_name, _, claim, _, item, member, open_, row, rowMember, inPage⟩ := listed
  obtain ⟨session, found⟩ : ∃ session, (world.partition claim.env_id).sessions[session]? = some item := by
    obtain ⟨⟨session, item'⟩, inTable, rfl⟩ := List.mem_map.mp (List.mem_of_mem_take member)
    exact ⟨session, Std.ExtTreeMap.mem_toList_iff_getElem?_eq_some.mp inTable⟩
  obtain ⟨inTable, same⟩ := List.mem_filter.mp (List.mem_of_mem_take rowMember)
  exact ⟨claim.env_id, session, item, found, open_, row.1, row.2,
    Std.ExtTreeMap.mem_toList_iff_getElem?_eq_some.mp inTable, by simpa using same, inPage⟩

end Leases

/-! ## The scan -/

/-- What the plan makes a candidate. -/
def selected (cutoff : Int) (live leased : Finset ObjectName) (entry : CatalogEntry) : Bool :=
  decide (entry.name ∉ live ∧ entry.name ∉ leased ∧ entry.written_at_us ≤ cutoff)

theorem scan_entries (cutoff : Int) (live leased : Finset ObjectName) (entries : List CatalogEntry) (scan : Scan) :
    (entries.foldl (scan_entry cutoff live leased) scan).candidates =
      scan.candidates ++ (entries.filter (selected cutoff live leased)).map CatalogEntry.name := by
  induction entries generalizing scan with
  | nil => simp
  | cons entry entries ih =>
    rw [List.foldl_cons, ih, scan_entry]
    by_cases spared : entry.name ∈ live ∨ entry.name ∈ leased
    next =>
      have skipped : selected cutoff live leased entry = false := by
        simp only [selected, decide_eq_false_iff_not]
        tauto
      rw [if_pos spared, List.filter_cons_of_neg (by simp [skipped])]
    next =>
      rw [if_neg spared]
      rw [not_or] at spared
      by_cases recent : entry.written_at_us > cutoff
      next =>
        have skipped : selected cutoff live leased entry = false := by
          simp only [selected, decide_eq_false_iff_not]
          omega
        rw [if_pos recent, List.filter_cons_of_neg (by simp [skipped])]
      next =>
        have taken : selected cutoff live leased entry = true := by
          simp only [selected, decide_eq_true_eq]
          exact ⟨spared.1, spared.2, by omega⟩
        rw [if_neg recent, List.filter_cons_of_pos taken]
        simp

section Scans

variable {corpus : Corpus} {world : World} {config : GcConfig} {cutoff : Int} {leased : Finset ObjectName}

def range_entries (world : World) (low high : Bytes) : List CatalogEntry :=
  (world.catalog.toList.filter fun row => InRange low high row.1).map fun row => ⟨row.2, row.1⟩

def range_live (world : World) (low high : Bytes) : Finset ObjectName :=
  (world.keepset.image Prod.snd).filter (InRange low high)

def shard_gather (config : GcConfig) (cutoff : Int) (leased : Finset ObjectName) (world : World) (scan : Scan)
    (shard : Nat) : Scan :=
  match shard_bounds config.shard_bits shard with
  | .error _ => scan
  | .ok (low, high) =>
    (range_entries world low high).foldl (scan_entry cutoff (range_live world low high) leased)
      { scan with live_objects := scan.live_objects + (range_live world low high).card }

def shard_candidates (config : GcConfig) (cutoff : Int) (leased : Finset ObjectName) (world : World)
    (shard : Nat) : List ObjectName :=
  match shard_bounds config.shard_bits shard with
  | .error _ => []
  | .ok (low, high) =>
    ((range_entries world low high).filter (selected cutoff (range_live world low high) leased)).map
      CatalogEntry.name

theorem runs_scan_shard {shard : Nat} {low high : Bytes}
    (bounds : shard_bounds config.shard_bits shard = .ok (low, high)) (scan : Scan) :
    runs corpus (scan_shard config cutoff leased scan shard) world =
      (.ok (shard_gather config cutoff leased world scan shard), world) := by
  have live : runs corpus (SqliteKeepSetStore.iter_shard config.shard_bits shard) world =
      (.ok (range_live world low high), world) := by
    rw [SqliteKeepSetStore.iter_shard, bounds]
    rfl
  have entries : runs corpus (SqliteWriteCatalog.iter_shard config.shard_bits shard) world =
      (.ok (range_entries world low high), world) := by
    rw [SqliteWriteCatalog.iter_shard, bounds]
    rfl
  rw [scan_shard, runs, Prog.run_bind_ok _ live, Prog.run_bind_ok _ entries, shard_gather, bounds]
  rfl

theorem gather_candidates (shards : List Nat) (scan : Scan) :
    (shards.foldl (shard_gather config cutoff leased world) scan).candidates =
      scan.candidates ++ shards.flatMap (shard_candidates config cutoff leased world) := by
  induction shards generalizing scan with
  | nil => simp
  | cons shard shards ih =>
    rw [List.foldl_cons, ih, List.flatMap_cons, ← List.append_assoc]
    congr 1
    rw [shard_gather, shard_candidates]
    split
    next => simp
    next => exact scan_entries ..

theorem mem_shard_candidates {shard : Nat} {low high : Bytes}
    (bounds : shard_bounds config.shard_bits shard = .ok (low, high)) {name : ObjectName} :
    name ∈ shard_candidates config cutoff leased world shard ↔
      (∃ row, world.catalog[name]? = some row ∧ row.written_at_us ≤ cutoff) ∧ ¬ world.Live name ∧
        name ∉ leased ∧ InRange low high name := by
  rw [shard_candidates, bounds]
  simp only [range_entries, range_live, World.Live, List.mem_map, List.mem_filter, selected, decide_eq_true_eq,
    Finset.mem_filter, Finset.mem_image, Prod.exists, exists_eq_right, Std.ExtTreeMap.mem_toList_iff_getElem?_eq_some]
  constructor
  next =>
    rintro ⟨_, ⟨⟨name, row, ⟨found, inside⟩, rfl⟩, unkept, unleased, old⟩, rfl⟩
    exact ⟨⟨row, found, old⟩, fun live => unkept ⟨live, inside⟩, unleased, inside⟩
  next =>
    rintro ⟨⟨row, found, old⟩, unkept, unleased, inside⟩
    exact ⟨⟨row, name⟩, ⟨⟨name, row, ⟨found, inside⟩, rfl⟩, fun live => unkept live.1, unleased, old⟩, rfl⟩

theorem shard_candidates_nodup (shard : Nat) :
    (shard_candidates config cutoff leased world shard).Nodup := by
  rw [shard_candidates]
  split
  next => exact List.nodup_nil
  next low high _ =>
    have names : (range_entries world low high).map CatalogEntry.name =
        (world.catalog.toList.filter fun row => InRange low high row.1).map Prod.fst := by
      rw [range_entries, List.map_map]
      rfl
    have keys : ((range_entries world low high).map CatalogEntry.name).Nodup := by
      rw [names]
      refine (Std.ExtTreeMap.nodup_keys (t := world.catalog)).sublist ?_
      rw [← Std.ExtTreeMap.map_fst_toList_eq_keys]
      exact List.filter_sublist.map _
    exact keys.sublist (List.filter_sublist.map _)

/-- All shards together: every old object that nothing seen protects, once, but for the overlooked. -/
theorem all_candidates (accepted : 0 < config.shard_bits ∧ config.shard_bits ≤ MAX_PREFIX_BITS) :
    ((List.range (1 <<< config.shard_bits)).flatMap (shard_candidates config cutoff leased world)).Nodup ∧
      ∀ name, name ∈ (List.range (1 <<< config.shard_bits)).flatMap
          (shard_candidates config cutoff leased world) ↔
        (∃ row, world.catalog[name]? = some row ∧ row.written_at_us ≤ cutoff) ∧ ¬ world.Live name ∧
          name ∉ leased ∧ ¬ Overlooked name := by
  have where_ {shard : Nat} (member : shard ∈ List.range (1 <<< config.shard_bits)) {name : ObjectName} :
      name ∈ shard_candidates config cutoff leased world shard ↔
        (∃ row, world.catalog[name]? = some row ∧ row.written_at_us ≤ cutoff) ∧ ¬ world.Live name ∧
          name ∉ leased ∧ shard_of name config.shard_bits = .ok shard ∧ ¬ Overlooked name := by
    obtain ⟨low, high, bounds⟩ := accepted_bounds accepted member
    rw [mem_shard_candidates bounds, inRange_iff bounds]
  constructor
  next =>
    rw [List.nodup_flatMap]
    refine ⟨fun shard _ => shard_candidates_nodup shard, ?_⟩
    refine List.nodup_range.imp_of_mem fun {first second} inFirst inSecond different => ?_
    intro name memberFirst memberSecond
    obtain ⟨-, -, -, here, -⟩ := (where_ inFirst).mp memberFirst
    obtain ⟨-, -, -, there, -⟩ := (where_ inSecond).mp memberSecond
    exact different (Except.ok.inj (here.symm.trans there))
  next =>
    intro name
    rw [List.mem_flatMap]
    constructor
    next =>
      rintro ⟨shard, member, taken⟩
      obtain ⟨old, unkept, unleased, -, seen⟩ := (where_ member).mp taken
      exact ⟨old, unkept, unleased, seen⟩
    next =>
      rintro ⟨old, unkept, unleased, seen⟩
      obtain ⟨shard, member, here⟩ := has_shard accepted name
      exact ⟨shard, member, (where_ member).mpr ⟨old, unkept, unleased, here, seen⟩⟩

end Scans

/-! ## The plan -/

theorem apply_circuit_breaker_candidates (config : GcConfig) (plan : GcPlan) :
    (GarbageCollector.apply_circuit_breaker config plan).candidates = plan.candidates := by
  rw [GarbageCollector.apply_circuit_breaker]
  split_ifs <;> rfl

/-- The cycle would take more than the configured share of a corpus large enough to tell. -/
def Trips (config : GcConfig) (world : World) : Prop :=
  config.min_corpus_objects ≤ world.catalog.size ∧ (∃ name, Collectable config world name) ∧
    config.max_delete_fraction < (Set.ncard {name | Collectable config world name} : ℚ) / world.catalog.size

/-- The plan before the breaker has looked at it. -/
def gathered (config : GcConfig) (world : World) (leased : Finset ObjectName) (scan : Scan) : GcPlan :=
  { epoch := world.clock, cutoff_us := world.clock - config.grace_us, candidates := scan.candidates,
    bytes_reclaimable := scan.reclaimable, corpus_objects := world.catalog.size,
    corpus_bytes := (world.catalog.toList.map fun row => row.2.size).sum, live_objects := scan.live_objects,
    protected_by_lease := leased.card, protected_by_grace := scan.too_recent, aborted_by := none }

theorem apply_circuit_breaker_aborts {config : GcConfig} {world : World} {leased : Finset ObjectName} {scan : Scan}
    (once : scan.candidates.Nodup) (taken : ∀ name, name ∈ scan.candidates ↔ Collectable config world name) :
    (GarbageCollector.apply_circuit_breaker config (gathered config world leased scan)).aborted_by.isSome ↔
      Trips config world := by
  have count : Set.ncard {name | Collectable config world name} = scan.candidates.length := by
    have same : {name | Collectable config world name} = (scan.candidates.toFinset : Set ObjectName) := by
      ext name
      rw [Set.mem_ofPred_eq, Finset.mem_coe, List.mem_toFinset, taken]
    rw [same, Set.ncard_coe_finset, List.toFinset_card_of_nodup once]
  have any : (∃ name, Collectable config world name) ↔ scan.candidates ≠ [] := by
    simp only [← taken]
    exact ⟨fun ⟨_, member⟩ => List.ne_nil_of_mem member, List.exists_mem_of_ne_nil _⟩
  rw [Trips, count, any, GarbageCollector.apply_circuit_breaker, gathered]
  simp only
  split_ifs with small empty within
  next => simp [Nat.not_le.mpr small]
  next => simp [empty]
  next => simp [Rat.not_lt.mpr within]
  next => simp [Nat.not_lt.mp small, empty, Rat.not_le.mp within]

/-- A plan takes the old objects that nothing it looks at protects, and reads only. -/
theorem runs_plan (corpus : Corpus) {config : GcConfig}
    (accepted : 0 < config.shard_bits ∧ config.shard_bits ≤ MAX_PREFIX_BITS) (world : World) :
    ∃ plan, runs corpus (GarbageCollector.plan config) world = (.ok plan, world) ∧ plan.candidates.Nodup ∧
      (∀ name, name ∈ plan.candidates ↔ Collectable config world name) ∧
        (plan.aborted_by.isSome ↔ Trips config world) := by
  obtain ⟨leased, runsLeased, memLeased⟩ := @runs_leased corpus world
  have scanned : Prog.run (exec corpus)
      ((List.range (1 <<< config.shard_bits)).foldlM (scan_shard config (world.clock - config.grace_us) leased)
        ⟨[], 0, 0, 0⟩) world =
      (.ok ((List.range (1 <<< config.shard_bits)).foldl
        (shard_gather config (world.clock - config.grace_us) leased world) ⟨[], 0, 0, 0⟩), world) := by
    refine Prog.run_foldlM _ (fun so_far shard member => ?_) _
    obtain ⟨low, high, bounds⟩ := accepted_bounds accepted member
    exact runs_scan_shard bounds so_far
  have opened : runs corpus (GarbageCollector.plan config) world =
      runs corpus (GarbageCollector.leased >>= fun leased =>
        (List.range (1 <<< config.shard_bits)).foldlM (scan_shard config (world.clock - config.grace_us) leased)
          ⟨[], 0, 0, 0⟩ >>= fun scan =>
        pure (GarbageCollector.apply_circuit_breaker config (gathered config world leased scan))) world := rfl
  rw [opened, runs, Prog.run_bind_ok _ runsLeased, Prog.run_bind_ok _ scanned]
  have all := @all_candidates world config (world.clock - config.grace_us) leased accepted
  have candidates := @gather_candidates world config (world.clock - config.grace_us) leased
    (List.range (1 <<< config.shard_bits)) ⟨[], 0, 0, 0⟩
  rw [List.nil_append] at candidates
  rw [← candidates] at all
  have taken (name : ObjectName) := (all.2 name).trans (by rw [memLeased]; rfl : _ ↔ Collectable config world name)
  exact ⟨_, rfl, by rw [apply_circuit_breaker_candidates]; exact all.1,
    by rw [apply_circuit_breaker_candidates]; exact taken, apply_circuit_breaker_aborts all.1 taken⟩

/-- The plan is exact unless an object it should take is overlooked, or one under a lease is out of the
reach of the bounded lists. -/
theorem plan_exact (corpus : Corpus) (config : GcConfig)
    (accepted : 0 < config.shard_bits ∧ config.shard_bits ≤ MAX_PREFIX_BITS) (world : World) :
    (∃ plan, runs corpus (GarbageCollector.plan config) world = (.ok plan, world) ∧ plan.candidates.Nodup ∧
        ∀ name, name ∈ plan.candidates ↔ Eligible config world name) ↔
      (∀ name, Eligible config world name → ¬ Overlooked name) ∧
        ∀ name, Old config world name → ¬ world.Live name → ¬ Overlooked name → Leased world name →
          Listed world name := by
  obtain ⟨plan, returns, once, taken, -⟩ := runs_plan corpus accepted world
  constructor
  next =>
    rintro ⟨plan', returns', _, exact_⟩
    obtain rfl : plan = plan' := Except.ok.inj (congrArg Prod.fst (returns.symm.trans returns'))
    constructor
    next =>
      intro name eligible
      exact ((taken name).mp ((exact_ name).mpr eligible)).2.2.2
    next =>
      intro name old unkept seen leased
      by_contra unlisted
      have candidate := (taken name).mpr ⟨old, unkept, unlisted, seen⟩
      exact ((exact_ name).mp candidate).2.2 leased
  next =>
    rintro ⟨reached, listed⟩
    refine ⟨plan, returns, once, fun name => ?_⟩
    rw [taken]
    constructor
    next =>
      rintro ⟨old, unkept, unlisted, seen⟩
      exact ⟨old, unkept, fun leased => unlisted (listed name old unkept seen leased)⟩
    next =>
      intro eligible
      obtain ⟨old, unkept, unleased⟩ := eligible
      exact ⟨old, unkept, fun listed => unleased (listed_leased listed), reached name ⟨old, unkept, unleased⟩⟩

def zeroName : ObjectName := ⟨List.replicate 32 0, zeros_sized⟩

def topName : ObjectName := ⟨List.replicate 4 0xff ++ List.replicate 28 0, rfl⟩

/-- A store whose catalogue has one object, written eight days ago and of no further use. -/
def oneObject (name : ObjectName) : World :=
  { World.empty (8 * 86400 * 1000000) with
    catalog := (∅ : Std.ExtTreeMap ObjectName CatalogRow).insert name ⟨1, none, 0⟩ }

theorem oneObject_old (name : ObjectName) : Old GcConfig.default (oneObject name) name := by
  refine ⟨⟨1, none, 0⟩, ?_, ?_⟩
  next => simp [oneObject]
  next => exact (by decide : (0 : Int) ≤ 8 * 86400 * 1000000 - GcConfig.default.grace_us)

theorem oneObject_only {name other : ObjectName} (old : Old GcConfig.default (oneObject name) other) :
    other = name := by
  obtain ⟨row, found, _⟩ := old
  by_contra different
  simp [oneObject, Ne.symm different] at found

theorem oneObject_unleased (name other : ObjectName) : ¬ Leased (oneObject name) other := by
  rintro ⟨env, session, item, found, _⟩
  have nowhere : (oneObject name).partition env = .empty := by
    simp [World.partition, oneObject, World.empty]
  simp [nowhere, Partition.empty] at found

theorem oneObject_unkept (name other : ObjectName) : ¬ (oneObject name).Live other := by
  rintro ⟨env, kept⟩
  exact absurd kept (Finset.notMem_empty _)

theorem plan_exact_one_object :
    ∃ plan, runs .none (GarbageCollector.plan .default) (oneObject zeroName) = (.ok plan, oneObject zeroName) ∧
      plan.candidates.Nodup ∧
        ∀ name, name ∈ plan.candidates ↔ Eligible .default (oneObject zeroName) name := by
  refine (plan_exact .none .default (by decide) _).mpr ⟨?_, ?_⟩
  next =>
    intro name eligible
    rw [oneObject_only eligible.1]
    decide
  next =>
    intro name _ _ _ leased
    exact absurd leased (oneObject_unleased _ name)

/-- An object whose digest starts with four `0xff` bytes is garbage that no plan ever takes. -/
theorem top_digest_never_taken :
    ∃ plan, runs .none (GarbageCollector.plan .default) (oneObject topName) = (.ok plan, oneObject topName) ∧
      Eligible .default (oneObject topName) topName ∧ topName ∉ plan.candidates := by
  obtain ⟨plan, returns, -, taken, -⟩ := @runs_plan .none .default (by decide) (oneObject topName)
  refine ⟨plan, returns, ⟨oneObject_old _, oneObject_unkept _ _, oneObject_unleased _ _⟩, fun member => ?_⟩
  have seen := ((taken _).mp member).2.2.2
  exact seen (by decide)

end LedgerVcs
