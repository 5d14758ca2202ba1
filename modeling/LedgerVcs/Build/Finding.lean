import LedgerVcs.Build.Leases

set_option autoImplicit false

/-! What a worker finds when it asks for a lease and nobody else acts. -/

namespace LedgerVcs

namespace BuildWorld

/-- The environment has an entry in the queue. -/
def Queued (world : BuildWorld) (env : EnvId) : Prop := 
  ∃ (op_sequence : Nat) (item : Item QueuedBuild), (world.board env).queue[op_sequence]? = some item

/-- Somebody owns the environment, and not for too long yet. -/
def Leased (world : BuildWorld) (env : EnvId) : Prop :=
  ∃ item, (world.board env).lease = some item ∧ world.world.clock < item.body.expires_at_us

/-- The queue's entries, shard after shard, each in the order of its keys. -/
def all_rows (world : BuildWorld) (site : Site) : List QueueRow :=
  (List.range site.shard_count).flatMap (world.queue_rows site)

end BuildWorld

/-! ## The scan -/

theorem take_flatMap_take {α β : Type} {most few : Nat} (fewer : few ≤ most) (parts : List α) (rows : α → List β) :
    (parts.flatMap fun part => (rows part).take most).take few = (parts.flatMap rows).take few := by
  induction parts generalizing few with
  | nil => rfl
  | cons part parts ih =>
    rw [List.flatMap_cons, List.flatMap_cons, List.take_append, List.take_append, List.take_take,
      min_eq_left fewer, List.length_take]
    by_cases long : most ≤ (rows part).length
    next =>
      have none_left : few - min most (rows part).length = 0 := by omega
      have none_left' : few - (rows part).length = 0 := by omega
      rw [none_left, none_left', List.take_zero, List.take_zero]
    next =>
      have whole : min most (rows part).length = (rows part).length := by omega
      rw [whole, ih (by omega)]

section Scan

variable {site : Site} {world : BuildWorld} {lease_us : Int}

theorem runs_scan_kind (limit : Nat) :
    Prog.run site.exec (BuildQueue.scan_kind ⟨site.shard_count, lease_us⟩ limit) world =
      (.ok ((world.all_rows site).take limit), world) := by
  have shards : Prog.run site.exec ((List.range site.shard_count).mapM fun shard => send (.scan_queue shard limit)) world =
      (.ok ((List.range site.shard_count).map fun shard => (world.queue_rows site shard).take limit), world) :=
    Prog.run_mapM_reads _ fun _ _ => rfl
  rw [BuildQueue.scan_kind, Prog.run_bind_ok _ shards]
  change (Except.ok ((List.map _ _).flatten.take limit), world) = _
  rw [← List.flatMap_def, take_flatMap_take (le_refl limit)]
  rfl

theorem all_rows_envs (some_shard : 0 < site.shard_count) (env : EnvId) :
    (∃ row ∈ world.all_rows site, row.pk = env) ↔ world.Queued env := by
  have in_range : ShardedStore.shard_of site.blake3 site.shard_count env ∈ List.range site.shard_count :=
    List.mem_range.mpr (Nat.mod_lt _ some_shard)
  simp only [BuildWorld.all_rows, BuildWorld.queue_rows, List.mem_flatMap, List.mem_map, List.mem_filter,
    decide_eq_true_eq, Prod.exists, Std.ExtTreeMap.mem_toList_iff_getElem?_eq_some, BuildWorld.Queued, BuildWorld.board]
  constructor
  next =>
    rintro ⟨_, ⟨shard, -, pk, board, ⟨found, -⟩, op_sequence, item, queued, rfl⟩, rfl⟩
    exact ⟨op_sequence, item, by rw [found]; exact queued⟩
  next =>
    rintro ⟨op_sequence, item, queued⟩
    cases found : world.boards[env]? with
    | none =>
      rw [found] at queued
      simp [Board.empty] at queued
    | some board =>
      rw [found] at queued
      exact ⟨⟨env, op_sequence, item.body⟩,
        ⟨_, in_range, env, board, ⟨found, rfl⟩, op_sequence, item, queued, rfl⟩, rfl⟩

end Scan

/-! ## One candidate for each environment -/

theorem keep_oldest_envs (oldest : List QueueRow) (item : QueueRow) (env : EnvId) :
    (∃ row ∈ keep_oldest oldest item, row.pk = env) ↔ (∃ row ∈ oldest, row.pk = env) ∨ item.pk = env := by
  have same_env (held : QueueRow) :
      (if held.pk = item.pk ∧ byText OP_SEQ_DIGITS item.sk held.sk = .lt then item else held).pk = held.pk := by
    split
    next replaced => exact replaced.1.symm
    next => rfl
  rw [keep_oldest]
  split
  next held =>
    simp only [List.mem_map, exists_exists_and_eq_and, same_env]
    obtain ⟨row, member, here⟩ := held
    exact ⟨.inl, fun either => either.elim id fun same => ⟨row, member, here.trans same⟩⟩
  next => simp [List.mem_append, or_and_right, exists_or]

theorem oldest_per_partition_envs (items : List QueueRow) (env : EnvId) :
    (∃ row ∈ oldest_per_partition items, row.pk = env) ↔ ∃ row ∈ items, row.pk = env := by
  have gathered (oldest : List QueueRow) : (∃ row ∈ items.foldl keep_oldest oldest, row.pk = env) ↔
      (∃ row ∈ oldest, row.pk = env) ∨ ∃ row ∈ items, row.pk = env := by
    induction items generalizing oldest with
    | nil => simp
    | cons item items ih =>
      rw [List.foldl_cons, ih, keep_oldest_envs]
      simp only [List.mem_cons, exists_eq_or_imp, or_assoc]
  have sorted := gathered []
  simp only [List.not_mem_nil, false_and, exists_false, false_or] at sorted
  simp only [oldest_per_partition, List.mem_insertionSort, sorted]

/-! ## The lease -/

section Lease

variable {site : Site} {world : BuildWorld} {queue : BuildQueue} {worker : String}

theorem runs_claim_leased {env : EnvId} (leased : world.Leased env) :
    Prog.run site.exec (queue.claim env worker world.world.clock) world = (.ok none, world) := by
  obtain ⟨item, held, live⟩ := leased
  have read : Prog.run site.exec (send (.board_get env .build_lease)) world = (.ok (some item), world) := by
    change (Except.ok (world.board env).lease, world) = _
    rw [held]
  rw [BuildQueue.claim, Prog.run_bind_ok _ read]
  simp only [gt_iff_lt, live, if_true]
  rfl

theorem runs_put_lease {env : EnvId} {now : Int} {condition : Condition} {version : Nat}
    (met : Board.require (some condition) (world.board env).lease .build_lease = .ok ()) :
    ∃ after, Prog.run site.exec (queue.put_lease env worker now condition version) world = (.ok (some version), after) := by
  obtain ⟨board, applied⟩ : ∃ board, (world.board env).transact_write
      [.put .build_lease ⟨worker, now + queue.lease_us⟩ (some condition) (some (now + queue.lease_us))] = .ok board :=
    ⟨_, Board.transact_one.mpr (Board.apply_put.mpr ⟨met, rfl⟩)⟩
  have written : Prog.run site.exec (send (.board_write env
      [.put .build_lease ⟨worker, now + queue.lease_us⟩ (some condition) (some (now + queue.lease_us))])) world =
      (.ok (.ok ()), world.with_board env board) := by
    rw [send, Prog.run_ask, exec_board applied]
  rw [BuildQueue.put_lease, Prog.run_bind_ok _ written]
  exact ⟨_, rfl⟩

theorem runs_claim_unleased {env : EnvId} (free : ¬ world.Leased env) :
    ∃ version after,
      Prog.run site.exec (queue.claim env worker world.world.clock) world = (.ok (some version), after) := by
  have read : Prog.run site.exec (send (.board_get env .build_lease)) world = (.ok (world.board env).lease, world) := rfl
  rw [BuildQueue.claim, Prog.run_bind_ok _ read]
  cases held : (world.board env).lease with
  | none => exact ⟨1, runs_put_lease (by rw [held]; rfl)⟩
  | some current =>
    have expired : ¬ current.body.expires_at_us > world.world.clock := fun live => free ⟨current, held, live⟩
    simp only [expired, if_false]
    exact ⟨current.version + 1, runs_put_lease (by rw [held, Board.require_version]; rfl)⟩

/-- The loop comes to nothing exactly when each candidate's environment is leased. -/
theorem runs_lease_first (entries : List QueueRow) :
    ∃ outcome after, Prog.run site.exec (queue.lease_first worker world.world.clock entries) world = (.ok outcome, after) ∧
      (outcome = none ↔ ∀ row ∈ entries, world.Leased row.pk) := by
  induction entries with
  | nil => exact ⟨none, world, rfl, by simp⟩
  | cons entry entries ih =>
    rw [BuildQueue.lease_first]
    by_cases leased : world.Leased entry.pk
    next =>
      obtain ⟨outcome, after, returns, none_left⟩ := ih
      rw [Prog.run_bind_ok _ (runs_claim_leased leased)]
      exact ⟨outcome, after, returns, by rw [none_left]; simp [leased]⟩
    next =>
      obtain ⟨version, after, claimed⟩ := @runs_claim_unleased site world queue worker entry.pk leased
      rw [Prog.run_bind_ok _ claimed]
      refine ⟨_, after, rfl, ⟨fun impossible => (by cases impossible), fun every => ?_⟩⟩
      exact absurd (every entry List.mem_cons_self) leased

end Lease

/-- A lease comes to nothing exactly when the environments of the first entries are all leased. -/
theorem runs_lease (site : Site) (lease_us : Int) (worker : String) (limit : Nat) (world : BuildWorld) :
    ∃ outcome after,
      Prog.run site.exec (BuildQueue.lease ⟨site.shard_count, lease_us⟩ worker limit) world = (.ok outcome, after) ∧
        (outcome = none ↔ ∀ row ∈ (world.all_rows site).take limit, world.Leased row.pk) := by
  have clock : Prog.run site.exec now_us world = (.ok world.world.clock, world) := rfl
  rw [BuildQueue.lease, Prog.run_bind_ok _ clock, Prog.run_bind_ok _ (runs_scan_kind limit)]
  obtain ⟨outcome, after, returns, none_left⟩ := runs_lease_first (oldest_per_partition ((world.all_rows site).take limit))
  refine ⟨outcome, after, returns, none_left.trans ⟨fun every row member => ?_, fun every row member => ?_⟩⟩
  next =>
    obtain ⟨candidate, chosen, same⟩ := (oldest_per_partition_envs _ _).mpr ⟨row, member, rfl⟩
    exact same ▸ every candidate chosen
  next =>
    obtain ⟨seen, scanned, same⟩ := (oldest_per_partition_envs _ _).mp ⟨row, member, rfl⟩
    exact same ▸ every seen scanned

/-- A lease that comes to nothing means that all work is in hand, unless the first entries are all of leased
environments while an entry beyond them is of a free one. -/
theorem lease_finds_work (site : Site) (lease_us : Int) (worker : String) (limit : Nat) (world : BuildWorld)
    (some_shard : 0 < site.shard_count) :
    (∃ outcome after,
      Prog.run site.exec (BuildQueue.lease ⟨site.shard_count, lease_us⟩ worker limit) world = (.ok outcome, after) ∧
        (outcome = none → ∀ env, world.Queued env → world.Leased env)) ↔
      ((∃ row ∈ (world.all_rows site).drop limit, ¬ world.Leased row.pk) →
        ∃ row ∈ (world.all_rows site).take limit, ¬ world.Leased row.pk) := by
  obtain ⟨outcome, after, returns, none_left⟩ := runs_lease site lease_us worker limit world
  have every_env : (∀ env, world.Queued env → world.Leased env) ↔ ∀ row ∈ world.all_rows site, world.Leased row.pk := by
    simp only [← all_rows_envs some_shard, forall_exists_index, and_imp, forall_apply_eq_imp_iff₂]
  have parts : (∀ row ∈ world.all_rows site, world.Leased row.pk) ↔
      (∀ row ∈ (world.all_rows site).take limit, world.Leased row.pk) ∧
        ∀ row ∈ (world.all_rows site).drop limit, world.Leased row.pk := by
    rw [← List.forall_mem_append, List.take_append_drop]
  have stated : (∃ outcome after,
      Prog.run site.exec (BuildQueue.lease ⟨site.shard_count, lease_us⟩ worker limit) world = (.ok outcome, after) ∧
        (outcome = none → ∀ env, world.Queued env → world.Leased env)) ↔
      (outcome = none → ∀ row ∈ world.all_rows site, world.Leased row.pk) := by
    rw [returns, ← every_env]
    constructor
    next => rintro ⟨_, _, same, property⟩; cases same; exact property
    next => exact fun property => ⟨_, _, rfl, property⟩
  rw [stated, none_left, parts]
  constructor
  next =>
    rintro property ⟨row, beyond, free⟩
    by_contra none_free
    push Not at none_free
    exact free ((property none_free).2 row beyond)
  next =>
    intro window scanned
    refine ⟨scanned, fun row beyond => ?_⟩
    by_contra free
    obtain ⟨seen, member, free⟩ := window ⟨row, beyond, free⟩
    exact free (scanned seen member)

def queuedBuild (env : EnvId) (op_sequence : Nat) : Item QueuedBuild :=
  ⟨⟨env, builtCommit, DEFAULT_REF, op_sequence, 0, 0, false⟩, 1, none, none⟩

/-- One environment has so many entries and is leased, another has one entry and is free. -/
def backlogged (entries : Nat) : BuildWorld :=
  { BuildWorld.empty with
    boards := (∅ : Std.ExtTreeMap EnvId Board).insertMany
      [(⟨"busy"⟩,
          { queue := (List.range entries).foldl (fun queue op_sequence => queue.insert op_sequence (queuedBuild ⟨"busy"⟩ op_sequence)) ∅
            lease := some ⟨⟨"other", DEFAULT_LEASE_US⟩, 1, none, some DEFAULT_LEASE_US⟩
            notes := ∅ }),
        (⟨"idle"⟩, { Board.empty with queue := (∅ : Std.ExtTreeMap Nat _ _).insert 1 (queuedBuild ⟨"idle"⟩ 1) })] }

theorem lease_finds_work_one_entry :
    ∃ outcome after,
      Prog.run quietSite.exec (BuildQueue.lease ⟨1, DEFAULT_LEASE_US⟩ "worker" 200) (backlogged 1) = (.ok outcome, after) ∧
        (outcome = none → ∀ env, (backlogged 1).Queued env → (backlogged 1).Leased env) := by
  refine (lease_finds_work quietSite DEFAULT_LEASE_US "worker" 200 (backlogged 1) Nat.one_pos).mpr ?_
  have few : ((backlogged 1).all_rows quietSite).drop 200 = [] := by decide
  rw [few]
  rintro ⟨row, beyond, -⟩
  cases beyond

/-- Two hundred entries of a leased environment hide the entry of a free one. -/
theorem backlog_hides_work :
    (Prog.run quietSite.exec (BuildQueue.lease ⟨1, DEFAULT_LEASE_US⟩ "worker" 200) (backlogged 200)).1 = .ok none ∧
      (backlogged 200).Queued ⟨"idle"⟩ ∧ ¬ (backlogged 200).Leased ⟨"idle"⟩ := by
  refine ⟨by decide +kernel, ⟨1, queuedBuild ⟨"idle"⟩ 1, by decide +kernel⟩, ?_⟩
  rintro ⟨item, held, -⟩
  have free : ((backlogged 200).board ⟨"idle"⟩).lease = none := by decide
  rw [free] at held
  cases held

end LedgerVcs
