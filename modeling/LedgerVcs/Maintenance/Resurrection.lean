import LedgerVcs.Maintenance.Plan
import LedgerVcs.Store.Effects

set_option autoImplicit false

namespace LedgerVcs

open Wire (Bytes)

/-! ## A sweep, run alone -/

theorem runs_run (corpus : Corpus) {config : GcConfig}
    (accepted : 0 < config.shard_bits ∧ config.shard_bits ≤ MAX_PREFIX_BITS) (world : World) :
    (Trips config world ∧ (runs corpus (GarbageCollector.run config true) world).2 = world) ∨
      (¬ Trips config world ∧ ∃ candidates, (∀ name, name ∈ candidates ↔ Collectable config world name) ∧
        (runs corpus (GarbageCollector.run config true) world).2 =
          (world.tombstoned candidates (world.clock + config.tombstone_ttl_us)).deleted candidates) := by
  obtain ⟨plan, returns, -, taken, aborts⟩ := runs_plan corpus accepted world
  rw [GarbageCollector.run, runs, Prog.run_bind_ok _ returns]
  by_cases trips : plan.aborted_by.isSome
  next => exact .inl ⟨aborts.mp trips, by rw [if_pos (.inl trips)]; rfl⟩
  next =>
    refine .inr ⟨fun tripped => trips (aborts.mpr tripped), plan.candidates, taken, ?_⟩
    obtain ⟨_, recorded⟩ := @runs_each_tombstone corpus plan.candidates
      (world.clock + config.tombstone_ttl_us) world
    obtain ⟨_, deleted⟩ := @runs_delete corpus plan.candidates
      (world.tombstoned plan.candidates (world.clock + config.tombstone_ttl_us))
    rw [if_neg (by simpa using trips)]
    have now : runs corpus (issue .now_us) world = (.ok world.clock, world) := rfl
    rw [Prog.run_bind_ok _ now, Prog.run_bind_ok _ recorded, Prog.run_bind_ok _ deleted]
    rfl

/-! ## What happens to a store -/

inductive StoreOp
  | put (name : ObjectName)
  | collect
  | keepset (rows : Finset (EnvId × ObjectName))
  /-- Refs and sessions change in any way. -/
  | metadata (partitions : Std.ExtTreeMap EnvId Partition) (names : Std.ExtTreeMap EnvName NameClaim)
  | advance (elapsed : Nat)
  | purge

section Ops

variable (corpus : Corpus) (config : GcConfig)

def perform (world : World) : StoreOp → World
  | .put name => (runs corpus (put_encoded corpus name) world).2
  | .collect => (runs corpus (GarbageCollector.run config true) world).2
  | .keepset rows => { world with keepset := rows }
  | .metadata partitions names => { world with partitions, names }
  | .advance elapsed => { world with clock := world.clock + elapsed }
  | .purge => (runs corpus (issue (.tombstone_purge world.clock)) world).2

/-- Each operation of a run, in the state it starts from. -/
def Along (holds : World → StoreOp → Prop) : List StoreOp → World → Prop
  | [], _ => True
  | op :: ops, world => holds world op ∧ Along holds ops (perform corpus config world op)

/-- Every state of a run, the first and the last included. -/
def Throughout (holds : World → Prop) : List StoreOp → World → Prop
  | [], world => holds world
  | op :: ops, world => holds world ∧ Throughout holds ops (perform corpus config world op)

theorem Throughout.first {corpus : Corpus} {config : GcConfig} {holds : World → Prop} {ops : List StoreOp}
    {world : World} (always : Throughout corpus config holds ops world) : holds world := by
  cases ops with
  | nil => exact always
  | cons op ops => exact always.1

theorem Throughout.last {corpus : Corpus} {config : GcConfig} {holds : World → Prop} {ops : List StoreOp}
    {world : World} (always : Throughout corpus config holds ops world) :
    holds (ops.foldl (perform corpus config) world) := by
  induction ops generalizing world with
  | nil => exact always
  | cons op ops ih => exact ih always.2

/-- The objects a tree or a blob node names. -/
def targets (name : ObjectName) : List ObjectName :=
  match corpus.content name with
  | some (.tree node) => node.entries.map TreeEntry.target
  | some (.blob node) => node.entries.map BlobEntry.target
  | _ => []

def Under (name below : ObjectName) : Prop :=
  Relation.ReflTransGen (fun parent child => child ∈ targets corpus parent) name below

/-- An object is put only when all it names is stored. -/
def ChildrenFirst (world : World) : StoreOp → Prop
  | .put name => ∀ child ∈ targets corpus name, child ∈ world.backend
  | _ => True

/-- What `missing` does not report is stored with all that is under it. -/
def NoResurrection (world : World) : Prop :=
  ∀ name reported, runs corpus (missing [name]) world = (.ok reported, world) → name ∉ reported →
    ∀ below, Under corpus name below → below ∈ world.backend

/-- A cycle that sweeps takes no child of a stored object that it leaves. -/
def SweepsWhole (world : World) : Prop :=
  ¬ Trips config world → ∀ parent ∈ world.backend, ∀ child ∈ targets corpus parent,
    Collectable config world child → Collectable config world parent

def Clean (world : World) : Prop := ∀ name ∈ world.backend, name ∉ world.tombstones

def Closed (world : World) : Prop := ∀ parent ∈ world.backend, ∀ child ∈ targets corpus parent, child ∈ world.backend

end Ops

/-! ## Stored objects have their children -/

section Steps

variable {corpus : Corpus} {config : GcConfig} {world : World}

theorem noResurrection_iff (clean : Clean world) : NoResurrection corpus world ↔ Closed corpus world := by
  have present {name : ObjectName} : (∃ reported, runs corpus (missing [name]) world = (.ok reported, world) ∧
      name ∉ reported) ↔ name ∈ world.backend := by
    obtain ⟨reported, returns, answer⟩ := @runs_missing corpus world [name]
    constructor
    next =>
      rintro ⟨reported', returns', unreported⟩
      obtain rfl : reported = reported' := Except.ok.inj (congrArg Prod.fst (returns.symm.trans returns'))
      by_contra absent
      exact unreported ((answer name).mpr ⟨List.mem_singleton_self _, .inl absent⟩)
    next =>
      intro stored
      refine ⟨reported, returns, fun member => ?_⟩
      rcases ((answer name).mp member).2 with absent | buried
      next => exact absent stored
      next => exact clean name stored buried
  constructor
  next =>
    intro whole parent stored child member
    obtain ⟨reported, returns, unreported⟩ := present.mpr stored
    exact whole parent reported returns unreported child (.single member)
  next =>
    intro closed name reported returns unreported below under
    induction under with
    | refl => exact present.mp ⟨reported, returns, unreported⟩
    | tail _ member ih => exact closed _ ih _ member

theorem perform_clean (accepted : 0 < config.shard_bits ∧ config.shard_bits ≤ MAX_PREFIX_BITS)
    (clean : Clean world) (op : StoreOp) : Clean (perform corpus config world op) := by
  cases op with
  | put name =>
    intro other member buried
    by_cases stored : name ∈ world.backend
    next =>
      simp only [perform, runs_put_stored stored] at member buried
      exact clean other member (Std.ExtTreeMap.mem_of_mem_erase buried)
    next =>
      simp only [perform, runs_put_new stored, World.written] at member buried
      rcases Finset.mem_insert.mp member with rfl | before
      next => simp at buried
      next => exact clean other before (Std.ExtTreeMap.mem_of_mem_erase buried)
  | collect =>
    rcases runs_run corpus accepted world with ⟨-, same⟩ | ⟨-, candidates, -, swept⟩
    next => rw [perform, same]; exact clean
    next =>
      rw [perform, swept]
      intro name member buried
      obtain ⟨stored, kept⟩ := Finset.mem_sdiff.mp member
      rcases mem_tombstoned.mp buried with now | before
      next => exact kept (List.mem_toFinset.mpr now)
      next => exact clean name stored before
  | purge =>
    intro name member buried
    exact clean name member (Std.ExtTreeMap.mem_of_mem_filter buried)
  | _ => exact clean

theorem perform_closed {op : StoreOp} (closed : Closed corpus world) (first : ChildrenFirst corpus world op)
    (other : op ≠ .collect) : Closed corpus (perform corpus config world op) := by
  cases op with
  | put name =>
    by_cases stored : name ∈ world.backend
    next => rw [perform, runs_put_stored stored]; exact closed
    next =>
      simp only [perform, runs_put_new stored, World.written]
      intro parent member child below
      refine Finset.mem_insert_of_mem ?_
      rcases Finset.mem_insert.mp member with rfl | before
      next => exact first child below
      next => exact closed parent before child below
  | collect => exact absurd rfl other
  | _ => exact closed

theorem collect_closed (accepted : 0 < config.shard_bits ∧ config.shard_bits ≤ MAX_PREFIX_BITS)
    (closed : Closed corpus world) :
    Closed corpus (perform corpus config world .collect) ↔ SweepsWhole corpus config world := by
  rcases runs_run corpus accepted world with ⟨trips, same⟩ | ⟨untripped, candidates, taken, swept⟩
  next =>
    rw [perform, same]
    exact iff_of_true closed fun untripped => absurd trips untripped
  next =>
    have left (name : ObjectName) : name ∈ (perform corpus config world .collect).backend ↔
        name ∈ world.backend ∧ ¬ Collectable config world name := by
      rw [perform, swept, ← taken, ← List.mem_toFinset]
      exact Finset.mem_sdiff
    constructor
    next =>
      intro whole _ parent stored child below collectable
      by_contra survives
      exact ((left child).mp (whole parent ((left parent).mpr ⟨stored, survives⟩) child below)).2 collectable
    next =>
      intro whole parent member child below
      obtain ⟨stored, survives⟩ := (left parent).mp member
      exact (left child).mpr ⟨closed parent stored child below,
        fun collectable => survives (whole untripped parent stored child below collectable)⟩

theorem run_noResurrection (accepted : 0 < config.shard_bits ∧ config.shard_bits ≤ MAX_PREFIX_BITS)
    {ops : List StoreOp} (clean : Clean world) (closed : Closed corpus world)
    (ordered : Along corpus config (ChildrenFirst corpus) ops world) :
    Throughout corpus config (NoResurrection corpus) ops world ↔
      Along corpus config (fun before op => op = .collect → SweepsWhole corpus config before) ops world := by
  have now := (noResurrection_iff clean).mpr closed
  induction ops generalizing world with
  | nil => exact iff_of_true now trivial
  | cons op ops ih =>
    obtain ⟨first, rest⟩ := ordered
    have cleanAfter := @perform_clean corpus _ _ accepted clean op
    rw [Throughout, Along, and_iff_right now]
    have settled (closedAfter : Closed corpus (perform corpus config world op)) :=
      ih cleanAfter closedAfter rest ((noResurrection_iff cleanAfter).mpr closedAfter)
    by_cases sweep : op = .collect
    next =>
      subst sweep
      simp only [forall_const]
      constructor
      next =>
        intro always
        have closedAfter := (noResurrection_iff cleanAfter).mp always.first
        exact ⟨(collect_closed accepted closed).mp closedAfter, (settled closedAfter).mp always⟩
      next =>
        rintro ⟨whole, later⟩
        exact (settled ((collect_closed accepted closed).mpr whole)).mpr later
    next =>
      refine (settled (perform_closed closed first sweep)).trans ?_
      simp [sweep]

end Steps

/-- A child is never gone from under a parent that counts as present, exactly when no sweep takes a child
and leaves the parent. -/
theorem no_resurrection (corpus : Corpus) (config : GcConfig)
    (accepted : 0 < config.shard_bits ∧ config.shard_bits ≤ MAX_PREFIX_BITS) (clock : Int) (ops : List StoreOp)
    (ordered : Along corpus config (ChildrenFirst corpus) ops (.empty clock)) :
    Throughout corpus config (NoResurrection corpus) ops (.empty clock) ↔
      Along corpus config (fun before op => op = .collect → SweepsWhole corpus config before) ops
        (.empty clock) := by
  refine run_noResurrection accepted ?_ ?_ ordered
  next => intro name member; exact absurd member (Finset.notMem_empty _)
  next => intro name member; exact absurd member (Finset.notMem_empty _)

/-! ## A blob outlives its chunk -/

def chunkName : ObjectName where
  digest :=
    [0xd8, 0xa4, 0x56, 0x74, 0x2f, 0x17, 0xde, 0x28, 0xc2, 0x35, 0xdd, 0x89, 0x58, 0xe3, 0x6f, 0x64, 0x26,
      0x73, 0xb1, 0xcd, 0xc7, 0x83, 0x0e, 0x77, 0xf0, 0xac, 0x0e, 0x5a, 0x3a, 0xcf, 0x9e, 0x80]
  sized := rfl

def blobName : ObjectName where
  digest :=
    [0xe4, 0x40, 0xd2, 0x77, 0xe4, 0x40, 0x6d, 0x90, 0x89, 0x49, 0xed, 0x2f, 0x7c, 0xdf, 0xba, 0xfe, 0x2b,
      0x43, 0xa8, 0xc7, 0x35, 0x13, 0xdc, 0xa6, 0x8e, 0x28, 0xe1, 0xb1, 0xb6, 0x79, 0x9b, 0x98]
  sized := rfl

def chunkFramed : Bytes := [1, 1, 42]

/-- A blob of the one chunk. -/
def blobFramed : Bytes := [2, 1, 0, 0, 0, 0, 1] ++ chunkName.digest ++ [0, 0, 0, 0, 0, 0, 0, 1]

/-- Their digests are those of BLAKE3. -/
def blobDigests : Blake3 := .ofTable [(chunkFramed, chunkName.digest), (blobFramed, blobName.digest)]

def oneBlob : Corpus := .ofBytes blobDigests [chunkFramed, blobFramed] List.length (by decide)

theorem oneBlob_targets : targets oneBlob chunkName = [] ∧ targets oneBlob blobName = [chunkName] := by
  decide

def day : Nat := 86400 * 1000000

/-- Both are written at once and a cycle runs. -/
def together : List StoreOp := [.put chunkName, .put blobName, .collect]

theorem no_resurrection_together :
    Throughout oneBlob .default (NoResurrection oneBlob) together (.empty 0) := by
  refine (no_resurrection oneBlob .default (by decide) 0 together ?_).mpr ?_
  next =>
    refine ⟨?_, ?_, trivial, trivial⟩
    next => simp [ChildrenFirst, oneBlob_targets]
    next =>
      intro child below
      rw [oneBlob_targets.2, List.mem_singleton] at below
      subst below
      decide
  next =>
    refine ⟨nofun, nofun, fun _ _ parent stored child below collectable => ?_, trivial⟩
    have written : ([StoreOp.put chunkName, .put blobName].foldl (perform oneBlob .default)
        (.empty 0)).catalog.toList.all (fun row => row.2.written_at_us = 0) = true := by
      decide
    have clock : ([StoreOp.put chunkName, .put blobName].foldl (perform oneBlob .default) (.empty 0)).clock = 0 := by
      decide
    obtain ⟨row, found, old⟩ := collectable.1
    have fresh := List.all_eq_true.mp written _ (Std.ExtTreeMap.mem_toList_iff_getElem?_eq_some.mpr found)
    rw [decide_eq_true_eq] at fresh
    exact absurd (fresh.symm.le.trans (old.trans (Int.sub_le_sub_right clock.le _))) (by decide)

/-- The chunk is written six days before the blob that refers to it, and the cycle runs two days later. -/
def lateParent : List StoreOp :=
  [.put chunkName, .advance (6 * day), .put blobName, .advance (2 * day), .collect]

/-- The blob still counts as present, and its chunk is gone. -/
theorem chunk_taken_from_blob :
    Along oneBlob .default (ChildrenFirst oneBlob) lateParent (.empty 0) ∧
      ¬ Throughout oneBlob .default (NoResurrection oneBlob) lateParent (.empty 0) := by
  constructor
  next =>
    refine ⟨?_, trivial, ?_, trivial, trivial, trivial⟩
    next => simp [ChildrenFirst, oneBlob_targets]
    next =>
      intro child below
      rw [oneBlob_targets.2, List.mem_singleton] at below
      subst below
      decide
  next =>
    intro always
    have last := @Throughout.last oneBlob .default (NoResurrection oneBlob) lateParent (.empty 0) always
    obtain ⟨reported, returns, answer⟩ :=
      @runs_missing oneBlob (lateParent.foldl (perform oneBlob .default) (.empty 0)) [blobName]
    have present : blobName ∉ reported := by
      rw [answer]
      decide
    have gone : chunkName ∉ (lateParent.foldl (perform oneBlob .default) (.empty 0)).backend := by
      decide
    refine gone (last blobName reported returns present chunkName (.single ?_))
    rw [oneBlob_targets.2]
    exact List.mem_singleton_self _

end LedgerVcs
