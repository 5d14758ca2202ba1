import LedgerVcs.Lib.Recall
import LedgerVcs.Lib.Script
import LedgerVcs.Meta.Stream
import LedgerVcs.Meta.Transactions
import LedgerVcs.Service.Refs

set_option autoImplicit false

/-! The pass that discards expired refs, while others may move them. -/

namespace LedgerVcs

open Prog (Actor Pool Exchange Traced)

/-! ## The pass -/

/-- A ref's item, with its key. -/
structure RefRow where
  pk : EnvId
  name : RefName
  item : Item Ref
deriving DecidableEq

def RefRow.expired (now_us : Int) (row : RefRow) : Bool :=
  row.item.expires_at_us.any fun expires_at_us => expires_at_us ≤ now_us

inductive SweepCmd
  | base (command : Cmd)
  /-- One shard's part of `iter_expired(ItemKind.REF)`. -/
  | iter_expired (shard : Nat) (now_us : Int) (limit : Nat)

@[reducible] def SweepCmd.Response : SweepCmd → Type
  | .base command => command.Response
  | .iter_expired _ _ _ => List RefRow

/-- What a ledger is opened with. A `SELECT` without an order returns its rows in any. -/
structure SweepSite where
  corpus : Corpus
  blake3 : Blake3
  shard_count : Nat
  arrange : List RefRow → List RefRow
  arranged : ∀ rows, (arrange rows).Perm rows

/-- A shard's refs. -/
def World.ref_rows (world : World) (site : SweepSite) (shard : Nat) : List RefRow :=
  (world.partitions.toList.filter fun row => ShardedStore.shard_of site.blake3 site.shard_count row.1 = shard).flatMap
    fun row => row.2.refs.toList.map fun entry => ⟨row.1, entry.1, entry.2⟩

def SweepSite.exec (site : SweepSite) : (command : SweepCmd) → World → command.Response × World
  | .base command, world => LedgerVcs.exec site.corpus command world
  | .iter_expired shard now_us limit, world =>
      ((site.arrange ((world.ref_rows site shard).filter (RefRow.expired now_us))).take limit, world)

abbrev SweepAct := Prog SweepCmd SweepCmd.Response PyError

def sweep (command : SweepCmd) : SweepAct command.Response := Prog.ask command

/-- A call of the repository, or of a service. -/
def repo {α : Type} (act : Act α) : SweepAct α :=
  act.through fun command => .call (.base command) fun response => .done response

structure MaintenanceReport where
  expired_refs : Nat
  orphan_names : Nat
  purged_tombstones : Nat
deriving DecidableEq

def expired_refs (shard_count limit : Nat) : SweepAct (List (EnvId × Ref)) := do
  let now ← repo (issue .now_us)
  let rows ← (List.range shard_count).mapM fun shard => sweep (.iter_expired shard now limit)
  return (rows.flatten.filter fun row => row.item.body.lifecycle = .ephemeral).map fun row => (row.pk, row.item.body)

/-- One round of the loop of `run_maintenance`. -/
def discard_expired (discard : EnvId → RefName → SweepAct Unit) (expired : Nat) (row : EnvId × Ref) : SweepAct Nat :=
  (do
    discard row.1 row.2.name
    return expired + 1).handling fun error =>
      -- Someone moved or removed the ref.
      if error.is_ledger_error then .done expired else .fail error

def run_maintenance (shard_count : Nat) (discard : EnvId → RefName → SweepAct Unit) (limit : Nat) :
    SweepAct MaintenanceReport := do
  let found ← expired_refs shard_count limit
  let expired ← found.foldlM (discard_expired discard) 0
  let orphan_names ← repo (sweep_orphan_name_claims limit)
  let now ← repo (issue .now_us)
  let purged_tombstones ← repo (issue (.tombstone_purge now))
  return ⟨expired, orphan_names, purged_tombstones⟩

/-- How `ledger gc` discards a ref. -/
def discard (config : GcConfig) (env : EnvId) (name : RefName) : SweepAct Unit :=
  repo do
    let _ ← RefService.delete config env name none "ledger-maintenance" none
    return ()

/-! ## The pass among clients -/

section Clients

variable {κ : Type}

abbrev SweepEvent (κ : Type) := Prog.Event (Option κ) SweepCmd SweepCmd.Response

abbrev SweepJournal (κ : Type) := Traced (Option κ) SweepCmd SweepCmd.Response World

abbrev SweepResult : Option κ → Type
  | none => MaintenanceReport
  | some _ => Unit

/-- The pass and the clients, each at its first step. -/
def maintained (site : SweepSite) (config : GcConfig) (limit : Nat) (clients : κ → Act Unit) (world : World) :
    Pool (Option κ) SweepCmd SweepCmd.Response PyError SweepResult (SweepJournal κ) :=
  ⟨⟨world, []⟩, fun
    | none => run_maintenance site.shard_count (discard config) limit
    | some client => repo (clients client)⟩

/-! ### What the scan saw -/

def writes_ref (name : RefName) : WriteOp → Bool
  | .put (.ref other) _ _ _ _ => other = name
  | .delete (.ref other) _ => other = name
  | _ => false

/-- The ref as the scan found it, ephemeral and expired. -/
def saw (pk : EnvId) (name : RefName) : SweepEvent κ → Option (Item Ref)
  | ⟨none, .iter_expired _ now_us _, rows⟩ =>
      (rows.find? fun row => row.pk = pk ∧ row.name = name ∧ row.item.body.lifecycle = .ephemeral ∧ row.expired now_us).map
        RefRow.item
  | _ => none

def Overwrites (pk : EnvId) (name : RefName) : SweepEvent κ → Bool
  | ⟨_, .base (.transact_write other writes), .ok ()⟩ => other = pk && writes.any (writes_ref name)
  | _ => false

/-- The ref as the scan found it, and as nobody has written it since. -/
def standing (pk : EnvId) (name : RefName) : List (SweepEvent κ) → Option (Item Ref)
  | [] => none
  | event :: before =>
    match saw pk name event with
    | some item => some item
    | none => if Overwrites pk name event then none else standing pk name before

/-- The refs that the pass deleted by a transaction, and on what condition. -/
def deletions : SweepEvent κ → List (EnvId × RefName × Option Condition)
  | ⟨none, .base (.transact_write pk writes), .ok ()⟩ =>
      writes.filterMap fun
        | .delete (.ref name) condition => some (pk, name, condition)
        | _ => none
  | _ => []

/-- Each ref that the pass deleted still was what its scan found expired, and of the generation deleted. -/
def Warranted : List (SweepEvent κ) → Prop
  | [] => True
  | event :: before =>
    (∀ deletion ∈ deletions event, ∃ item ∈ standing deletion.1 deletion.2.1 before,
      item.generation.isSome ∧ deletion.2.2 = item.generation.map Condition.generation_is) ∧ Warranted before

instance Warranted.decidable : (trace : List (SweepEvent κ)) → Decidable (Warranted trace)
  | [] => isTrue trivial
  | event :: before =>
    have := decidable before
    inferInstanceAs (Decidable ((∀ deletion ∈ deletions event, ∃ item ∈ standing deletion.1 deletion.2.1 before, _) ∧ _))

/-! ### When nobody is in the way -/

/-- The ref was read just before, and found. -/
def rereads (pk : EnvId) (name : RefName) : List (Exchange Cmd Cmd.Response) → Bool
  | ⟨.meta_get other (.ref read), found⟩ :: _ => other = pk && read = name && found.isSome
  | _ => false

structure Discarding where
  env : EnvId
  name : RefName
  generation : Int
deriving DecidableEq

/-- The discard under way, at the generation that its first read of the ref has returned. -/
def discarding : List (Exchange Cmd Cmd.Response) → Option Discarding
  | [] => none
  | ⟨.meta_get pk (.ref name), found⟩ :: before =>
    if rereads pk name before then discarding before
    else found.map fun item => ⟨pk, name, item.body.generation⟩
  | _ :: before => discarding before

def repo_exchange : Exchange SweepCmd SweepCmd.Response → Option (Exchange Cmd Cmd.Response)
  | ⟨.base command, response⟩ => some ⟨command, response⟩
  | _ => none

variable [DecidableEq κ]

/-- What the pass has been told of the repository. -/
def pass_told (journal : SweepJournal κ) : List (Exchange Cmd Cmd.Response) :=
  (journal.told none).filterMap repo_exchange

/-- A discard first reads its ref while it stands, and no client leaves a ref at the generation that the discard under way
has read. -/
def Undisturbed : Option κ → SweepCmd → SweepJournal κ → Bool
  | none, .base (.meta_get pk (.ref name)), journal =>
      rereads pk name (pass_told journal) || ((journal.state.partition pk).get (.ref name)).isNone ||
        (standing pk name journal.trace).isSome
  | some _, .base (.transact_write pk writes), journal =>
      match discarding (pass_told journal), (journal.state.partition pk).transact_write writes with
      | some expected, .ok after =>
          decide (expected.env = pk → writes.any (writes_ref expected.name) →
            (after.get (.ref expected.name)).bind Item.generation ≠ some expected.generation)
      | _, _ => true
  | _, _, _ => true

def undisturbed (site : SweepSite) (party : Option κ) : Actor SweepCmd SweepCmd.Response (SweepJournal κ) :=
  ⟨Traced.exec site.exec party, fun command journal => Undisturbed party command journal = true⟩

instance (site : SweepSite) (party : Option κ) (command : SweepCmd) (journal : SweepJournal κ) :
    Decidable ((undisturbed site party).may command journal) :=
  inferInstanceAs (Decidable (Undisturbed party command journal = true))

end Clients

/-! ## What the pass does -/

section Pass

variable {corpus : Corpus} {told : List (Exchange Cmd Cmd.Response)}

/-- Nothing is written in a transaction, and no ref is read. -/
def Aloof : Cmd → Prop
  | .transact_write _ _ => False
  | .meta_get _ (.ref _) => False
  | _ => True

theorem reads_aloof (command : Cmd) (reads : Reads command) : Aloof command := by
  obtain ⟨name, rfl⟩ := reads
  trivial

theorem tolerating_aloof {α : Type} {body : Act α} {fallback : α}
    (yields : body.Yields Aloof (answers corpus) fun _ => True) :
    (tolerating body fallback).Yields Aloof (answers corpus) fun _ => True := by
  refine .handling yields fun error => ?_
  split
  next => trivial
  next => trivial

theorem commit_aloof (name : ObjectName) :
    (GarbageCollector.commit? name).Yields Aloof (answers corpus) fun _ => True :=
  tolerating_aloof (.bind ((get_commit_yields name).mono reads_aloof fun _ _ => trivial))

theorem closure_aloof (tree : ObjectName) :
    (GarbageCollector.closure tree).Yields Aloof (answers corpus) fun _ => True :=
  tolerating_aloof (.bind ((tree_closure_yields tree).mono reads_aloof fun _ _ => trivial))

theorem walk_history_aloof (remaining : Nat) (frontier : List ObjectName) (reach : GarbageCollector.Reach) :
    (GarbageCollector.walk_history_from remaining frontier reach).Yields Aloof (answers corpus) fun _ => True := by
  induction remaining generalizing frontier reach with
  | zero =>
    rw [GarbageCollector.walk_history_from]
    split
    next => trivial
    next => trivial
  | succ remaining ih =>
    rw [GarbageCollector.walk_history_from]
    split
    next => trivial
    next commit rest _ =>
      refine .bind ((commit_aloof commit).mono (fun _ fits => fits) fun node _ => ?_)
      cases node with
      | none => exact ih rest _
      | some node => exact .bind ((closure_aloof node.tree).mono (fun _ fits => fits) fun _ _ => ih _ _)

theorem walk_root_aloof (so_far : Bool × GarbageCollector.Reach) (head : ObjectName) :
    (GarbageCollector.walk_root so_far head).Yields Aloof (answers corpus) fun _ => True :=
  .bind ((walk_history_aloof _ [head] so_far.2).mono (fun _ fits => fits) fun _ _ => trivial)

theorem walk_roots_aloof (heads : List ObjectName) (start : Bool × GarbageCollector.Reach) :
    (heads.foldlM GarbageCollector.walk_root start).Yields Aloof (answers corpus) fun _ => True :=
  .foldlM trivial fun so_far head _ _ => walk_root_aloof so_far head

theorem rebuild_aloof (config : GcConfig) (env_name : EnvName) :
    (GarbageCollector.rebuild_keep_set config env_name).Yields Aloof (answers corpus) fun _ => True := by
  have resolved : (resolve_env_name env_name).Yields Aloof (answers corpus) fun _ => True := by
    refine .bind (.ask trivial fun claim _ => ?_)
    cases claim <;> trivial
  refine .bind (resolved.mono (fun _ fits => fits) fun env _ => ?_)
  refine .bind (.bind (.ask trivial fun items _ => ?_))
  refine .bind ((walk_roots_aloof _ _).mono (fun _ fits => fits) fun live _ => ?_)
  refine .bind (.ask trivial fun now _ => ?_)
  refine .bind (.bind (.ask trivial fun entries _ => ?_))
  refine .bind ((walk_roots_aloof _ _).mono (fun _ fits => fits) fun outcome _ => ?_)
  dsimp only
  split
  next => exact .ask trivial fun _ _ => trivial
  next => exact .ask trivial fun _ _ => trivial

theorem sweep_orphans_aloof (limit : Nat) :
    (sweep_orphan_name_claims limit).Yields Aloof (answers corpus) fun _ => True := by
  refine .bind (.ask trivial fun items _ => .foldlM trivial fun reclaimed item _ _ => .bind (.ask trivial fun record _ => ?_))
  split
  next => trivial
  next => exact .bind (.ask trivial fun _ _ => trivial)

/-- The last that was told is not that a ref was found. -/
def Unread (told : List (Exchange Cmd Cmd.Response)) : Prop := ∀ pk name, rereads pk name told = false

/-- A transaction deletes the ref of the discard under way, at the generation that was read, and no other ref. -/
def Sweeps (told : List (Exchange Cmd Cmd.Response)) : Cmd → Prop
  | .transact_write pk writes => ∃ name generation rest, discarding told = some ⟨pk, name, generation⟩ ∧
      writes = .delete (.ref name) (some (.generation_is generation)) :: rest ∧
        ∀ write ∈ rest, ∀ other, writes_ref other write = false
  | _ => True

theorem aloof_sweeps {command : Cmd} (aloof : Aloof command) : Sweeps told command := by
  cases command <;> trivial

theorem aloof_idle {command : Cmd} (aloof : Aloof command) (response : command.Response) :
    Unread (⟨command, response⟩ :: told) := by
  intro pk name
  cases command with
  | meta_get other key =>
    cases key with
    | ref => exact aloof.elim
    | _ => rfl
  | _ => rfl

theorem aloof_discarding {command : Cmd} (aloof : Aloof command) (response : command.Response) :
    discarding (⟨command, response⟩ :: told) = discarding told := by
  cases command with
  | meta_get other key =>
    cases key with
    | ref => exact aloof.elim
    | _ => rfl
  | _ => rfl

theorem aloof_recalls {α : Type} {act : Act α} {result : α → Prop} (yields : act.Yields Aloof (answers corpus) result)
    (idle : Unread told) : act.Recalls Sweeps (answers corpus) (fun _ later => Unread later) told :=
  .keeping yields (fun _ _ aloof _ => aloof_sweeps aloof) (fun _ response _ aloof _ => aloof_idle aloof response) idle

/-- A deletion of the ref of the discard under way, and what goes with it. -/
def Deletes (expected : Discarding) (writes : List WriteOp) : Prop :=
  ∃ rest, writes = .delete (.ref expected.name) (some (.generation_is expected.generation)) :: rest ∧
    ∀ write ∈ rest, ∀ other, writes_ref other write = false

/-- The attempts to commit a deletion leave the discard under way. -/
theorem attempts_recalls {expected : Discarding} {build : Nat → Nat → Act (List WriteOp)} {request : Request}
    {outcome : Outcome}
    (builds : ∀ sequence counter_version told, discarding told = some expected →
      (build sequence counter_version).Recalls Sweeps (answers corpus)
        (fun built later => ∃ writes, built = .ok writes ∧ Deletes expected writes ∧ discarding later = some expected) told)
    (retries : Nat) (idle : retries = 0 → Unread told) (under_way : discarding told = some expected) :
    (commit_attempts expected.env build none request outcome retries).Recalls Sweeps (answers corpus)
      (fun _ later => Unread later) told := by
  induction retries generalizing told with
  | zero => exact idle rfl
  | succ retries ih =>
    refine .asking trivial fun counter _ => ?_
    have counted : discarding (⟨.meta_get expected.env .seq, counter⟩ :: told) = some expected := under_way
    cases counter with
    | none => exact fun _ _ => rfl
    | some counter =>
      refine (builds counter.body counter.version _ counted).andThen (fun _ _ met => ?_) fun writes later met => ?_
      next =>
        obtain ⟨_, impossible, -⟩ := met
        cases impossible
      obtain ⟨_, same, deletes, still⟩ := met
      cases same
      obtain ⟨rest, rfl, clean⟩ := deletes
      refine .asking ⟨expected.name, expected.generation, rest, still, by rw [List.append_nil], clean⟩ fun response _ => ?_
      have idle_after : Unread (⟨.transact_write expected.env
          (.delete (.ref expected.name) (some (.generation_is expected.generation)) :: rest ++ []), response⟩ :: later) :=
        fun _ _ => rfl
      cases response with
      | ok => exact idle_after
      | error error =>
        cases error with
        | conflict message sk =>
          dsimp only
          split
          next => exact ih (fun _ => idle_after) still
          next => exact idle_after
        | _ => exact idle_after

theorem unread_idle {pk : EnvId} {name : RefName} : Unread (⟨.meta_get pk (.ref name), none⟩ :: told) := by
  intro other read
  simp [rereads]

/-- The read that opens a discard. -/
theorem opening_recalls (env : EnvId) (name : RefName) (idle : Unread told) :
    (get_ref env name).Recalls Sweeps (answers corpus)
      (fun outcome later =>
        match outcome with
        | .ok current => discarding later = some ⟨env, name, current.generation⟩ ∧ ∃ item, later = ⟨.meta_get env (.ref name), some item⟩ :: told
        | .error _ => Unread later) told := by
  refine .asking trivial fun found _ => ?_
  cases found with
  | none => exact unread_idle
  | some item =>
    refine ⟨?_, item, rfl⟩
    rw [discarding, idle env name]
    rfl

/-- The read after it changes nothing. -/
theorem second_recalls {env : EnvId} {name : RefName} {item : Item Ref} {expected : Discarding}
    (opened : discarding (⟨.meta_get env (.ref name), some item⟩ :: told) = some expected) :
    (get_ref env name).Recalls Sweeps (answers corpus)
      (fun outcome later =>
        match outcome with
        | .ok _ => discarding later = some expected
        | .error _ => Unread later) (⟨.meta_get env (.ref name), some item⟩ :: told) := by
  refine .asking trivial fun found _ => ?_
  cases found with
  | none => exact unread_idle
  | some current =>
    change discarding _ = _
    rw [discarding, if_pos (by simp [rereads]), opened]

theorem discard_ref_recalls {env : EnvId} {name : RefName} {item : Item Ref} {generation : Int} (principal : String)
    (opened : discarding (⟨.meta_get env (.ref name), some item⟩ :: told) = some ⟨env, name, generation⟩) :
    (delete_ref env name generation principal none).Recalls Sweeps (answers corpus) (fun _ later => Unread later)
      (⟨.meta_get env (.ref name), some item⟩ :: told) := by
  refine (second_recalls opened).andThen (fun _ _ met => met) fun current later still => ?_
  extract_lets build
  have attempts : (commit_attempts env build none (.delete_ref name generation) (.deleted name) COUNTER_RETRIES).Recalls Sweeps
      (answers corpus) (fun _ later => Unread later) later := by
    refine attempts_recalls (fun sequence counter_version later under_way => ?_) COUNTER_RETRIES
      (fun impossible => absurd impossible (by decide)) still
    exact .asking trivial fun at_us _ => ⟨_, rfl, ⟨_, rfl, by simp [writes_ref, counter_writes, op_write]⟩, under_way⟩
  exact attempts.andThen (fun _ _ met => met) fun _ _ met => met

theorem delete_recalls (config : GcConfig) (env : EnvId) (name : RefName) (principal : String) (idle : Unread told) :
    (RefService.delete config env name none principal none).Recalls Sweeps (answers corpus) (fun _ later => Unread later) told := by
  refine (opening_recalls env name idle).andThen (fun _ _ met => met) fun current later met => ?_
  obtain ⟨opened, item, rfl⟩ := met
  refine (discard_ref_recalls principal opened).andThen (fun _ _ met => met) fun sequence later met => ?_
  refine .asking trivial fun record _ => ?_
  cases record with
  | none => exact fun _ _ => rfl
  | some record =>
    exact (aloof_recalls (rebuild_aloof config record.body.name) fun _ _ => rfl).andThen (fun _ _ met => met) fun _ _ met => met

end Pass

/-! ### The whole pass -/

section Whole

variable {corpus : Corpus} {told : List (Exchange SweepCmd SweepCmd.Response)}

/-- Between discards. -/
def Resting (told : List (Exchange SweepCmd SweepCmd.Response)) : Prop := Unread (told.filterMap repo_exchange)

def Passes (told : List (Exchange SweepCmd SweepCmd.Response)) : SweepCmd → Prop
  | .base command => Sweeps (told.filterMap repo_exchange) command
  | .iter_expired _ _ _ => True

def SweepAnswers (corpus : Corpus) : (command : SweepCmd) → command.Response → Prop
  | .base command, response => answers corpus command response
  | .iter_expired _ _ _, _ => True

theorem repo_recalls {α : Type} {act : Act α}
    (recalls : act.Recalls Sweeps (answers corpus) (fun _ later => Unread later) (told.filterMap repo_exchange)) :
    (repo act).Recalls Passes (SweepAnswers corpus) (fun _ later => Resting later) told :=
  .through (fun _ _ => rfl) (fun _ _ takes => takes) (fun _ _ fits => fits) recalls

theorem aloof_rests {α : Type} {act : Act α} {result : α → Prop} (yields : act.Yields Aloof (answers corpus) result)
    (resting : Resting told) :
    (repo act).Recalls Passes (SweepAnswers corpus) (fun _ later => Resting later) told :=
  repo_recalls (aloof_recalls yields resting)

theorem issue_rests (command : Cmd) (aloof : Aloof command) (resting : Resting told) :
    (repo (issue command)).Recalls Passes (SweepAnswers corpus) (fun _ later => Resting later) told :=
  aloof_rests (.ask (Q := fun _ => True) aloof fun _ _ => trivial) resting

theorem expired_refs_rests (shard_count limit : Nat) (resting : Resting told) :
    (expired_refs shard_count limit).Recalls Passes (SweepAnswers corpus) (fun _ later => Resting later) told := by
  refine (issue_rests .now_us trivial resting).andThen (fun _ _ rests => rests) fun now later rests => ?_
  have scanned := @Prog.Recalls.mapM _ _ _ _ Passes (SweepAnswers corpus) later _ (List.range shard_count)
    (fun shard => sweep (.iter_expired shard now limit)) (fun _ (_ : List (List RefRow)) later => Resting later)
    (fun _ later => Resting later) (fun _ _ _ _ _ _ still => ⟨trivial, fun _ _ => still⟩) rests
  refine (scanned.mono fun outcome last met => ?_ : Prog.Recalls _ _ _ (fun _ last => Resting last) later).andThen
    (fun _ _ rests => rests) fun _ _ rests => rests
  cases outcome <;> exact met

theorem discard_rests (config : GcConfig) (expired : Nat) (row : EnvId × Ref) (resting : Resting told) :
    (discard_expired (discard config) expired row).Recalls Passes (SweepAnswers corpus) (fun _ later => Resting later) told := by
  have discarded : (discard config row.1 row.2.name).Recalls Passes (SweepAnswers corpus) (fun _ later => Resting later) told :=
    repo_recalls ((delete_recalls config row.1 row.2.name "ledger-maintenance" resting).andThen (fun _ _ idle => idle)
      fun _ _ idle => idle)
  refine .handling (Q := fun _ later => Resting later) (discarded.andThen (fun _ _ rests => rests) fun _ _ rests => rests)
    (fun _ _ rests => rests) fun error later rests => ?_
  split
  next => exact rests
  next => exact rests

theorem maintenance_recalls (config : GcConfig) (shard_count limit : Nat) (resting : Resting told) :
    (run_maintenance shard_count (discard config) limit).Recalls Passes (SweepAnswers corpus) (fun _ later => Resting later)
      told := by
  refine (expired_refs_rests shard_count limit resting).andThen (fun _ _ rests => rests) fun found first rests => ?_
  have discarded := @Prog.Recalls.foldlM _ _ _ _ Passes (SweepAnswers corpus) first _ found (discard_expired (discard config))
    (fun _ _ later => Resting later) 0 (fun _ later => Resting later)
    (fun _ row _ _ expired later still => (discard_rests config expired row still).mono fun outcome _ met => by
      cases outcome <;> exact met) rests
  refine (discarded.mono fun outcome last met => ?_ : Prog.Recalls _ _ _ (fun _ last => Resting last) first).andThen
    (fun _ _ rests => rests) fun expired second rests => ?_
  next => cases outcome <;> exact met
  refine (aloof_rests (sweep_orphans_aloof limit) rests).andThen (fun _ _ rests => rests) fun orphans third rests => ?_
  refine (issue_rests .now_us trivial rests).andThen (fun _ _ rests => rests) fun now fourth rests => ?_
  exact (issue_rests (.tombstone_purge now) trivial rests).andThen (fun _ _ rests => rests) fun _ _ rests => rests

end Whole

/-! ## What is seen goes on standing -/

section Frames

variable {partition after : Partition} {writes : List WriteOp} {name : RefName}

theorem apply_untouched {write : WriteOp} (untouched : writes_ref name write = false)
    (applied : apply partition write = .ok after) : after.get (.ref name) = partition.get (.ref name) := by
  have different {key : SortKey} (other : ∀ read, key = .ref read → read ≠ name) : key ≠ .ref name := fun same =>
    other name same rfl
  cases write with
  | emit event => cases applied; rfl
  | put key body condition generation expires_at_us =>
    obtain ⟨-, rfl⟩ := apply_put.mp applied
    refine Partition.get_put_of_ne _ _ (different ?_)
    rintro read rfl
    exact of_decide_eq_false untouched
  | delete key condition =>
    obtain ⟨-, rfl⟩ := apply_delete.mp applied
    refine Partition.get_delete_of_ne _ (different ?_)
    rintro read rfl
    exact of_decide_eq_false untouched

/-- A transaction that does not write a ref leaves it. -/
theorem transact_untouched (untouched : ∀ write ∈ writes, writes_ref name write = false)
    (applied : partition.transact_write writes = .ok after) : after.get (.ref name) = partition.get (.ref name) := by
  induction writes generalizing partition with
  | nil => cases applied; rfl
  | cons write writes ih =>
    obtain ⟨middle, first, rest⟩ := transact_ok.mp applied
    obtain ⟨here, others⟩ := List.forall_mem_cons.mp untouched
    exact (ih others rest).trans (apply_untouched here first)

/-- A deletion goes through only at the generation that the ref has. -/
theorem transact_deletes {generation : Int} {rest : List WriteOp}
    (clean : ∀ write ∈ rest, ∀ other, writes_ref other write = false)
    (applied : partition.transact_write (.delete (.ref name) (some (.generation_is generation)) :: rest) = .ok after) :
    (partition.get (.ref name)).bind Item.generation = some generation ∧ after.get (.ref name) = none := by
  obtain ⟨middle, first, others⟩ := transact_ok.mp applied
  obtain ⟨required, rfl⟩ := apply_delete.mp first
  refine ⟨require_generation.mp required, ?_⟩
  rw [transact_untouched (fun write member => clean write member name) others, Partition.get_delete_self]

/-- Only a transaction changes the partitions. -/
theorem exec_partitions {corpus : Corpus} {command : Cmd} (unwritten : ∀ pk writes, command ≠ .transact_write pk writes)
    (world : World) : (exec corpus command world).2.partitions = world.partitions := by
  cases command with
  | transact_write pk writes => exact absurd rfl (unwritten pk writes)
  | _ => rfl

theorem mem_ref_rows {world : World} {site : SweepSite} {shard : Nat} {row : RefRow} (member : row ∈ world.ref_rows site shard) :
    (world.partition row.pk).get (.ref row.name) = some row.item := by
  obtain ⟨⟨pk, partition⟩, placed, member⟩ := List.mem_flatMap.mp member
  obtain ⟨⟨name, item⟩, entry, rfl⟩ := List.mem_map.mp member
  have held : world.partitions[pk]? = some partition :=
    Std.ExtTreeMap.mem_toList_iff_getElem?_eq_some.mp (List.mem_of_mem_filter placed)
  have found : partition.refs[name]? = some item := Std.ExtTreeMap.mem_toList_iff_getElem?_eq_some.mp entry
  change ((world.partitions[pk]?).getD .empty).refs[name]? = some item
  rw [held]
  exact found

end Frames

section Runs

variable {κ : Type} [DecidableEq κ]

structure Watching (journal : SweepJournal κ) : Prop where
  seen : ∀ pk name item, standing pk name journal.trace = some item →
    (journal.state.partition pk).get (.ref name) = some item
  /-- What is about to be deleted stands, or has got another generation, or is gone. -/
  expected : ∀ expected, discarding (pass_told journal) = some expected →
    (standing expected.env expected.name journal.trace).isSome ∨
      ((journal.state.partition expected.env).get (.ref expected.name)).bind Item.generation ≠ some expected.generation
  warranted : Warranted journal.trace

variable {site : SweepSite} {party : Option κ} {journal : SweepJournal κ} {command : SweepCmd}

theorem pass_told_own : pass_told (Traced.exec site.exec none command journal).2 =
    (repo_exchange ⟨command, (site.exec command journal.state).1⟩).toList ++ pass_told journal := by
  rw [pass_told, Prog.told_exec_self, List.filterMap_cons]
  cases repo_exchange ⟨command, (site.exec command journal.state).1⟩ <;> rfl

theorem pass_told_other (other : κ) : pass_told (Traced.exec site.exec (some other) command journal).2 = pass_told journal := by
  rw [pass_told, Prog.told_exec_of_ne (by simp), pass_told]

omit [DecidableEq κ] in
theorem saw_exec {pk : EnvId} {name : RefName} {item : Item Ref}
    (found : saw pk name ⟨party, command, (site.exec command journal.state).1⟩ = some item) :
    (journal.state.partition pk).get (.ref name) = some item := by
  cases party with
  | some other => cases command <;> cases found
  | none =>
    cases command with
    | base => cases found
    | iter_expired shard now_us limit =>
      obtain ⟨row, first, rfl⟩ := Option.map_eq_some_iff.mp found
      have same : row.pk = pk ∧ row.name = name ∧ row.item.body.lifecycle = .ephemeral ∧ row.expired now_us = true := by
        simpa using List.find?_some first
      have member := List.mem_of_mem_take (List.mem_of_find?_eq_some first)
      obtain ⟨rfl, rfl, -⟩ := same
      exact mem_ref_rows (List.mem_of_mem_filter ((site.arranged _).mem_iff.mp member))

/-- What a party did, and nothing of which is a transaction that went through. -/
def Writeless (event : SweepEvent κ) : Prop := ∀ pk name, Overwrites pk name event = false

omit [DecidableEq κ] in
theorem Writeless.standing {event : SweepEvent κ} (quiet : Writeless event) {pk : EnvId} {name : RefName} {before : List (SweepEvent κ)}
    (stands : (standing pk name before).isSome) : (LedgerVcs.standing pk name (event :: before)).isSome := by
  rw [LedgerVcs.standing]
  cases saw pk name event with
  | some => rfl
  | none =>
    dsimp only
    rw [quiet pk name]
    exact stands

omit [DecidableEq κ] in
theorem standing_exec {pk : EnvId} {name : RefName} {item : Item Ref}
    (found : standing pk name (Traced.exec site.exec party command journal).2.trace = some item) :
    (journal.state.partition pk).get (.ref name) = some item ∨
      Overwrites pk name ⟨party, command, (site.exec command journal.state).1⟩ = false ∧
        standing pk name journal.trace = some item := by
  rw [Traced.exec, standing] at found
  cases seen : saw pk name ⟨party, command, (site.exec command journal.state).1⟩ with
  | some other =>
    rw [seen] at found
    cases found
    exact .inl (saw_exec seen)
  | none =>
    rw [seen] at found
    dsimp only at found
    split at found
    next => cases found
    next untouched => exact .inr ⟨Bool.eq_false_iff.mpr untouched, found⟩

/-- A step that writes no ref. -/
theorem Watching.quiet (watching : Watching journal)
    (quiet : Writeless ⟨party, command, (site.exec command journal.state).1⟩)
    (partitions : (site.exec command journal.state).2.partitions = journal.state.partitions)
    (idle : deletions (κ := κ) ⟨party, command, (site.exec command journal.state).1⟩ = [])
    (expected : ∀ expected, discarding (pass_told (Traced.exec site.exec party command journal).2) = some expected →
      discarding (pass_told journal) = some expected ∨ (standing expected.env expected.name journal.trace).isSome) :
    Watching (Traced.exec site.exec party command journal).2 := by
  have same (pk : EnvId) : (site.exec command journal.state).2.partition pk = journal.state.partition pk := by
    rw [World.partition, World.partition, partitions]
  refine ⟨fun pk name item found => ?_, fun reading now => ?_, ?_, watching.warranted⟩
  next =>
    change ((site.exec command journal.state).2.partition pk).get (.ref name) = some item
    rw [same]
    rcases standing_exec found with here | ⟨-, before⟩
    next => exact here
    next => exact watching.seen pk name item before
  next =>
    rcases expected reading now with before | stands
    next =>
      rcases watching.expected reading before with stands | gone
      next => exact .inl (quiet.standing stands)
      next =>
        refine .inr ?_
        change (((site.exec command journal.state).2.partition reading.env).get (.ref reading.name)).bind Item.generation ≠
          some reading.generation
        rwa [same]
    next => exact .inl (quiet.standing stands)
  next =>
    intro deletion member
    rw [idle] at member
    cases member

/-- A step that is not a transaction. -/
theorem Watching.unwritten (watching : Watching journal) (unwritten : ∀ pk writes, command ≠ .base (.transact_write pk writes))
    (expected : ∀ expected, discarding (pass_told (Traced.exec site.exec party command journal).2) = some expected →
      discarding (pass_told journal) = some expected ∨ (standing expected.env expected.name journal.trace).isSome) :
    Watching (Traced.exec site.exec party command journal).2 := by
  have other (base : Cmd) (same : command = .base base) (pk : EnvId) (writes : List WriteOp) : base ≠ .transact_write pk writes :=
    fun impossible => unwritten pk writes (same.trans (congrArg SweepCmd.base impossible))
  refine watching.quiet (fun pk name => ?_) ?_ ?_ expected
  next =>
    cases command with
    | iter_expired => rfl
    | base base =>
      cases base with
      | transact_write pk writes => exact absurd rfl (other _ rfl pk writes)
      | _ => rfl
  next =>
    cases command with
    | iter_expired => rfl
    | base base => exact exec_partitions (other base rfl) journal.state
  next =>
    cases party with
    | some => rfl
    | none =>
      cases command with
      | iter_expired => rfl
      | base base =>
        cases base with
        | transact_write pk writes => exact absurd rfl (other _ rfl pk writes)
        | _ => rfl

theorem transact_discarding (pk : EnvId) (writes : List WriteOp) :
    discarding (pass_told (Traced.exec site.exec party (.base (.transact_write pk writes)) journal).2) = discarding (pass_told journal) := by
  cases party with
  | none => rw [pass_told_own]; rfl
  | some other => rw [pass_told_other]

/-- A transaction that is refused. -/
theorem Watching.refused (watching : Watching journal) {pk : EnvId} {writes : List WriteOp} {error : PyError}
    (refused : (journal.state.partition pk).transact_write writes = .error error) :
    Watching (Traced.exec site.exec party (.base (.transact_write pk writes)) journal).2 := by
  have done : site.exec (.base (.transact_write pk writes)) journal.state = (.error error, journal.state) := by
    rw [SweepSite.exec, exec, refused]
  refine watching.quiet (fun _ _ => by rw [done]; rfl) (by rw [done]) (by rw [done]; cases party <;> rfl) fun expected now => ?_
  rw [transact_discarding] at now
  exact .inl now

omit [DecidableEq κ] in
/-- A transaction leaves the refs that it does not write. -/
theorem commit_leaves {pk env : EnvId} {name : RefName} {writes : List WriteOp} {final : Partition} {world : World}
    (applied : (world.partition pk).transact_write writes = .ok final)
    (untouched : Overwrites env name (⟨party, .base (.transact_write pk writes), .ok ()⟩ : SweepEvent κ) = false) :
    ((world.with_partition pk final).partition env).get (.ref name) = (world.partition env).get (.ref name) := by
  by_cases same : pk = env
  next =>
    subst same
    have apart : ∀ write ∈ writes, writes_ref name write = false := by simpa [Overwrites] using untouched
    rw [partition_with_self, transact_untouched apart applied]
  next => rw [partition_with_of_ne world final same]

/-- A transaction that goes through. -/
theorem Watching.committed (watching : Watching journal) {pk : EnvId} {writes : List WriteOp} {final : Partition}
    (applied : (journal.state.partition pk).transact_write writes = .ok final)
    (warrants : ∀ deletion ∈ deletions (⟨party, .base (.transact_write pk writes), .ok ()⟩ : SweepEvent κ),
      ∃ item ∈ standing deletion.1 deletion.2.1 journal.trace,
        item.generation.isSome ∧ deletion.2.2 = item.generation.map Condition.generation_is)
    (unsettled : ∀ expected, discarding (pass_told journal) = some expected → expected.env = pk →
      writes.any (writes_ref expected.name) →
        (final.get (.ref expected.name)).bind Item.generation ≠ some expected.generation) :
    Watching (Traced.exec site.exec party (.base (.transact_write pk writes)) journal).2 := by
  have done : Traced.exec site.exec party (.base (.transact_write pk writes)) journal =
      (.ok (), ⟨journal.state.with_partition pk final, ⟨party, .base (.transact_write pk writes), .ok ()⟩ :: journal.trace⟩) := by
    rw [Traced.exec, SweepSite.exec, exec, applied]
  have standing_after (env : EnvId) (name : RefName) :
      standing env name (⟨party, .base (.transact_write pk writes), .ok ()⟩ :: journal.trace) =
        if Overwrites env name (⟨party, .base (.transact_write pk writes), .ok ()⟩ : SweepEvent κ) then none
        else standing env name journal.trace := by
    cases party <;> rfl
  have same_told : discarding (pass_told (Traced.exec site.exec party (.base (.transact_write pk writes)) journal).2) =
      discarding (pass_told journal) := transact_discarding pk writes
  rw [done] at same_told ⊢
  refine ⟨fun env name item found => ?_, fun expected now => ?_, warrants, watching.warranted⟩
  next =>
    rw [standing_after] at found
    split at found
    next => cases found
    next untouched =>
      exact (commit_leaves applied (Bool.eq_false_iff.mpr untouched)).trans (watching.seen env name item found)
  next =>
    rw [same_told] at now
    rw [standing_after]
    split
    next touched =>
      have within : pk = expected.env ∧ writes.any (writes_ref expected.name) = true := by simpa [Overwrites] using touched
      obtain ⟨rfl, writing⟩ := within
      refine .inr ?_
      rw [partition_with_self]
      exact unsettled expected now rfl writing
    next untouched =>
      rw [commit_leaves applied (Bool.eq_false_iff.mpr untouched)]
      exact watching.expected expected now

/-- A deletion by the pass. -/
theorem Watching.swept (watching : Watching journal) {pk : EnvId} {writes : List WriteOp} {final : Partition}
    (sweeps : Sweeps (pass_told journal) (.transact_write pk writes))
    (applied : (journal.state.partition pk).transact_write writes = .ok final) :
    Watching (Traced.exec site.exec none (.base (.transact_write pk writes)) journal).2 := by
  obtain ⟨name, generation, rest, under_way, rfl, clean⟩ := sweeps
  obtain ⟨current, gone⟩ := transact_deletes clean applied
  refine watching.committed applied (fun deletion member => ?_) fun expected now _ _ => ?_
  next =>
    have others : (rest.filterMap fun
        | .delete (.ref name) condition => some (pk, name, condition)
        | _ => none) = [] := by
      refine List.filterMap_eq_nil_iff.mpr fun write member => ?_
      have apart := clean write member
      cases write with
      | delete key condition =>
        cases key with
        | ref other => exact absurd (apart other) (by simp [writes_ref])
        | _ => rfl
      | _ => rfl
    rw [deletions, List.filterMap_cons] at member
    dsimp only at member
    rw [others, List.mem_singleton] at member
    subst member
    rcases watching.expected _ under_way with stands | replaced
    next =>
      obtain ⟨item, found⟩ := Option.isSome_iff_exists.mp stands
      have held := watching.seen pk name item found
      have same : item.generation = some generation := by rwa [held] at current
      exact ⟨item, found, by rw [same]; rfl, by rw [same]; rfl⟩
    next => exact absurd current replaced
  next =>
    rw [under_way] at now
    cases now
    rw [gone]
    exact Option.some_ne_none _ ∘ Eq.symm

/-- The pass reads a ref. -/
theorem Watching.reads (watching : Watching journal) {pk : EnvId} {name : RefName}
    (may : Undisturbed (κ := κ) none (.base (.meta_get pk (.ref name))) journal = true) :
    Watching (Traced.exec site.exec none (.base (.meta_get pk (.ref name))) journal).2 := by
  refine watching.unwritten (fun _ _ => by simp) fun expected now => ?_
  rw [pass_told_own] at now
  change discarding (⟨.meta_get pk (.ref name), (journal.state.partition pk).get (.ref name)⟩ :: pass_told journal) = _ at now
  rw [discarding] at now
  split at now
  next => exact .inl now
  next opening =>
    obtain ⟨item, found, rfl⟩ := Option.map_eq_some_iff.mp now
    refine .inr ?_
    simpa [Undisturbed, opening, found] using may

theorem Watching.passes (watching : Watching journal) (passes : Passes (journal.told none) command)
    (may : Undisturbed none command journal = true) : Watching (Traced.exec site.exec none command journal).2 := by
  cases command with
  | iter_expired shard now_us limit =>
    refine watching.unwritten (fun _ _ => by simp) fun expected now => ?_
    rw [pass_told_own] at now
    exact .inl now
  | base command =>
    have aloof (aloof : Aloof command) : Watching (Traced.exec site.exec none (.base command) journal).2 := by
      refine watching.unwritten (fun pk writes same => ?_) fun expected now => ?_
      next =>
        cases same
        exact aloof
      next =>
        rw [pass_told_own] at now
        exact .inl ((aloof_discarding aloof _).symm.trans now)
    cases command with
    | transact_write pk writes =>
      cases applied : (journal.state.partition pk).transact_write writes with
      | error error => exact watching.refused applied
      | ok final => exact watching.swept passes applied
    | meta_get pk key =>
      cases key with
      | ref name => exact watching.reads may
      | _ => exact aloof trivial
    | _ => exact aloof trivial

theorem Watching.client (watching : Watching journal) {client : κ} (may : Undisturbed (some client) command journal = true) :
    Watching (Traced.exec site.exec (some client) command journal).2 := by
  by_cases transacts : ∃ pk writes, command = .base (.transact_write pk writes)
  next =>
    obtain ⟨pk, writes, rfl⟩ := transacts
    cases applied : (journal.state.partition pk).transact_write writes with
    | error error => exact watching.refused applied
    | ok final =>
      refine watching.committed applied (fun _ member => by cases member) fun expected now placed writing => ?_
      simp only [Undisturbed, now, applied, decide_eq_true_eq] at may
      exact may placed writing
  next =>
    refine watching.unwritten (fun pk writes same => transacts ⟨pk, writes, same⟩) fun expected now => ?_
    rw [pass_told_other] at now
    exact .inl now

end Runs

/-! ## Every run -/

/-- Whatever else goes on leaves the partitions alone. -/
def SparesPartitions {κ : Type} (before after : SweepJournal κ) : Prop :=
  after.trace = before.trace ∧ after.state.partitions = before.state.partitions

theorem spares_watching {κ : Type} [DecidableEq κ] {before after : SweepJournal κ} (spares : SparesPartitions before after)
    (watching : Watching before) : Watching after := by
  obtain ⟨trace, partitions⟩ := spares
  have same (pk : EnvId) : after.state.partition pk = before.state.partition pk := by
    rw [World.partition, World.partition, partitions]
  have told : pass_told after = pass_told before := by rw [pass_told, pass_told, Prog.Traced.told, trace, Prog.Traced.told]
  refine ⟨?_, ?_, ?_⟩
  next =>
    simp only [trace, same]
    exact watching.seen
  next =>
    simp only [told, trace, same]
    exact watching.expected
  next =>
    rw [trace]
    exact watching.warranted

def takes_sweep {κ : Type} : Option κ → List (Exchange SweepCmd SweepCmd.Response) → SweepCmd → Prop
  | none => Passes
  | some _ => fun _ _ => True

/-- In every run in which nobody writes a ref between its scan and the first read of its discard, and nobody leaves it at
the generation read before its deletion, the pass deletes only what its scan found expired. -/
theorem expired_only {κ : Type} [DecidableEq κ] (site : SweepSite) (config : GcConfig) (limit : Nat) (clients : κ → Act Unit)
    (world : World) {after : Pool (Option κ) SweepCmd SweepCmd.Response PyError SweepResult (SweepJournal κ)}
    (run : Pool.Run (undisturbed site) SparesPartitions (maintained site config limit clients world) after) :
    Warranted after.shared.trace := by
  have initially : Watching (maintained site config limit clients world).shared :=
    ⟨fun _ _ _ impossible => (by cases impossible), fun _ impossible => (by cases impossible), trivial⟩
  have starts (party : Option κ) : ((maintained site config limit clients world).procs party).Recalls (takes_sweep party)
      (SweepAnswers site.corpus) (fun _ _ => True) ((maintained site config limit clients world).shared.told party) := by
    cases party with
    | none => exact (maintenance_recalls config site.shard_count limit fun _ _ => rfl).mono fun _ _ _ => trivial
    | some client => exact Prog.Recalls.free (repo (clients client)) []
  have steps (party : Option κ) (command : SweepCmd) (journal : SweepJournal κ)
      (takes : takes_sweep party (journal.told party) command) (may : Undisturbed party command journal = true)
      (watching : Watching journal) : Watching (Traced.exec site.exec party command journal).2 := by
    cases party with
    | none => exact watching.passes takes may
    | some client => exact watching.client may
  have answer (command : SweepCmd) (state : World) : SweepAnswers site.corpus command (site.exec command state).1 := by
    cases command with
    | base command => exact answered site.corpus command state
    | iter_expired => trivial
  exact (Pool.run_recalls starts (fun command journal _ => answer command journal.state) steps (fun _ _ spares => spares.1)
    (fun _ _ spares => spares_watching spares) initially run).1.warranted

/-! ## One expired ref -/

def sweptSite : SweepSite := ⟨.none, .ofTable [], 1, id, fun rows => .refl rows⟩

def trialRef : RefName := ⟨"refs/heads/trial"⟩

def expiredTrial : Item Ref :=
  { body := { name := trialRef, target := emptyTreeName, generation := 1, lifecycle := .ephemeral, expires_at_us := some 5,
              updated_by := "agent", updated_at_us := 0 }
    version := 1, generation := some 1, expires_at_us := some 5 }

def trialWorld : World :=
  { (World.empty 10).with_partition ⟨"env"⟩
      { Partition.empty with
        env := some ⟨⟨⟨"env"⟩, ⟨"org/env"⟩, DEFAULT_REF, .active, "owner", [], none, none, 0⟩, 1, none, none⟩
        refs := (∅ : Std.ExtTreeMap RefName (Item Ref)).insert trialRef expiredTrial
        seq := some ⟨1, 1, none, none⟩ } with
    names := (∅ : Std.ExtTreeMap EnvName NameClaim).insert ⟨"org/env"⟩ ⟨⟨"env"⟩, none⟩ }

/-- A client that makes the ref anew, to stay. -/
def keepTrial (_ : Unit) : Act Unit := do
  let _ ← delete_ref ⟨"env"⟩ trialRef 1 "client" none
  let _ ← create_ref ⟨"env"⟩ trialRef emptyTreeName "client" .permanent none none none none
  return ()

def keptAfter (steps : Nat) : List (Pool.Cue (Option Unit) (SweepJournal Unit)) :=
  [.turn none steps, .turn (some ()) 20, .turn none 20]

/-- The client comes when the pass is over. -/
theorem expired_only_swept :
    Warranted ((maintained sweptSite .default 1000 keepTrial trialWorld).play (undisturbed sweptSite) (keptAfter 20)).shared.trace :=
  expired_only sweptSite .default 1000 keepTrial trialWorld (Pool.Run.play (by simp [keptAfter]) (by decide))

def unhindered (site : SweepSite) (party : Option Unit) : Actor SweepCmd SweepCmd.Response (SweepJournal Unit) :=
  ⟨Traced.exec site.exec party, fun _ _ => True⟩

def keptFrom (steps : Nat) : Pool (Option Unit) SweepCmd SweepCmd.Response PyError SweepResult (SweepJournal Unit) :=
  (maintained sweptSite .default 1000 keepTrial trialWorld).play (unhindered sweptSite) (keptAfter steps)

instance (site : SweepSite) (party : Option Unit) (command : SweepCmd) (journal : SweepJournal Unit) :
    Decidable ((unhindered site party).may command journal) :=
  inferInstanceAs (Decidable True)

/-- The client keeps the ref right after the scan, or right after the first read, and the pass deletes what it made. -/
theorem kept_deleted :
    (Pool.Run (unhindered sweptSite) SparesPartitions (maintained sweptSite .default 1000 keepTrial trialWorld) (keptFrom 2) ∧
      ((keptFrom 2).procs none).value = some ⟨1, 0, 0⟩ ∧ ¬ Warranted (keptFrom 2).shared.trace) ∧
    Pool.Run (unhindered sweptSite) SparesPartitions (maintained sweptSite .default 1000 keepTrial trialWorld) (keptFrom 3) ∧
      ((keptFrom 3).procs none).value = some ⟨1, 0, 0⟩ ∧ ¬ Warranted (keptFrom 3).shared.trace :=
  ⟨⟨Pool.Run.play (by simp [keptAfter]) (by decide), by decide, by decide⟩,
    Pool.Run.play (by simp [keptAfter]) (by decide), by decide, by decide⟩

end LedgerVcs
