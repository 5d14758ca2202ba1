import LedgerVcs.Lib.Lasting
import LedgerVcs.Maintenance.Rebuild
import LedgerVcs.Service.Publishing

set_option autoImplicit false

/-! What a rebuild leaves in a keep-set while reads fail. -/

namespace LedgerVcs

open Prog

/-- Why an object that may well be stored cannot be read. -/
inductive Fault
  | unavailable (message : String)
  | corrupt (message : String)
deriving DecidableEq, Repr

def Fault.error : Fault → PyError
  | .unavailable message => .backendUnavailable message
  | .corrupt message => .corruptObject message

/-- What befalls a read, by how many there were before it and by the object's name. -/
abbrev Faults := Nat → ObjectName → Option Fault

/-- The world, and the reads it has answered: how many there were, and those that failed. -/
structure Storage where
  world : World
  reads : Nat
  failed : List ObjectName

def storage (corpus : Corpus) (faults : Faults) : (command : Cmd) → Storage → command.Response × Storage
  | .backend_read name, state =>
    match faults state.reads name with
    | some fault => (.error fault.error, { state with reads := state.reads + 1, failed := name :: state.failed })
    | none => (stored_object corpus state.world name, { state with reads := state.reads + 1 })
  | command, state => ((exec corpus command state.world).1, { state with world := (exec corpus command state.world).2 })

/-- A rebuild during which reads fail. -/
def rebuilt (corpus : Corpus) (faults : Faults) (config : GcConfig) (env_name : EnvName) (world : World) : Storage :=
  (run (storage corpus faults) (GarbageCollector.rebuild_keep_set config env_name) ⟨world, 0, []⟩).2

/-- No read fails but of these objects. -/
def Confined (faults : Faults) (lost : ObjectName → Option Fault) : Prop :=
  ∀ place name, lost name = none → faults place name = none

/-- What is read of the objects where each read of the lost ones fails. -/
def spared (corpus : Corpus) (lost : ObjectName → Option Fault) (world : World) (name : ObjectName) :
    Except PyError LedgerObject :=
  match lost name with
  | some fault => .error fault.error
  | none => stored_object corpus world name

def sparing (corpus : Corpus) (lost : ObjectName → Option Fault) : (command : Cmd) → World → command.Response × World
  | .backend_read name, world => (spared corpus lost world name, world)
  | command, world => exec corpus command world

variable {corpus : Corpus} {faults : Faults} {lost : ObjectName → Option Fault} {world : World} {config : GcConfig}
  {env : EnvId} {env_name : EnvName}

theorem sparing_answering : Answering corpus (sparing corpus lost) world (spared corpus lost world) where
  reads _ := rfl
  rest command other := by
    cases command with
    | backend_read name => exact absurd ⟨name, rfl⟩ other
    | _ => rfl
  tolerable name error := by
    rw [spared]
    cases lost name with
    | none => exact exec_answering.tolerable name error
    | some fault => cases fault <;> rintro ⟨⟩ <;> rfl

/-- Where all reads of an object fail, or none does, only their record tells the two machines apart. -/
theorem storage_sparing (command : Cmd) (state : Storage) :
    sparing corpus lost command state.world = ((storage corpus (fun _ => lost) command state).1,
      (storage corpus (fun _ => lost) command state).2.world) := by
  cases command with
  | backend_read name =>
    rw [sparing, storage, spared]
    cases lost name <;> rfl
  | _ => rfl

/-! ## Reads that fail now and then -/

section Walks

/-- An answer that withholds nothing of what is spared. -/
def Candid (corpus : Corpus) (lost : ObjectName → Option Fault) (world : World) :
    (command : Cmd) → command.Response → Prop
  | .backend_read name, response => ∀ object, spared corpus lost world name = .ok object → response = .ok object
  | _, _ => True

theorem storage_spares (confined : Confined faults lost) {command : Cmd} {state : Storage} (reads : Reads command) :
    (storage corpus faults command state).2.world = state.world ∧
      Candid corpus lost state.world command (storage corpus faults command state).1 := by
  obtain ⟨name, rfl⟩ := reads
  rw [storage]
  cases struck : faults state.reads name with
  | some fault =>
    refine ⟨rfl, fun object read => ?_⟩
    cases free : lost name with
    | none => rw [confined _ name free] at struck; cases struck
    | some other => rw [spared, free] at read; cases read
  | none =>
    refine ⟨rfl, fun object read => ?_⟩
    cases free : lost name with
    | none => rw [spared, free] at read; exact read
    | some other => rw [spared, free] at read; cases read

theorem commit_spares (name : ObjectName) :
    (GarbageCollector.commit? name).Yields Reads (Candid corpus lost world) fun found =>
      ∀ node, commit_at (spared corpus lost world) name = some node → found = some node := by
  refine ⟨⟨name, rfl⟩, fun response candid => ?_⟩
  cases read : commit_at (spared corpus lost world) name with
  | none =>
    cases response with
    | ok object => cases object <;> exact fun _ impossible => by cases impossible
    | error error => cases error <;> first | trivial | exact fun _ impossible => by cases impossible
  | some node =>
    have stored : spared corpus lost world name = .ok (.commit node) := by
      rw [commit_at] at read
      split at read
      next commit found => rw [found, Option.some.inj read]
      next => cases read
    rw [candid _ stored]
    exact fun _ same => same

theorem closure_spares (tree : ObjectName) :
    (GarbageCollector.closure tree).Yields Reads (Candid corpus lost world) fun found =>
      listing (sparing corpus lost) world tree ⊆ found := by
  have strict : (tree_closure tree).Strict Reads Fetched := walk_strict _ _ _ _
  have whole : (tree_closure tree >>= fun found => (return found.toFinset : Act _)).Strict Reads Fetched :=
    .bind strict fun _ => trivial
  rw [listing]
  rcases outcome : run (sparing corpus lost) (tree_closure tree) world with ⟨result, after⟩
  cases result with
  | error error =>
    refine (Yields.handling whole.takes fun error => ?_).mono (fun _ fits => fits) fun _ _ => Finset.empty_subset _
    cases error.is_ledger_error <;> trivial
  | ok names =>
    have through : run (sparing corpus lost) (tree_closure tree >>= fun found => (return found.toFinset : Act _)) world =
        (.ok names.toFinset, after) := run_bind_ok _ outcome
    have repeated := @Strict.repeats _ _ _ _ _ _ _ (Candid corpus lost world) (sparing corpus lost) _ world _ _ whole
      (by rintro _ ⟨name, rfl⟩; rw [sparing]) (by
        rintro _ _ ⟨name, rfl⟩ ⟨object, read⟩ candid
        exact (candid object read).trans read.symm) through
    refine .bind (repeated.mono (fun _ fits => fits) ?_)
    rintro _ rfl
    exact Finset.Subset.refl _

/-! ## The walk of the history -/

/-- What has been walked has contributed all that is spared of it, and its parents are walked or awaited. -/
structure Covers (corpus : Corpus) (lost : ObjectName → Option Fault) (world : World) (awaited : List ObjectName)
    (reach : GarbageCollector.Reach) : Prop where
  followed : ∀ commit ∈ reach.visited, ∀ parent ∈ parents_at (spared corpus lost world) commit,
    parent ∈ reach.visited ∨ parent ∈ awaited
  gathered : ∀ commit ∈ reach.visited,
    contributes (sparing corpus lost) world (spared corpus lost world) commit ⊆ reach.reachable

/-- What the walk adds, and what holds once it has finished. -/
def Walks (corpus : Corpus) (lost : ObjectName → Option Fault) (world : World) (awaited : List ObjectName)
    (before : GarbageCollector.Reach) (result : Bool × GarbageCollector.Reach) : Prop :=
  before.visited ⊆ result.2.visited ∧
    (result.1 = true → Covers corpus lost world [] result.2 ∧ ∀ commit ∈ awaited, commit ∈ result.2.visited)

theorem awaited_left {frontier left : List ObjectName} {visited : Finset ObjectName}
    (pending : frontier.dropWhile (fun commit => commit ∈ visited) = left) (commit : ObjectName)
    (member : commit ∈ frontier) : commit ∈ visited ∨ commit ∈ left :=
  pending ▸ (@Search.skipped_or_left _ (fun commit => decide (commit ∈ visited)) _ _ member).imp_left of_decide_eq_true

theorem walks_done {frontier : List ObjectName} {reach : GarbageCollector.Reach}
    (covers : Covers corpus lost world frontier reach)
    (pending : frontier.dropWhile (fun commit => commit ∈ reach.visited) = []) :
    Walks corpus lost world frontier reach (true, reach) := by
  have all (commit : ObjectName) (member : commit ∈ frontier) : commit ∈ reach.visited :=
    (awaited_left pending commit member).resolve_right List.not_mem_nil
  refine ⟨Finset.Subset.refl _, fun _ => ⟨⟨fun commit visited parent edge => .inl ?_, covers.gathered⟩, all⟩⟩
  exact (covers.followed commit visited parent edge).elim id (all parent)

/-- One more commit, whose own parents are then awaited. -/
theorem covers_next {frontier rest more : List ObjectName} {head : ObjectName} {reach : GarbageCollector.Reach}
    {reachable : Finset ObjectName} (covers : Covers corpus lost world frontier reach)
    (pending : frontier.dropWhile (fun commit => commit ∈ reach.visited) = head :: rest)
    (followed : ∀ parent ∈ parents_at (spared corpus lost world) head, parent ∈ more)
    (gathered : contributes (sparing corpus lost) world (spared corpus lost world) head ⊆ reachable)
    (grown : reach.reachable ⊆ reachable) :
    Covers corpus lost world (more ++ rest) ⟨reachable, insert head reach.visited⟩ := by
  constructor
  next =>
    intro commit visited parent edge
    rcases Finset.mem_insert.mp visited with rfl | before
    next => exact .inr (List.mem_append_left _ (followed parent edge))
    next =>
      rcases covers.followed commit before parent edge with old | waiting
      next => exact .inl (Finset.mem_insert_of_mem old)
      next =>
        rcases awaited_left pending parent waiting with old | late
        next => exact .inl (Finset.mem_insert_of_mem old)
        next =>
          rcases List.mem_cons.mp late with rfl | later
          next => exact .inl (Finset.mem_insert_self _ _)
          next => exact .inr (List.mem_append_right _ later)
  next =>
    intro commit visited
    rcases Finset.mem_insert.mp visited with rfl | before
    next => exact gathered
    next => exact (covers.gathered commit before).trans grown

theorem walks_next {frontier rest more : List ObjectName} {head : ObjectName} {reach : GarbageCollector.Reach}
    {reachable : Finset ObjectName} {result : Bool × GarbageCollector.Reach}
    (pending : frontier.dropWhile (fun commit => commit ∈ reach.visited) = head :: rest)
    (walks : Walks corpus lost world (more ++ rest) ⟨reachable, insert head reach.visited⟩ result) :
    Walks corpus lost world frontier reach result := by
  obtain ⟨grown, finished⟩ := walks
  refine ⟨(Finset.subset_insert _ _).trans grown, fun done => ⟨(finished done).1, fun commit member => ?_⟩⟩
  rcases awaited_left pending commit member with old | late
  next => exact grown (Finset.mem_insert_of_mem old)
  next =>
    rcases List.mem_cons.mp late with rfl | later
    next => exact grown (Finset.mem_insert_self _ _)
    next => exact (finished done).2 commit (List.mem_append_right _ later)

theorem walk_history_covers (remaining : Nat) (frontier : List ObjectName) {reach : GarbageCollector.Reach}
    (covers : Covers corpus lost world frontier reach) :
    (GarbageCollector.walk_history_from remaining frontier reach).Yields Reads (Candid corpus lost world)
      (Walks corpus lost world frontier reach) := by
  induction remaining generalizing frontier reach with
  | zero =>
    rw [GarbageCollector.walk_history_from]
    split
    next pending => exact walks_done covers pending
    next => exact ⟨Finset.Subset.refl _, fun impossible => by cases impossible⟩
  | succ remaining ih =>
    rw [GarbageCollector.walk_history_from]
    split
    next pending => exact walks_done covers pending
    next head rest pending =>
      refine .bind ((commit_spares head).mono (fun _ fits => fits) fun found spares => ?_)
      cases found with
      | none =>
        -- What is spared is found: this commit contributes nothing.
        have absent : commit_at (spared corpus lost world) head = none := by
          cases read : commit_at (spared corpus lost world) head with
          | none => rfl
          | some node => cases spares node read
        have covers' : Covers corpus lost world ([] ++ rest) ⟨reach.reachable, insert head reach.visited⟩ := by
          refine covers_next covers pending (fun parent edge => ?_) ?_ (Finset.Subset.refl _)
          next => rw [parents_at, absent] at edge; cases edge
          next => rw [contributes, absent]; exact Finset.empty_subset _
        exact (ih rest covers').mono (fun _ fits => fits) fun _ => @walks_next _ _ _ _ _ [] _ _ _ _ pending
      | some node =>
        refine .bind ((closure_spares node.tree).mono (fun _ fits => fits) fun below within => ?_)
        have covers' : Covers corpus lost world (node.parents.reverse ++ rest)
            ⟨insert head reach.reachable ∪ below, insert head reach.visited⟩ := by
          refine covers_next covers pending (fun parent edge => ?_) ?_
            ((Finset.subset_insert _ _).trans Finset.subset_union_left)
          next =>
            rw [parents_at] at edge
            cases read : commit_at (spared corpus lost world) head with
            | none => rw [read] at edge; cases edge
            | some other =>
              rw [read, ← Option.some.inj (spares other read)] at edge
              exact List.mem_reverse.mpr edge
          next =>
            rw [contributes]
            cases read : commit_at (spared corpus lost world) head with
            | none => exact Finset.empty_subset _
            | some other =>
              rw [← Option.some.inj (spares other read)]
              exact Finset.insert_subset (Finset.mem_union_left _ (Finset.mem_insert_self _ _))
                (within.trans Finset.subset_union_right)
        exact (ih (node.parents.reverse ++ rest) covers').mono (fun _ fits => fits) fun _ => walks_next pending

theorem walk_history_reads (remaining : Nat) (frontier : List ObjectName) (reach : GarbageCollector.Reach) :
    (GarbageCollector.walk_history_from remaining frontier reach).Yields Reads (Candid corpus lost world) fun _ => True := by
  induction remaining generalizing frontier reach with
  | zero =>
    rw [GarbageCollector.walk_history_from]
    split <;> trivial
  | succ remaining ih =>
    rw [GarbageCollector.walk_history_from]
    split
    next => trivial
    next =>
      refine .bind ((commit_spares _).mono (fun _ fits => fits) fun found _ => ?_)
      cases found with
      | none => exact ih _ _
      | some node => exact .bind ((closure_spares node.tree).mono (fun _ fits => fits) fun _ _ => ih _ _)

/-- Once a walk has stopped early, nothing makes up for it. -/
theorem walk_roots_stopped (roots : List ObjectName) (reach : GarbageCollector.Reach) :
    (roots.foldlM GarbageCollector.walk_root (false, reach)).Yields Reads (Candid corpus lost world) fun result =>
      result.1 = false := by
  refine @Yields.foldlM _ _ _ _ _ _ _ (fun so_far : Bool × GarbageCollector.Reach => so_far.1 = false) _ _ _ rfl ?_
  rintro so_far head - stopped
  exact .bind ((walk_history_reads _ _ _).mono (fun _ fits => fits) fun _ _ => by simp [Yields, pure, stopped])

/-- What the walks of all roots come to, if all of them finish. -/
theorem walk_roots_cover (roots : List ObjectName) {reach : GarbageCollector.Reach}
    (covers : Covers corpus lost world [] reach) :
    (roots.foldlM GarbageCollector.walk_root (true, reach)).Yields Reads (Candid corpus lost world) fun result =>
      result.1 = true → reach.visited ⊆ result.2.visited ∧ Covers corpus lost world [] result.2 ∧
        ∀ root ∈ roots, root ∈ result.2.visited := by
  induction roots generalizing reach with
  | nil => exact fun _ => ⟨Finset.Subset.refl _, covers, fun _ impossible => by cases impossible⟩
  | cons root roots ih =>
    have started : Covers corpus lost world [root] reach :=
      ⟨fun commit visited parent edge => .inl ((covers.followed commit visited parent edge).resolve_right
        List.not_mem_nil), covers.gathered⟩
    rw [List.foldlM_cons, GarbageCollector.walk_root, GarbageCollector.walk_history, bind_assoc]
    refine .bind ((walk_history_covers _ _ started).mono (fun _ fits => fits) ?_)
    rintro ⟨finished, middle⟩ ⟨grown, done⟩
    cases finished with
    | false =>
      refine (walk_roots_stopped roots middle).mono (fun _ fits => fits) fun result stopped complete => ?_
      rw [stopped] at complete
      cases complete
    | true =>
      refine (ih (done rfl).1).mono (fun _ fits => fits) fun result rest complete => ?_
      obtain ⟨more, covers', all⟩ := rest complete
      refine ⟨grown.trans more, covers', fun other member => ?_⟩
      rcases List.mem_cons.mp member with rfl | later
      next => exact more ((done rfl).2 _ (List.mem_singleton_self _))
      next => exact all other later

end Walks

/-! ## The rebuild -/

/-- What the rebuild finds among what is spared, stays. -/
theorem found_stays (confined : Confined faults lost) (registered : (world.names[env_name]?).map NameClaim.env_id = some env)
    {name : ObjectName} (kept : name ∈ world.kept env)
    (found : Found (sparing corpus lost) world (spared corpus lost world) (considered config world env) name) :
    name ∈ (rebuilt corpus faults config env_name world).world.kept env := by
  obtain ⟨claim, claimed, rfl⟩ := Option.map_eq_some_iff.mp registered
  have asked {command : Cmd} (other : ¬ Reads command) (state : Storage) :
      run (storage corpus faults) (issue command) state =
        (.ok (exec corpus command state.world).1, { state with world := (exec corpus command state.world).2 }) := by
    cases command with
    | backend_read name => exact absurd ⟨name, rfl⟩ other
    | _ => rfl
  -- What the walks do, from any state of the same world.
  have walked (roots : List ObjectName) (start : Bool × GarbageCollector.Reach) {Q : Bool × GarbageCollector.Reach → Prop}
      (yields : (roots.foldlM GarbageCollector.walk_root start).Yields Reads (Candid corpus lost world) Q)
      (state : Storage) (here : state.world = world) :=
    @Yields.run_within _ _ _ _ _ _ _ _ (storage corpus faults) _ (fun state => state.world = world) yields
      (fun command before reads same => same ▸ (storage_spares confined reads).2)
      (fun command before reads same => (storage_spares confined reads).1.trans same) state here
  have resolved : run (storage corpus faults) (resolve_env_name env_name) ⟨world, 0, []⟩ =
      (.ok claim.env_id, ⟨world, 0, []⟩) := by
    rw [resolve_env_name, run_bind_ok _ (asked (by rintro ⟨_, impossible⟩; cases impossible) _)]
    simp only [exec, claimed]
    rfl
  have listed : run (storage corpus faults) (list_refs claim.env_id) ⟨world, 0, []⟩ =
      (.ok (((world.partition claim.env_id).query 1000 .refs).map Item.body), ⟨world, 0, []⟩) := by
    rw [list_refs, run_bind_ok _ (asked (by rintro ⟨_, impossible⟩; cases impossible) _)]
    rfl
  have logged (state : Storage) (here : state.world = world) : run (storage corpus faults) (list_ops claim.env_id 10000) state =
      (.ok (((world.partition claim.env_id).query 10000 (.ops true)).map Item.body), state) := by
    rw [list_ops, run_bind_ok _ (asked (by rintro ⟨_, impossible⟩; cases impossible) _)]
    subst here
    rfl
  rw [rebuilt, GarbageCollector.rebuild_keep_set, run_bind_ok _ resolved, run_bind_ok _ listed, query_targets, run_bind]
  obtain ⟨still, first⟩ := walked ((world.live_targets claim.env_id).take 1000) (true, ⟨∅, ∅⟩)
    (walk_roots_cover _ ⟨fun _ impossible => (by cases impossible), fun _ impossible => by cases impossible⟩) ⟨world, 0, []⟩ rfl
  rcases live : run (storage corpus faults) (((world.live_targets claim.env_id).take 1000).foldlM GarbageCollector.walk_root
    (true, ⟨∅, ∅⟩)) ⟨world, 0, []⟩ with ⟨_ | result, middle⟩
  next => rw [live] at still; exact still ▸ kept
  next =>
    rw [live] at still first
    simp only at still
    obtain ⟨complete, reach⟩ := result
    dsimp only
    rw [run_bind_ok _ (asked (by rintro ⟨_, impossible⟩; cases impossible) _)]
    simp only [exec]
    rw [run_bind_ok _ (logged _ still), query_entries, run_bind, still]
    set entries := GarbageCollector.op_roots (world.clock - config.op_log_retention_us)
      ((world.log_entries claim.env_id).take 10000) with entries_eq
    have whole : (entries.foldlM GarbageCollector.walk_root (complete, reach)).Yields Reads (Candid corpus lost world)
        fun result => result.1 = true → complete = true ∧ reach.visited ⊆ result.2.visited ∧
          Covers corpus lost world [] result.2 ∧ ∀ root ∈ entries, root ∈ result.2.visited := by
      cases complete with
      | false =>
        refine (walk_roots_stopped _ _).mono (fun _ fits => fits) fun result stopped done => ?_
        rw [stopped] at done
        cases done
      | true => exact (walk_roots_cover _ (first _ rfl rfl).2.1).mono (fun _ fits => fits) fun _ spec done => ⟨rfl, spec done⟩
    obtain ⟨here, second⟩ := walked _ _ whole middle still
    rcases rest : run (storage corpus faults) (entries.foldlM GarbageCollector.walk_root (complete, reach)) middle
      with ⟨_ | ⟨finished, after⟩, last⟩
    all_goals rw [rest] at here second; simp only at here
    next => exact here ▸ kept
    next =>
      cases finished with
      | false =>
        dsimp only
        rw [if_neg Bool.false_ne_true, asked (by rintro ⟨_, impossible⟩; cases impossible)]
        exact here ▸ kept
      | true =>
        obtain ⟨rfl, grown, covers, all⟩ := second _ rfl rfl
        obtain ⟨-, -, starts⟩ := first _ rfl rfl
        obtain ⟨root, member, commit, path, contributed⟩ := found
        have walked_root : root ∈ after.visited := by
          rcases List.mem_append.mp member with ref | entry
          next => exact grown (starts root ref)
          next => exact all root entry
        have walked_commit : commit ∈ after.visited := by
          clear contributed
          induction path with
          | refl => exact walked_root
          | tail _ edge ih => exact (covers.followed _ ih _ edge).resolve_right List.not_mem_nil
        dsimp only
        rw [if_pos rfl, asked (by rintro ⟨_, impossible⟩; cases impossible)]
        exact (@mem_keepset_replace corpus last.world _ _ _).mpr (covers.gathered commit walked_commit contributed)

/-- Where all reads of an object fail or none does, the rebuild is one of what is spared. -/
theorem rebuilt_world : (rebuilt corpus (fun _ => lost) config env_name world).world =
    (run (sparing corpus lost) (GarbageCollector.rebuild_keep_set config env_name) world).2 :=
  (congrArg Prod.snd (@run_project _ _ _ _ _ _ (storage corpus fun _ => lost) (sparing corpus lost) Storage.world
    storage_sparing (GarbageCollector.rebuild_keep_set config env_name) ⟨world, 0, []⟩)).symm

/-- Whatever the keep-set held of the histories of the live refs, it still holds. -/
def Unshrunk (corpus : Corpus) (faults : Faults) (config : GcConfig) (env_name : EnvName) (env : EnvId) (world : World) : Prop :=
  ∀ name ∈ world.kept env, Kept corpus world (world.live_targets env) name →
    name ∈ (rebuilt corpus faults config env_name world).world.kept env

/-- Whatever the keep-set holds of the histories of the live refs, a rebuild finds without the objects that are lost. -/
def FoundAnyway (corpus : Corpus) (lost : ObjectName → Option Fault) (config : GcConfig) (env : EnvId) (world : World) : Prop :=
  ∀ name ∈ world.kept env, Kept corpus world (world.live_targets env) name →
    Found (sparing corpus lost) world (spared corpus lost world) (considered config world env) name

/-- A rebuild during which reads fail shrinks nothing if it finds everything among what is spared; and where each read
of a lost object fails, only then, or when it is cut off. -/
theorem rebuild_unshrunk (corpus : Corpus) (lost : ObjectName → Option Fault) (config : GcConfig) (world : World)
    (env_name : EnvName) (env : EnvId) (registered : (world.names[env_name]?).map NameClaim.env_id = some env) :
    (∀ faults, Confined faults lost → FoundAnyway corpus lost config env world →
        Unshrunk corpus faults config env_name env world) ∧
      (Unshrunk corpus (fun _ => lost) config env_name env world ↔
        ¬ WithinWalks (spared corpus lost world) [] (considered config world env) ∨
          FoundAnyway corpus lost config env world) := by
  constructor
  next => exact fun faults confined found name kept live => found_stays confined registered kept (found name kept live)
  next =>
    obtain ⟨count, after, ran, cut, finished⟩ := @run_rebuild _ _ _ _ (@sparing_answering corpus lost world) config _ _ registered
    simp only [Unshrunk, FoundAnyway, rebuilt_world, ran]
    by_cases within : WithinWalks (spared corpus lost world) [] (considered config world env)
    next => simp only [within, not_true_eq_false, false_or, finished within]
    next =>
      rw [cut within]
      exact ⟨fun _ => .inl within, fun _ name kept _ => kept⟩

/-- One branch, whose commit is kept. -/
def guarded : World := { branched 1 with keepset := {(⟨"env"⟩, numbered 1)} }

def losing (number : Nat) (fault : Fault) (name : ObjectName) : Option Fault :=
  if name = numbered number then some fault else none

/-- Its tree has rotted, and its commit stays. -/
theorem rebuild_unshrunk_tree :
    Unshrunk firstCommits (fun _ => losing 0 (.corrupt "bytes do not match the name")) .default ⟨"org/env"⟩ ⟨"env"⟩ guarded := by
  refine (rebuild_unshrunk firstCommits (losing 0 (.corrupt "bytes do not match the name")) .default guarded ⟨"org/env"⟩ ⟨"env"⟩
    (@branched_registered 1)).2.mpr (.inr fun name kept live => ?_)
  have only : name = numbered 1 := by simpa [World.kept, guarded] using kept
  have considers : numbered 1 ∈ considered .default guarded ⟨"env"⟩ := by decide
  have read : commit_at (spared firstCommits (losing 0 (.corrupt "bytes do not match the name")) guarded) (numbered 1) =
      some (firstCommit (numbered 1)) := by decide
  refine ⟨numbered 1, considers, numbered 1, .refl, ?_⟩
  rw [contributes, read, only]
  exact Finset.mem_insert_self _ _

/-- Its commit cannot be fetched, and is kept no longer. -/
theorem failed_fetch_unkept :
    numbered 1 ∈ guarded.kept ⟨"env"⟩ ∧ Kept firstCommits guarded (guarded.live_targets ⟨"env"⟩) (numbered 1) ∧
      (rebuilt firstCommits (fun _ => losing 1 (.unavailable "could not read object")) .default ⟨"org/env"⟩ guarded).failed =
        [numbered 1] ∧
      numbered 1 ∉ (rebuilt firstCommits (fun _ => losing 1 (.unavailable "could not read object")) .default ⟨"org/env"⟩
        guarded).world.kept ⟨"env"⟩ := by
  refine ⟨by decide, ⟨numbered 1, branched_targets Nat.one_pos, numbered 1, .refl, .inl rfl⟩, by decide, by decide⟩

end LedgerVcs
