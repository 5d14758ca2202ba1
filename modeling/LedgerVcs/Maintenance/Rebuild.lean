import LedgerVcs.Auth.Reachability
import LedgerVcs.Maintenance.Gc
import Std.Data.String.ToNat

set_option autoImplicit false

/-! What a rebuild leaves in a keep-set. -/

namespace LedgerVcs

open Prog

/-- The world, as a rebuild finds it: a machine that answers each read of an object alike, and leaves it at that. -/
structure Answering (corpus : Corpus) (machine : (command : Cmd) → World → command.Response × World) (world : World)
    (read : ObjectName → Except PyError LedgerObject) : Prop where
  reads : ∀ name, machine (.backend_read name) world = (read name, world)
  rest : ∀ command, ¬ Reads command → machine command world = exec corpus command world
  tolerable : ∀ name error, read name = .error error → error.is_ledger_error = true

/-! ## One read, and one closure -/

section Reading

variable (read : ObjectName → Except PyError LedgerObject)

/-- The commit that is read under the name, if one is. -/
def commit_at (name : ObjectName) : Option Commit :=
  match read name with
  | .ok (.commit node) => some node
  | _ => none

def parents_at (name : ObjectName) : List ObjectName := ((commit_at read name).map Commit.parents).getD []

end Reading

section Walks

variable {corpus : Corpus} {machine : (command : Cmd) → World → command.Response × World} {world : World}
  {read : ObjectName → Except PyError LedgerObject}

theorem run_get_object (answering : Answering corpus machine world read) (name : ObjectName) :
    run machine (get_object name) world = (read name, world) := by
  rw [get_object, issue, run_bind_ok _ (run_ask machine _ _), answering.reads]
  exact run_ofExcept machine _ _

theorem run_commit? (answering : Answering corpus machine world read) (name : ObjectName) :
    run machine (GarbageCollector.commit? name) world = (.ok (commit_at read name), world) := by
  rw [GarbageCollector.commit?, tolerating, run_handling, run_bind, get_commit, run_bind, run_get_object answering,
    commit_at]
  cases found : read name with
  | error error => simp [answering.tolerable name error found]
  | ok object => cases object <;> simp [wrong_kind, PyError.is_ledger_error]

theorem run_children (answering : Answering corpus machine world read) (name : ObjectName) (role : Role) :
    (run machine (children name role) world).2 = world ∧
      ∀ error, (run machine (children name role) world).1 = .error error → error.is_ledger_error = true := by
  cases role with
  | chunk => exact ⟨rfl, fun _ impossible => by cases impossible⟩
  | tree =>
    rw [children, run_bind, get_tree, run_bind, run_get_object answering]
    cases found : read name with
    | error error =>
      exact ⟨rfl, fun _ raised => by cases raised; exact answering.tolerable name _ found⟩
    | ok object => cases object <;> exact ⟨rfl, fun _ raised => by cases raised <;> rfl⟩
  | blob =>
    rw [children, run_bind, get_blob, run_bind, run_get_object answering]
    cases found : read name with
    | error error =>
      exact ⟨rfl, fun _ raised => by cases raised; exact answering.tolerable name _ found⟩
    | ok object => cases object <;> exact ⟨rfl, fun _ raised => by cases raised <;> rfl⟩

theorem run_walk (answering : Answering corpus machine world read) {visits : Nat} {stack : List (ObjectName × Role)}
    {seen : Finset ObjectName} {found : List ObjectName} (enough : NAMES ≤ visits + seen.card) :
    (run machine (walk visits stack seen found) world).2 = world ∧
      ∀ error, (run machine (walk visits stack seen found) world).1 = .error error → error.is_ledger_error = true := by
  induction visits generalizing stack seen found with
  | zero =>
    rw [walk]
    split
    next => exact ⟨rfl, fun _ impossible => by cases impossible⟩
    next name role rest pending =>
      obtain ⟨fresh, -⟩ := remaining_fresh pending
      exact absurd (all_seen enough rfl name) fresh
  | succ visits ih =>
    rw [walk]
    split
    next => exact ⟨rfl, fun _ impossible => by cases impossible⟩
    next name role rest pending =>
      obtain ⟨fresh, -⟩ := remaining_fresh pending
      obtain ⟨still, tolerable⟩ := run_children answering name role
      rw [run_bind]
      rcases outcome : run machine (children name role) world with ⟨result, after⟩
      rw [outcome] at still tolerable
      obtain rfl : after = world := still
      cases result with
      | error error => exact ⟨rfl, fun _ raised => by cases raised; exact tolerable _ rfl⟩
      | ok below =>
        refine ih ?_
        rw [Finset.card_insert_of_notMem fresh]
        omega

/-- What a rebuild takes the closure of a tree to be: nothing, where it cannot be read. -/
def listing (machine : (command : Cmd) → World → command.Response × World) (world : World) (tree : ObjectName) :
    Finset ObjectName :=
  match (run machine (tree_closure tree) world).1 with
  | .ok names => names.toFinset
  | .error _ => ∅

theorem run_closure (answering : Answering corpus machine world read) (tree : ObjectName) :
    run machine (GarbageCollector.closure tree) world = (.ok (listing machine world tree), world) := by
  obtain ⟨still, tolerable⟩ := @run_walk _ _ _ _ answering NAMES [(tree, .tree)] ∅ [] (Nat.le_add_right _ _)
  rw [GarbageCollector.closure, tolerating, run_handling, run_bind, listing]
  rcases outcome : run machine (tree_closure tree) world with ⟨result, after⟩
  rw [tree_closure] at outcome
  rw [outcome] at still tolerable
  obtain rfl : after = world := still
  cases result with
  | ok names => rfl
  | error error => simp [tolerable error rfl]

/-! ## The walk of the history -/

/-- What a commit that is read contributes. -/
def contributes (machine : (command : Cmd) → World → command.Response × World) (world : World)
    (read : ObjectName → Except PyError LedgerObject) (commit : ObjectName) : Finset ObjectName :=
  match commit_at read commit with
  | some node => insert commit (listing machine world node.tree)
  | none => ∅

/-- What has been gathered is what the commits that have been walked contribute. -/
def Tallied (machine : (command : Cmd) → World → command.Response × World) (world : World)
    (read : ObjectName → Except PyError LedgerObject) (reach : GarbageCollector.Reach) : Prop :=
  reach.reachable = reach.visited.biUnion (contributes machine world read)

theorem run_walk_history (answering : Answering corpus machine world read) (remaining : Nat)
    (frontier : List ObjectName) {reach : GarbageCollector.Reach} (tallied : Tallied machine world read reach) :
    ∃ after, run machine (GarbageCollector.walk_history_from remaining frontier reach) world =
        (.ok ((Search.sweep (parents_at read) remaining frontier reach.visited).1, after), world) ∧
      after.visited = (Search.sweep (parents_at read) remaining frontier reach.visited).2 ∧
        Tallied machine world read after := by
  induction remaining generalizing frontier reach with
  | zero =>
    rw [GarbageCollector.walk_history_from, Search.sweep]
    cases frontier.dropWhile fun commit => commit ∈ reach.visited <;> exact ⟨reach, rfl, rfl, tallied⟩
  | succ remaining ih =>
    rw [GarbageCollector.walk_history_from, Search.sweep]
    cases frontier.dropWhile fun commit => commit ∈ reach.visited with
    | nil => exact ⟨reach, rfl, rfl, tallied⟩
    | cons commit rest =>
      dsimp only
      rw [run_bind_ok _ (run_commit? answering commit), parents_at]
      have tallied : reach.reachable = reach.visited.biUnion (contributes machine world read) := tallied
      cases found : commit_at read commit with
      | none =>
        refine @ih rest ⟨reach.reachable, insert commit reach.visited⟩ ?_
        rw [Tallied, Finset.biUnion_insert, ← tallied, contributes, found]
        exact (Finset.empty_union _).symm
      | some node =>
        simp only
        rw [run_bind_ok _ (run_closure answering node.tree)]
        refine @ih (node.parents.reverse ++ rest)
          ⟨insert commit reach.reachable ∪ listing machine world node.tree, insert commit reach.visited⟩ ?_
        rw [Tallied, Finset.biUnion_insert, ← tallied, contributes, found]
        simp only
        rw [Finset.insert_union, Finset.insert_union, Finset.union_comm]

/-- An ancestor of the root, or the root, along commits that are read. -/
def Descends (read : ObjectName → Except PyError LedgerObject) (root commit : ObjectName) : Prop :=
  Relation.ReflTransGen (fun child parent => parent ∈ parents_at read child) root commit

/-- The walk of each root comes to no more commits than a walk may, leaving out those that the walks of the roots
before it have come to. -/
def WithinWalks (read : ObjectName → Except PyError LedgerObject) : (earlier roots : List ObjectName) → Prop
  | _, [] => True
  | earlier, root :: roots =>
    (∃ fresh : Finset ObjectName, fresh.card ≤ MAX_HISTORY_WALK ∧
        ∀ commit, Descends read root commit → (∃ before ∈ earlier, Descends read before commit) ∨ commit ∈ fresh) ∧
      WithinWalks read (earlier ++ [root]) roots

/-- Once a walk has not finished, the rebuild is not complete, whatever comes of the others. -/
theorem run_incomplete (answering : Answering corpus machine world read) (roots : List ObjectName)
    {reach : GarbageCollector.Reach} (tallied : Tallied machine world read reach) :
    ∃ after, run machine (roots.foldlM GarbageCollector.walk_root (false, reach)) world = (.ok (false, after), world) ∧
      Tallied machine world read after := by
  induction roots generalizing reach with
  | nil => exact ⟨reach, rfl, tallied⟩
  | cons root roots ih =>
    obtain ⟨middle, walked, -, tallied⟩ := run_walk_history answering MAX_HISTORY_WALK [root] tallied
    rw [List.foldlM_cons, GarbageCollector.walk_root, GarbageCollector.walk_history, bind_assoc,
      run_bind_ok _ walked]
    exact ih tallied

theorem run_walk_roots (answering : Answering corpus machine world read) (earlier roots : List ObjectName)
    {reach : GarbageCollector.Reach} (tallied : Tallied machine world read reach)
    (walked : ∀ commit, commit ∈ reach.visited ↔ ∃ before ∈ earlier, Descends read before commit) :
    ∃ complete after, run machine (roots.foldlM GarbageCollector.walk_root (true, reach)) world =
        (.ok (complete, after), world) ∧ Tallied machine world read after ∧
      (complete = true ↔ WithinWalks read earlier roots) ∧
      (complete = true → ∀ commit, commit ∈ after.visited ↔ ∃ root ∈ earlier ++ roots, Descends read root commit) := by
  induction roots generalizing earlier reach with
  | nil =>
    refine ⟨true, reach, rfl, tallied, by simp [WithinWalks], fun _ commit => ?_⟩
    rw [walked, List.append_nil]
  | cons root roots ih =>
    obtain ⟨middle, history, visited, tallied'⟩ := run_walk_history answering MAX_HISTORY_WALK [root] tallied
    have followed : ∀ item ∈ reach.visited, ∀ next ∈ parents_at read item, next ∈ reach.visited ∨ next ∈ [root] := by
      intro item member next edge
      obtain ⟨before, there, path⟩ := (walked item).mp member
      exact .inl ((walked next).mpr ⟨before, there, path.tail edge⟩)
    have leads (goal : ObjectName) : Search.Leads (parents_at read) goal [root] ↔ Descends read root goal := by
      constructor
      next => rintro ⟨start, member, path⟩; exact List.mem_singleton.mp member ▸ path
      next => exact fun path => ⟨root, List.mem_singleton_self _, path⟩
    rw [List.foldlM_cons, GarbageCollector.walk_root, GarbageCollector.walk_history, bind_assoc, run_bind_ok _ history]
    rw [WithinWalks]
    cases finished : (Search.sweep (parents_at read) MAX_HISTORY_WALK [root] reach.visited).1 with
    | true =>
      obtain ⟨-, reached, few⟩ := Search.sweep_finished followed finished
      rw [← visited] at reached few
      obtain ⟨complete, after, rest, kept, within, spec⟩ := ih (earlier ++ [root]) tallied' fun commit => by
        rw [reached, walked, leads]
        simp [or_and_right, exists_or]
      refine ⟨complete, after, rest, kept, within.trans ⟨fun later => ⟨⟨middle.visited \ reach.visited, few, ?_⟩, later⟩, And.right⟩,
        fun done commit => ?_⟩
      next =>
        intro commit path
        by_cases old : commit ∈ reach.visited
        next => exact .inl ((walked commit).mp old)
        next => exact .inr (Finset.mem_sdiff.mpr ⟨(reached commit).mpr (.inr ((leads commit).mpr path)), old⟩)
      next => rw [spec done, List.append_assoc, List.singleton_append]
    | false =>
      obtain ⟨after, rest, kept⟩ := run_incomplete answering roots tallied'
      refine ⟨false, after, rest, kept, ?_, fun impossible => by cases impossible⟩
      refine ⟨fun impossible => (by cases impossible), fun ⟨⟨fresh, few, covers⟩, _⟩ => ?_⟩
      have done := @Search.sweep_finishes _ _ (parents_at read) [root] reach.visited fresh MAX_HISTORY_WALK
        (fun goal goes => (covers goal ((leads goal).mp goes)).imp_left (walked goal).mpr) followed
        ((Finset.card_le_card Finset.sdiff_subset).trans few)
      rw [finished] at done
      cases done

theorem withinWalks_append (earlier roots more : List ObjectName) :
    WithinWalks read earlier (roots ++ more) ↔ WithinWalks read earlier roots ∧ WithinWalks read (earlier ++ roots) more := by
  induction roots generalizing earlier with
  | nil => simp [WithinWalks]
  | cons root roots ih =>
    rw [List.cons_append, WithinWalks, WithinWalks, ih, and_assoc, List.append_assoc, List.singleton_append]

/-! ## The rebuild -/

/-- The refs, the ones first by name first. -/
def World.live_targets (world : World) (env : EnvId) : List ObjectName :=
  (world.partition env).refs.toList.map fun row => row.2.body.target

/-- The operation log, the newest entry first. -/
def World.log_entries (world : World) (env : EnvId) : List OpLogEntry :=
  ((world.partition env).ops.toList.map fun row => row.2.body).reverse

theorem query_targets (world : World) (env : EnvId) :
    (((world.partition env).query 1000 .refs).map Item.body).map Ref.target = (world.live_targets env).take 1000 := by
  simp [Partition.query, World.live_targets, List.map_take, Function.comp_def]

theorem query_entries (world : World) (env : EnvId) :
    ((world.partition env).query 10000 (.ops true)).map Item.body = (world.log_entries env).take 10000 := by
  simp [Partition.query, World.log_entries, List.map_take, List.map_reverse, Function.comp_def]

theorem mem_keepset_replace {env : EnvId} {names : Finset ObjectName} {name : ObjectName} :
    name ∈ (exec corpus (.keepset_replace env names) world).2.kept env ↔ name ∈ names := by
  simp [exec]

/-- The commits that so many refs and so many of the newest entries give a rebuild to start from. -/
def starting_points (config : GcConfig) (world : World) (env : EnvId) (refs entries : Nat) : List ObjectName :=
  (world.live_targets env).take refs ++
    GarbageCollector.op_roots (world.clock - config.op_log_retention_us) ((world.log_entries env).take entries)

/-- Those that the code starts from. -/
def considered (config : GcConfig) (world : World) (env : EnvId) : List ObjectName :=
  starting_points config world env 1000 10000

/-- What a rebuild that starts from them finds. -/
def Found (machine : (command : Cmd) → World → command.Response × World) (world : World)
    (read : ObjectName → Except PyError LedgerObject) (roots : List ObjectName) (name : ObjectName) : Prop :=
  ∃ root ∈ roots, ∃ commit, Descends read root commit ∧ name ∈ contributes machine world read commit

/-- Unless a walk is cut off, a rebuild leaves just what it finds in the keep-set. -/
theorem run_rebuild (answering : Answering corpus machine world read) {config : GcConfig} {env_name : EnvName}
    {env : EnvId} (registered : (world.names[env_name]?).map NameClaim.env_id = some env) :
    ∃ count after, run machine (GarbageCollector.rebuild_keep_set config env_name) world = (.ok count, after) ∧
      (¬ WithinWalks read [] (considered config world env) → after = world) ∧
      (WithinWalks read [] (considered config world env) →
        ∀ name, name ∈ after.kept env ↔ Found machine world read (considered config world env) name) := by
  obtain ⟨claim, claimed, rfl⟩ := Option.map_eq_some_iff.mp registered
  have asked {command : Cmd} (other : ¬ Reads command) :
      run machine (issue command) world = (.ok (exec corpus command world).1, (exec corpus command world).2) := by
    rw [issue, run_ask, answering.rest command other]
  have resolved : run machine (resolve_env_name env_name) world = (.ok claim.env_id, world) := by
    rw [resolve_env_name, run_bind_ok _ (asked (by rintro ⟨_, impossible⟩; cases impossible))]
    simp only [exec, claimed]
    rfl
  have listed : run machine (list_refs claim.env_id) world =
      (.ok (((world.partition claim.env_id).query 1000 .refs).map Item.body), world) := by
    rw [list_refs, run_bind_ok _ (asked (by rintro ⟨_, impossible⟩; cases impossible))]
    rfl
  have logged : run machine (list_ops claim.env_id 10000) world =
      (.ok (((world.partition claim.env_id).query 10000 (.ops true)).map Item.body), world) := by
    rw [list_ops, run_bind_ok _ (asked (by rintro ⟨_, impossible⟩; cases impossible))]
    rfl
  obtain ⟨live, middle, walked, tallied, within, commits⟩ := @run_walk_roots _ _ _ _ answering []
    ((world.live_targets claim.env_id).take 1000) ⟨∅, ∅⟩ rfl (fun commit => by simp)
  rw [GarbageCollector.rebuild_keep_set, run_bind_ok _ resolved, run_bind_ok _ listed, query_targets, run_bind_ok _ walked,
    run_bind_ok _ (asked (by rintro ⟨_, impossible⟩; cases impossible))]
  simp only [exec]
  rw [run_bind_ok _ logged, query_entries]
  have split := @withinWalks_append read [] ((world.live_targets claim.env_id).take 1000)
    (GarbageCollector.op_roots (world.clock - config.op_log_retention_us) ((world.log_entries claim.env_id).take 10000))
  have sized : run machine (issue (.keepset_size claim.env_id)) world =
      (.ok (exec corpus (.keepset_size claim.env_id) world).1, world) := asked (by rintro ⟨_, impossible⟩; cases impossible)
  cases live with
  | false =>
    obtain ⟨last, rest, -⟩ := run_incomplete answering (GarbageCollector.op_roots
      (world.clock - config.op_log_retention_us) ((world.log_entries claim.env_id).take 10000)) tallied
    have outside : ¬ WithinWalks read [] (considered config world claim.env_id) := fun inside =>
      absurd (within.mpr (split.mp inside).1) Bool.false_ne_true
    rw [run_bind_ok _ rest]
    exact ⟨_, _, sized, fun _ => rfl, fun inside => absurd inside outside⟩
  | true =>
    obtain ⟨complete, last, rest, tallied', within', commits'⟩ := run_walk_roots answering
      ((world.live_targets claim.env_id).take 1000) (GarbageCollector.op_roots
      (world.clock - config.op_log_retention_us) ((world.log_entries claim.env_id).take 10000)) tallied (commits rfl)
    rw [run_bind_ok _ rest]
    have whole : complete = true ↔ WithinWalks read [] (considered config world claim.env_id) :=
      within'.trans ((and_iff_right (within.mp rfl)).symm.trans split.symm)
    cases complete with
    | false =>
      have outside : ¬ WithinWalks read [] (considered config world claim.env_id) := fun inside =>
        absurd (whole.mpr inside) Bool.false_ne_true
      exact ⟨_, _, sized, fun _ => rfl, fun inside => absurd inside outside⟩
    | true =>
      have replaced : run machine (issue (.keepset_replace claim.env_id last.reachable)) world =
          (.ok (exec corpus (.keepset_replace claim.env_id last.reachable) world).1,
            (exec corpus (.keepset_replace claim.env_id last.reachable) world).2) :=
        asked (by rintro ⟨_, impossible⟩; cases impossible)
      refine ⟨_, _, replaced, fun outside => absurd (whole.mp rfl) outside, fun _ name => ?_⟩
      have gathered : last.reachable = last.visited.biUnion (contributes machine world read) := tallied'
      rw [mem_keepset_replace, gathered, Finset.mem_biUnion]
      constructor
      next =>
        rintro ⟨commit, visited, contributed⟩
        obtain ⟨root, member, path⟩ := (commits' rfl commit).mp visited
        exact ⟨root, member, commit, path, contributed⟩
      next =>
        rintro ⟨root, member, commit, path, contributed⟩
        exact ⟨commit, (commits' rfl commit).mpr ⟨root, member, path⟩, contributed⟩

end Walks

/-! ## Where everything needed can be read -/

section Exact

variable {corpus : Corpus} {world : World} {config : GcConfig} {env : EnvId} {roots : List ObjectName}

/-- What a stored object answers. -/
def stored_object (corpus : Corpus) (world : World) (name : ObjectName) : Except PyError LedgerObject :=
  (exec corpus (.backend_read name) world).1

theorem exec_answering : Answering corpus (exec corpus) world (stored_object corpus world) where
  reads _ := rfl
  rest _ _ := rfl
  tolerable name error := by
    rw [stored_object, exec]
    split
    next =>
      cases corpus.content name with
      | none => rintro ⟨⟩; rfl
      | some object => rintro ⟨⟩
    next => rintro ⟨⟩; rfl

theorem stored_object_ok {name : ObjectName} {object : LedgerObject} :
    stored_object corpus world name = .ok object ↔ name ∈ world.backend ∧ corpus.content name = some object := by
  rw [stored_object, exec]
  by_cases stored : name ∈ world.backend
  next => cases corpus.content name <;> simp [stored]
  next => simp [stored]

/-- The object can be read in the role. -/
def Legible (corpus : Corpus) (world : World) : ObjectName × Role → Prop
  | (name, .tree) => ∃ node, stored_object corpus world name = .ok (.tree node)
  | (name, .blob) => ∃ node, stored_object corpus world name = .ok (.blob node)
  | (name, .chunk) => ∃ node, stored_object corpus world name = .ok (.chunk node)

/-- Everything that the history of the roots reaches can be read: its commits, and what their trees reach. -/
def Needed (corpus : Corpus) (world : World) (roots : List ObjectName) : Prop :=
  ∀ root ∈ roots, ∀ commit, Descends (stored_object corpus world) root commit →
    ∃ node, stored_object corpus world commit = .ok (.commit node) ∧
      ∀ item, InTree corpus node.tree item → Legible corpus world item

/-- In the closure of an ancestor of a root, or of a root. -/
def Kept (corpus : Corpus) (world : World) (roots : List ObjectName) (name : ObjectName) : Prop :=
  ∃ root ∈ roots, ∃ commit, Descends (stored_object corpus world) root commit ∧ Closure corpus commit name

/-- An object that can be read has one kind. -/
theorem one_role {root : ObjectName} (legible : ∀ item, InTree corpus root item → Legible corpus world item) :
    OneRole corpus root := by
  intro name role role' first second
  have here := legible _ first
  have there := legible _ second
  cases role <;> cases role' <;> first
    | rfl
    | (obtain ⟨node, read⟩ := here
       obtain ⟨node', read'⟩ := there
       rw [read] at read'
       cases read')

theorem run_children_legible {item : ObjectName × Role} (legible : Legible corpus world item) :
    run (exec corpus) (children item.1 item.2) world = (.ok (references corpus item), world) := by
  obtain ⟨name, role⟩ := item
  cases role with
  | chunk => rfl
  | tree =>
    obtain ⟨node, read⟩ := legible
    rw [children, get_tree, bind_assoc, run_bind_ok _ ((run_get_object exec_answering name).trans (by rw [read])),
      references, (stored_object_ok.mp read).2]
    rfl
  | blob =>
    obtain ⟨node, read⟩ := legible
    rw [children, get_blob, bind_assoc, run_bind_ok _ ((run_get_object exec_answering name).trans (by rw [read])),
      references, (stored_object_ok.mp read).2]
    rfl

theorem run_walk_legible {G : ObjectName × Role → Prop}
    (closed : ∀ item below, G item → Refers corpus item below → G below)
    (legible : ∀ item, G item → Legible corpus world item) {visits : Nat} {stack : List (ObjectName × Role)}
    {seen : Finset ObjectName} {found : List ObjectName} (started : ∀ item ∈ stack, G item)
    (enough : NAMES ≤ visits + seen.card) :
    ∃ names, run (exec corpus) (walk visits stack seen found) world = (.ok names, world) := by
  induction visits generalizing stack seen found with
  | zero =>
    rw [walk]
    split
    next => exact ⟨found, rfl⟩
    next name role rest pending =>
      obtain ⟨fresh, -⟩ := remaining_fresh pending
      exact absurd (all_seen enough rfl name) fresh
  | succ visits ih =>
    rw [walk]
    split
    next => exact ⟨found, rfl⟩
    next name role rest pending =>
      obtain ⟨fresh, here, others⟩ := remaining_fresh pending
      rw [run_bind_ok _ (run_children_legible (legible _ (started _ here)))]
      refine ih (fun item member => ?_) ?_
      next =>
        rcases List.mem_append.mp member with child | later
        next => exact closed _ item (started _ here) (List.mem_reverse.mp child)
        next => exact started item (others item later)
      next =>
        rw [Finset.card_insert_of_notMem fresh]
        omega

/-- Where a tree can be read, its listing is its closure. -/
theorem listing_legible {tree : ObjectName} (legible : ∀ item, InTree corpus tree item → Legible corpus world item)
    (name : ObjectName) : name ∈ listing (exec corpus) world tree ↔ TreeClosure corpus tree name := by
  obtain ⟨names, ran⟩ := @run_walk_legible _ _ (InTree corpus tree) (fun _ _ inTree refers => inTree.tail refers) legible
    NAMES [(tree, .tree)] ∅ [] (fun item member => List.mem_singleton.mp member ▸ .refl) (Nat.le_add_right _ _)
  obtain ⟨⟨-, sound⟩, complete⟩ := (tree_closure_yields tree).run (fun command state => answered corpus command state) ran
  have run : run (exec corpus) (tree_closure tree) world = (.ok names, world) := ran
  rw [listing, run]
  exact List.mem_toFinset.trans ⟨sound name, complete (one_role legible) name⟩

theorem found_legible (needed : Needed corpus world roots) (name : ObjectName) :
    Found (exec corpus) world (stored_object corpus world) roots name ↔ Kept corpus world roots name := by
  refine exists_congr fun root => and_congr_right fun member => exists_congr fun commit => and_congr_right fun path => ?_
  obtain ⟨node, read, legible⟩ := needed root member commit path
  have content := (stored_object_ok.mp read).2
  rw [contributes, commit_at, read]
  simp only [Finset.mem_insert, listing_legible legible, Closure, content, Option.some.injEq, LedgerObject.commit.injEq,
    exists_eq_left']

/-- Every commit that a live ref points to, or an entry of the log that is still retained names. -/
def all_roots (config : GcConfig) (world : World) (env : EnvId) : List ObjectName :=
  world.live_targets env ++ GarbageCollector.op_roots (world.clock - config.op_log_retention_us) (world.log_entries env)

/-- Those that the code leaves out. -/
def omitted (config : GcConfig) (world : World) (env : EnvId) : List ObjectName :=
  (world.live_targets env).drop 1000 ++
    GarbageCollector.op_roots (world.clock - config.op_log_retention_us) ((world.log_entries env).drop 10000)

theorem mem_all_roots {root : ObjectName} :
    root ∈ all_roots config world env ↔ root ∈ considered config world env ∨ root ∈ omitted config world env := by
  have targets : root ∈ world.live_targets env ↔
      root ∈ (world.live_targets env).take 1000 ∨ root ∈ (world.live_targets env).drop 1000 := by
    rw [← List.mem_append, List.take_append_drop]
  have entries (horizon : Int) : GarbageCollector.op_roots horizon (world.log_entries env) =
      GarbageCollector.op_roots horizon ((world.log_entries env).take 10000) ++
        GarbageCollector.op_roots horizon ((world.log_entries env).drop 10000) := by
    rw [GarbageCollector.op_roots, GarbageCollector.op_roots, GarbageCollector.op_roots, ← List.flatMap_append,
      List.take_append_drop]
  simp only [all_roots, considered, starting_points, omitted, List.mem_append, entries, targets]
  tauto

/-- The history of each root fits in a walk. -/
def WithinBound (corpus : Corpus) (world : World) (roots : List ObjectName) : Prop :=
  ∀ root ∈ roots, ∃ history : Finset ObjectName, history.card ≤ MAX_HISTORY_WALK ∧
    ∀ commit, Descends (stored_object corpus world) root commit → commit ∈ history

theorem withinBound_walks (bounded : WithinBound corpus world roots) (earlier : List ObjectName) :
    WithinWalks (stored_object corpus world) earlier roots := by
  induction roots generalizing earlier with
  | nil => trivial
  | cons root roots ih =>
    obtain ⟨history, few, all⟩ := bounded root List.mem_cons_self
    exact ⟨⟨history, few, fun commit path => .inr (all commit path)⟩,
      ih (fun other member => bounded other (List.mem_cons_of_mem _ member)) _⟩

theorem rebuild_keeps {env_name : EnvName} (registered : (world.names[env_name]?).map NameClaim.env_id = some env)
    (needed : Needed corpus world (all_roots config world env))
    (bounded : WithinBound corpus world (all_roots config world env)) :
    ∃ count after, runs corpus (GarbageCollector.rebuild_keep_set config env_name) world = (.ok count, after) ∧
      ∀ name, name ∈ after.kept env ↔ Kept corpus world (considered config world env) name := by
  obtain ⟨count, after, ran, -, spec⟩ := @run_rebuild _ _ _ _ (@exec_answering corpus world) config _ _ registered
  have within : WithinWalks (stored_object corpus world) [] (considered config world env) :=
    withinBound_walks (fun root member => bounded root (mem_all_roots.mpr (.inl member))) []
  refine ⟨count, after, ran, fun name => (spec within name).trans (found_legible (fun root member => ?_) name)⟩
  exact needed root (mem_all_roots.mpr (.inl member))

end Exact

/-- Where all that is needed can be read and the history fits the walk: a rebuild leaves the closures of everything
that the live refs and the retained log reach exactly if what it omits reaches nothing that the rest does not. -/
theorem rebuild_exact (corpus : Corpus) (config : GcConfig) (world : World) (env_name : EnvName) (env : EnvId)
    (registered : (world.names[env_name]?).map NameClaim.env_id = some env)
    (needed : Needed corpus world (all_roots config world env))
    (bounded : WithinBound corpus world (all_roots config world env)) :
    (∃ count after, runs corpus (GarbageCollector.rebuild_keep_set config env_name) world = (.ok count, after) ∧
      ∀ name, name ∈ after.kept env ↔ Kept corpus world (all_roots config world env) name) ↔
      ∀ name, Kept corpus world (omitted config world env) name → Kept corpus world (considered config world env) name := by
  obtain ⟨count, after, ran, keeps⟩ := rebuild_keeps registered needed bounded
  have split (name : ObjectName) : Kept corpus world (all_roots config world env) name ↔
      Kept corpus world (considered config world env) name ∨ Kept corpus world (omitted config world env) name := by
    simp only [Kept, mem_all_roots, or_and_right, exists_or]
  constructor
  next =>
    rintro ⟨count', after', ran', exact⟩ name left_out
    rw [ran] at ran'
    cases ran'
    exact (keeps name).mp ((exact name).mpr ((split name).mpr (.inr left_out)))
  next =>
    intro covered
    refine ⟨count, after, ran, fun name => (keeps name).trans ⟨fun kept => (split name).mpr (.inl kept), fun kept => ?_⟩⟩
    exact ((split name).mp kept).elim id (covered name)

/-! ## An environment with many branches -/

def numbered (number : Nat) : ObjectName := ⟨Wire.toBE DIGEST_BYTES number, Wire.length_toBE _ _⟩

theorem numbered_injective {left right : Nat} (small : left < NAMES) (small' : right < NAMES)
    (same : numbered left = numbered right) : left = right := by
  have back (number : Nat) (bound : number < NAMES) : Wire.ofBE (numbered number).digest = number :=
    Wire.ofBE_toBE bound
  rw [← back left small, same, back right small']

/-- A first commit of the empty tree. -/
def firstCommit (name : ObjectName) : Commit where
  tree := numbered 0
  parents := []
  change_id := ⟨Text.lit "c"⟩
  author := Text.lit "a"
  committer := Text.lit "a"
  timestamp_us := Wire.ofBE name.digest
  message := []
  metadata := []

/-- The empty tree, and first commits under all other names. -/
def firstCommits : Corpus where
  content name := some (if name = numbered 0 then .tree ⟨0, []⟩ else .commit (firstCommit name))
  name_of _ := .error (.assertionError "not in play")
  length _ := 0
  occupied _ := 0
  named impossible := by cases impossible

def branch (number : Nat) : RefName × Item Ref :=
  let name : RefName := ⟨"refs/heads/" ++ Nat.repr number⟩
  (name, ⟨⟨name, numbered (number + 1), 1, .permanent, none, "a", 0⟩, 1, some 1, none⟩)

theorem firstCommits_content {name : ObjectName} (different : name ≠ numbered 0) :
    firstCommits.content name = some (.commit (firstCommit name)) :=
  congrArg some (if_neg different)

/-- So many branches, each at a commit of its own. -/
def branched (count : Nat) : World :=
  World.with_partition
    { World.empty 0 with
      backend := (Finset.range (count + 1)).image numbered
      names := (World.empty 0).names.insert ⟨"org/env"⟩ ⟨⟨"env"⟩, none⟩ }
    ⟨"env"⟩ { Partition.empty with refs := .ofList ((List.range count).map branch) }

section Branched

variable {count : Nat}

theorem branches_distinct : ((List.range count).map branch).Pairwise fun a b => ¬ compare a.1 b.1 = .eq := by
  rw [List.pairwise_map]
  refine List.nodup_range.imp fun {left right} different same => different ?_
  have names := congrArg RefName.value (Std.LawfulEqOrd.eq_of_compare same)
  exact Nat.repr_injective (String.append_right_inj _ |>.mp names)

theorem branched_refs : ((branched count).partition ⟨"env"⟩).refs = .ofList ((List.range count).map branch) := by
  rw [branched, partition_with_self]

theorem branched_length : ((branched count).live_targets ⟨"env"⟩).length = count := by
  rw [World.live_targets, List.length_map, branched_refs, Std.ExtTreeMap.length_toList,
    Std.ExtTreeMap.size_ofList branches_distinct, List.length_map, List.length_range]

theorem branched_targets {number : Nat} (below : number < count) :
    numbered (number + 1) ∈ (branched count).live_targets ⟨"env"⟩ := by
  rw [World.live_targets, branched_refs]
  refine List.mem_map.mpr ⟨branch number, ?_, rfl⟩
  rw [Std.ExtTreeMap.mem_toList_iff_getElem?_eq_some]
  exact Std.ExtTreeMap.getElem?_ofList_of_mem Std.ReflOrd.compare_self branches_distinct
    (List.mem_map_of_mem (List.mem_range.mpr below))

/-- Every commit has no parents, and every object is stored. -/
theorem branched_descends {root commit : ObjectName} (different : root ≠ numbered 0)
    (path : Descends (stored_object firstCommits (branched count)) root commit) : commit = root := by
  induction path with
  | refl => rfl
  | @tail middle last _ edge ih =>
    subst ih
    rw [parents_at, commit_at] at edge
    cases found : stored_object firstCommits (branched count) middle with
    | error error => rw [found] at edge; cases edge
    | ok object =>
      have content := (stored_object_ok.mp found).2
      rw [firstCommits_content different, Option.some.injEq] at content
      rw [found, ← content] at edge
      cases edge

theorem in_emptyTree {item : ObjectName × Role} (inTree : InTree firstCommits (numbered 0) item) :
    item = (numbered 0, .tree) := by
  induction inTree with
  | refl => rfl
  | tail _ refers ih =>
    subst ih
    simp [Refers, references, firstCommits, tree_children] at refers

theorem branched_kept {roots : List ObjectName} (different : ∀ root ∈ roots, root ≠ numbered 0) {name : ObjectName}
    (kept : Kept firstCommits (branched count) roots name) : name ∈ roots ∨ name = numbered 0 := by
  obtain ⟨root, member, commit, path, closure⟩ := kept
  obtain rfl := branched_descends (different root member) path
  rcases closure with rfl | ⟨node, content, below⟩
  next => exact .inl member
  next =>
    rw [firstCommits_content (different _ member), Option.some.injEq, LedgerObject.commit.injEq] at content
    subst content
    obtain ⟨role, inTree⟩ := below
    exact .inr (congrArg Prod.fst (in_emptyTree inTree))

theorem branched_log : (branched count).log_entries ⟨"env"⟩ = [] := by
  rw [World.log_entries, branched, partition_with_self]
  rfl

theorem target_branched {target : ObjectName} (member : target ∈ (branched count).live_targets ⟨"env"⟩) :
    ∃ number < count, target = numbered (number + 1) := by
  rw [World.live_targets, branched_refs] at member
  obtain ⟨⟨name, item⟩, listed, rfl⟩ := List.mem_map.mp member
  rw [Std.ExtTreeMap.mem_toList_iff_getElem?_eq_some] at listed
  have known : name ∈ Std.ExtTreeMap.ofList ((List.range count).map branch) compare := by
    rw [Std.ExtTreeMap.mem_iff_isSome_getElem?, listed]
    rfl
  rw [Std.ExtTreeMap.mem_ofList, List.contains_iff_mem, List.map_map] at known
  obtain ⟨number, below, rfl⟩ := List.mem_map.mp known
  have here := @Std.ExtTreeMap.getElem?_ofList_of_mem _ _ compare _ _ (branch number).1 _ Std.ReflOrd.compare_self
    (branch number).2 branches_distinct (List.mem_map_of_mem below)
  rw [Function.comp_apply, here, Option.some.injEq] at listed
  exact ⟨number, List.mem_range.mp below, by rw [← listed]; rfl⟩

variable {config : GcConfig}

theorem branched_roots : all_roots config (branched count) ⟨"env"⟩ = (branched count).live_targets ⟨"env"⟩ := by
  rw [all_roots, branched_log]
  exact List.append_nil _

theorem root_branched (small : count < NAMES) {root : ObjectName}
    (member : root ∈ all_roots config (branched count) ⟨"env"⟩) :
    root ≠ numbered 0 ∧ stored_object firstCommits (branched count) root = .ok (.commit (firstCommit root)) := by
  rw [branched_roots] at member
  obtain ⟨number, below, rfl⟩ := target_branched member
  have different : numbered (number + 1) ≠ numbered 0 := fun same => by
    have := numbered_injective (by omega) (by omega) same
    omega
  refine ⟨different, stored_object_ok.mpr ⟨?_, firstCommits_content different⟩⟩
  exact Finset.mem_image.mpr ⟨number + 1, Finset.mem_range.mpr (by omega), rfl⟩

theorem branched_needed (small : count < NAMES) :
    Needed firstCommits (branched count) (all_roots config (branched count) ⟨"env"⟩) := by
  intro root member commit path
  obtain ⟨different, stored⟩ := root_branched small member
  obtain rfl := branched_descends different path
  refine ⟨firstCommit commit, stored, fun item inTree => ?_⟩
  rw [in_emptyTree inTree]
  refine ⟨⟨0, []⟩, stored_object_ok.mpr ⟨Finset.mem_image.mpr ⟨0, Finset.mem_range.mpr (Nat.succ_pos _), rfl⟩, ?_⟩⟩
  exact congrArg some (if_pos rfl)

theorem branched_bounded (small : count < NAMES) :
    WithinBound firstCommits (branched count) (all_roots config (branched count) ⟨"env"⟩) := by
  intro root member
  obtain ⟨different, -⟩ := root_branched small member
  refine ⟨{root}, (Finset.card_singleton root).le.trans (by decide), fun commit path => ?_⟩
  exact Finset.mem_singleton.mpr (branched_descends different path)

theorem branched_registered : ((branched count).names[(⟨"org/env"⟩ : EnvName)]?).map NameClaim.env_id = some ⟨"env"⟩ := by
  have claimed : (branched count).names[(⟨"org/env"⟩ : EnvName)]? = some ⟨⟨"env"⟩, none⟩ :=
    Std.ExtTreeMap.getElem?_insert_self
  rw [claimed]
  rfl

end Branched

/-- Few branches, none of which is left out. -/
theorem rebuild_exact_branches :
    ∃ count after, runs firstCommits (GarbageCollector.rebuild_keep_set .default ⟨"org/env"⟩) (branched 3) = (.ok count, after) ∧
      ∀ name, name ∈ after.kept ⟨"env"⟩ ↔
        Kept firstCommits (branched 3) (all_roots .default (branched 3) ⟨"env"⟩) name := by
  have few : 3 < NAMES := by decide
  refine (rebuild_exact firstCommits .default (branched 3) ⟨"org/env"⟩ ⟨"env"⟩ branched_registered (branched_needed few)
    (branched_bounded few)).mpr fun name left_out => ?_
  have none : omitted .default (branched 3) ⟨"env"⟩ = [] := by
    rw [omitted, branched_log, List.drop_eq_nil_of_le (by rw [branched_length]; omega)]
    rfl
  rw [none] at left_out
  obtain ⟨root, impossible, -⟩ := left_out
  cases impossible

/-- Of a thousand and one branches at different commits, one is left out. -/
theorem branch_left_out :
    ∃ count after, runs firstCommits (GarbageCollector.rebuild_keep_set .default ⟨"org/env"⟩) (branched 1001) =
        (.ok count, after) ∧
      Needed firstCommits (branched 1001) (all_roots .default (branched 1001) ⟨"env"⟩) ∧
      WithinBound firstCommits (branched 1001) (all_roots .default (branched 1001) ⟨"env"⟩) ∧
      ∃ name, Kept firstCommits (branched 1001) (all_roots .default (branched 1001) ⟨"env"⟩) name ∧
        name ∉ after.kept ⟨"env"⟩ := by
  have many : 1001 < NAMES := by decide
  obtain ⟨count, after, ran, keeps⟩ := @rebuild_keeps firstCommits (branched 1001) .default ⟨"env"⟩ ⟨"org/env"⟩
    branched_registered (branched_needed many) (branched_bounded many)
  refine ⟨count, after, ran, branched_needed many, branched_bounded many, ?_⟩
  have within (root : ObjectName) (member : root ∈ considered .default (branched 1001) ⟨"env"⟩) :
      root ∈ (((branched 1001).live_targets ⟨"env"⟩).take 1000) := by
    rw [considered, starting_points, branched_log] at member
    simpa [GarbageCollector.op_roots] using member
  -- There are fewer roots than branches.
  obtain ⟨number, below, missing⟩ : ∃ number < 1001, numbered (number + 1) ∉ considered .default (branched 1001) ⟨"env"⟩ := by
    by_contra all
    push Not at all
    have inside : (Finset.range 1001).image (fun number => numbered (number + 1)) ⊆
        ((((branched 1001).live_targets ⟨"env"⟩).take 1000)).toFinset := by
      intro name member
      obtain ⟨number, below, rfl⟩ := Finset.mem_image.mp member
      exact List.mem_toFinset.mpr (within _ (all number (Finset.mem_range.mp below)))
    have counted := (Finset.card_le_card inside).trans (List.toFinset_card_le _)
    rw [Finset.card_image_of_injOn, Finset.card_range, List.length_take] at counted
    next => omega
    next =>
      intro left leftMember right rightMember same
      have leftBelow := Finset.mem_range.mp (Finset.mem_coe.mp leftMember)
      have rightBelow := Finset.mem_range.mp (Finset.mem_coe.mp rightMember)
      have equal := numbered_injective (by omega) (by omega) same
      omega
  have root : numbered (number + 1) ∈ all_roots .default (branched 1001) ⟨"env"⟩ := by
    rw [branched_roots]
    exact branched_targets below
  refine ⟨numbered (number + 1), ⟨_, root, _, .refl, .inl rfl⟩, fun kept => ?_⟩
  have different := fun root member => (@root_branched 1001 .default many root (mem_all_roots.mpr (.inl member))).1
  rcases branched_kept different ((keeps _).mp kept) with member | zero
  next => exact missing member
  next => exact (root_branched many root).1 zero

end LedgerVcs
