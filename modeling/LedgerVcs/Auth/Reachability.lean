import LedgerVcs.Lib.Machine
import LedgerVcs.Lib.Search
import LedgerVcs.Meta.Log
import LedgerVcs.Store.Effects

set_option autoImplicit false

namespace LedgerVcs

open Prog

/-- How far back a commit may sit from a live ref. -/
def MAX_ANCESTRY_WALK : Nat := 10000

/-- How many answers one process keeps. -/
def MAX_MEMOIZED_ANSWERS : Nat := 100000

namespace ReachabilityChecker

/-- The keys of `_yes`, the least recently used first. -/
abbrev Memo := List (EnvId × ObjectName)

/-- The key moves to the end. -/
def touch (memo : Memo) (key : EnvId × ObjectName) : Memo := memo.erase key ++ [key]

def remember (memo : Memo) (env : EnvId) (commit : ObjectName) : Memo :=
  (touch memo (env, commit)).drop ((touch memo (env, commit)).length - MAX_MEMOIZED_ANSWERS)

/-- The parents of a commit, or none where the store does not hold it. -/
def parents (current : ObjectName) : Act (List ObjectName) :=
  tolerating (do let commit ← get_commit current; return commit.parents) []

/-- The loop of `reaches`, with the visits it may still make. The top of the frontier is its head. -/
def walk (env : EnvId) (commit : ObjectName) (visits : Nat) (frontier : List ObjectName) (seen : Finset ObjectName)
    (memo : Memo) : Act (Bool × Memo) :=
  match frontier.dropWhile fun item => item ∈ seen with
  | [] => return (false, memo)
  | current :: rest =>
    match visits with
    | 0 => return (false, memo)
    | visits + 1 =>
      if current = commit then return (true, remember memo env current)
      else do
        let below ← parents current
        walk env commit visits (below.reverse ++ rest) (insert current seen) (remember memo env current)

def reaches (memo : Memo) (env : EnvId) (commit : ObjectName) : Act (Bool × Memo) := do
  if (env, commit) ∈ memo then return (true, touch memo (env, commit))
  else
    let refs ← list_refs env
    let frontier := refs.map Ref.target
    if commit ∈ frontier then return (true, remember memo env commit)
    else walk env commit MAX_ANCESTRY_WALK frontier.reverse ∅ memo

end ReachabilityChecker

/-! ## What reaching means -/

/-- The parents a stored commit records. -/
def parents_of (corpus : Corpus) (world : World) (name : ObjectName) : List ObjectName :=
  if name ∈ world.backend then
    match corpus.content name with
    | some (.commit commit) => commit.parents
    | _ => []
  else []

/-- The target of a live ref. -/
def Targeted (env : EnvId) (world : World) (target : ObjectName) : Prop :=
  ∃ (name : RefName) (item : Item Ref), (world.partition env).refs[name]? = some item ∧ item.body.target = target

/-- An ancestor of a live ref's target, or that target itself. -/
def Reachable (corpus : Corpus) (env : EnvId) (world : World) (commit : ObjectName) : Prop :=
  ∃ target, Targeted env world target ∧
    Relation.ReflTransGen (fun child parent => parent ∈ parents_of corpus world child) target commit

/-- All there is to walk fits in the bound on the walk. -/
def WithinWalk (corpus : Corpus) (env : EnvId) (world : World) : Prop :=
  ∃ history : Finset ObjectName, (∀ commit, Reachable corpus env world commit → commit ∈ history) ∧
    history.card ≤ MAX_ANCESTRY_WALK

/-! ## One query -/

namespace ReachabilityChecker

section Query

variable {corpus : Corpus} {env : EnvId} {world : World} {commit : ObjectName} {memo : Memo}

theorem runs_parents (current : ObjectName) :
    runs corpus (parents current) world = (.ok (parents_of corpus world current), world) := by
  rw [parents, tolerating, runs, run_handling, run_bind, get_commit, run_bind, get_object, run_bind]
  simp only [issue, run_ask, exec, run_ofExcept, parents_of]
  by_cases stored : current ∈ world.backend
  next =>
    cases content : corpus.content current with
    | none => simp [stored, PyError.is_ledger_error]
    | some object =>
      cases object with
      | commit node => simp [stored]
      | _ => simp [stored, wrong_kind, PyError.is_ledger_error]
  next => simp [stored, PyError.is_ledger_error]

/-- The loop is a search of the stored history. -/
theorem runs_walk (visits : Nat) (frontier : List ObjectName) (seen : Finset ObjectName) :
    runs corpus (walk env commit visits frontier seen memo) world =
      (.ok (Search.find (parents_of corpus world) (fun memo current => remember memo env current) commit visits
        frontier seen memo), world) := by
  induction visits generalizing frontier seen memo with
  | zero =>
    rw [walk, Search.find]
    cases frontier.dropWhile fun item => item ∈ seen <;> rfl
  | succ visits ih =>
    rw [walk, Search.find]
    cases frontier.dropWhile fun item => item ∈ seen with
    | nil => rfl
    | cons current rest =>
      by_cases found : current = commit
      next => simp only [if_pos found]; rfl
      next =>
        simp only [if_neg found]
        rw [runs, run_bind_ok _ (runs_parents current)]
        exact ih _ _

theorem mem_remember {other : EnvId × ObjectName} (member : other ∈ remember memo env commit) :
    other ∈ memo ∨ other = (env, commit) := by
  have touched := List.mem_of_mem_drop member
  rcases List.mem_append.mp touched with old | new
  next => exact .inl (List.mem_of_mem_erase old)
  next => exact .inr (List.mem_singleton.mp new)

/-- Everything remembered for the environment is a part of it. -/
def Sound (corpus : Corpus) (env : EnvId) (world : World) (memo : Memo) : Prop :=
  ∀ commit, (env, commit) ∈ memo → Reachable corpus env world commit

theorem listed_targets (few : (world.partition env).refs.size ≤ 1000) :
    ∃ refs, runs corpus (list_refs env) world = (.ok refs, world) ∧
      ∀ target, target ∈ refs.map Ref.target ↔ Targeted env world target := by
  refine ⟨((world.partition env).query 1000 .refs).map Item.body, rfl, fun target => ?_⟩
  have whole : (world.partition env).query 1000 .refs = (world.partition env).refs.toList.map Prod.snd := by
    refine List.take_of_length_le ?_
    rwa [List.length_map, Std.ExtTreeMap.length_toList]
  rw [whole]
  simp only [List.map_map, List.mem_map, Prod.exists, Std.ExtTreeMap.mem_toList_iff_getElem?_eq_some, Targeted,
    Function.comp_apply]

/-- The answer to a query, by the memo or by the walk, and what is remembered after it. -/
theorem runs_reaches (sound : Sound corpus env world memo) (bounded : WithinWalk corpus env world)
    (few : (env, commit) ∉ memo → (world.partition env).refs.size ≤ 1000) :
    ∃ answer after, runs corpus (reaches memo env commit) world = (.ok (answer, after), world) ∧
      (answer = true ↔ Reachable corpus env world commit) ∧ Sound corpus env world after := by
  by_cases known : (env, commit) ∈ memo
  next =>
    refine ⟨true, touch memo (env, commit), by rw [reaches, if_pos known]; rfl, by simp [sound commit known], ?_⟩
    intro other member
    rcases List.mem_append.mp member with old | new
    next => exact sound other (List.mem_of_mem_erase old)
    next => exact (Prod.mk.inj (List.mem_singleton.mp new)).2 ▸ sound commit known
  next =>
    obtain ⟨refs, listed, targets⟩ := @listed_targets corpus env world (few known)
    rw [reaches, if_neg known]
    have remembers (so_far : Memo) (current : ObjectName) (part : Reachable corpus env world current)
        (before : Sound corpus env world so_far) : Sound corpus env world (remember so_far env current) := by
      intro other member
      rcases mem_remember member with old | new
      next => exact before other old
      next => exact (Prod.mk.inj new).2 ▸ part
    by_cases direct : commit ∈ refs.map Ref.target
    next =>
      have part : Reachable corpus env world commit := ⟨commit, (targets commit).mp direct, .refl⟩
      refine ⟨true, remember memo env commit, ?_, by simp [part], remembers memo commit part sound⟩
      rw [runs, run_bind_ok _ listed, if_pos direct]
      rfl
    next =>
      let found := Search.find (parents_of corpus world) (fun memo current => remember memo env current) commit
        MAX_ANCESTRY_WALK (refs.map Ref.target).reverse ∅ memo
      have starting (item : ObjectName) (waiting : item ∈ (refs.map Ref.target).reverse) : Targeted env world item :=
        (targets item).mp (List.mem_reverse.mp waiting)
      have onward (item : ObjectName) (part : Reachable corpus env world item) (next : ObjectName)
          (edge : next ∈ parents_of corpus world item) : Reachable corpus env world next := by
        obtain ⟨target, live, path⟩ := part
        exact ⟨target, live, path.tail edge⟩
      have answers : found.1 = true ↔ Search.Leads (parents_of corpus world) commit (refs.map Ref.target).reverse := by
        classical
        obtain ⟨history, all, bound⟩ := bounded
        have parts (item : ObjectName) (part : Reachable corpus env world item) :
            item ∈ history.filter (Reachable corpus env world) := Finset.mem_filter.mpr ⟨all item part, part⟩
        refine Search.find_iff (fun item member next edge => parts next (onward item (Finset.mem_filter.mp member).2 next edge))
          (fun item waiting => parts item ⟨item, starting item waiting, .refl⟩) (Finset.empty_subset _)
          (Finset.notMem_empty _) (fun _ impossible => absurd impossible (Finset.notMem_empty _)) ?_
        rw [Finset.card_empty]
        exact (Finset.card_filter_le _ _).trans bound
      refine ⟨found.1, found.2, ?_, answers.trans ⟨?_, ?_⟩, ?_⟩
      next =>
        rw [runs, run_bind_ok _ listed]
        simp only [if_neg direct]
        exact runs_walk MAX_ANCESTRY_WALK (refs.map Ref.target).reverse ∅
      next =>
        rintro ⟨start, waiting, path⟩
        exact ⟨start, starting start waiting, path⟩
      next =>
        rintro ⟨target, live, path⟩
        exact ⟨target, List.mem_reverse.mpr ((targets target).mpr live), path⟩
      next =>
        exact Search.find_notes onward (fun item waiting => ⟨item, starting item waiting, .refl⟩) remembers sound

end Query

end ReachabilityChecker

/-! ## Queries between changes -/

/-- A process: the store it works on, and the answers it keeps. -/
structure Checker where
  world : World
  memo : ReachabilityChecker.Memo

inductive Turn
  | mutate (request : RefCall)
  | write (object : LedgerObject)
  | query (commit : ObjectName)

section Run

variable (corpus : Corpus) (env : EnvId)

def Checker.step (state : Checker) : Turn → Checker
  | .mutate request => { state with world := (runs corpus (request.code env) state.world).2 }
  | .write object => { state with world := (runs corpus (put_object corpus object) state.world).2 }
  | .query commit =>
    match runs corpus (ReachabilityChecker.reaches state.memo env commit) state.world with
    | (.ok (_, memo), world) => ⟨world, memo⟩
    | (.error _, world) => ⟨world, state.memo⟩

/-- A query is answered by whether the commit is an ancestor of a live target, or one itself. -/
def Right (state : Checker) : Turn → Prop
  | .query commit => ∃ answer memo,
      runs corpus (ReachabilityChecker.reaches state.memo env commit) state.world = (.ok (answer, memo), state.world) ∧
        (answer = true ↔ Reachable corpus env state.world commit)
  | _ => True

/-- A query finds the history within the walk's bound. -/
def Bounded (state : Checker) : Turn → Prop
  | .query _ => WithinWalk corpus env state.world
  | _ => True

/-- A mutation leaves every remembered commit on some ref, and a commit that is not remembered is asked for
only while one listing holds all refs. -/
def Retains (state : Checker) : Turn → Prop
  | .mutate request => ∀ commit, (env, commit) ∈ state.memo → Reachable corpus env state.world commit →
      Reachable corpus env (runs corpus (request.code env) state.world).2 commit
  | .write _ => True
  | .query commit => (env, commit) ∉ state.memo → (state.world.partition env).refs.size ≤ 1000

end Run

section Steps

variable {corpus : Corpus} {env : EnvId}

theorem reachable_more {before after : World} {commit : ObjectName} (refs : after.partitions = before.partitions)
    (stored : before.backend ⊆ after.backend) (part : Reachable corpus env before commit) :
    Reachable corpus env after commit := by
  obtain ⟨target, live, path⟩ := part
  refine ⟨target, ?_, Relation.ReflTransGen.mono (fun child parent edge => ?_) _ _ path⟩
  next =>
    rw [Targeted, World.partition, refs]
    exact live
  next =>
    rw [parents_of] at edge ⊢
    split at edge
    next here => rwa [if_pos (stored here)]
    next => cases edge

theorem runs_put_object (object : LedgerObject) (world : World) :
    (runs corpus (put_object corpus object) world).2.partitions = world.partitions ∧
      world.backend ⊆ (runs corpus (put_object corpus object) world).2.backend := by
  rw [put_object, runs, run_bind, run_ofExcept]
  cases corpus.name_of object with
  | error error => exact ⟨rfl, Finset.Subset.refl _⟩
  | ok name =>
    change (runs corpus (put_encoded corpus name) world).2.partitions = _ ∧
      world.backend ⊆ (runs corpus (put_encoded corpus name) world).2.backend
    by_cases stored : name ∈ world.backend
    next => rw [runs_put_stored stored]; exact ⟨rfl, Finset.Subset.refl _⟩
    next => rw [runs_put_new stored]; exact ⟨rfl, Finset.subset_insert _ _⟩

/-- One turn is right, and keeps what is remembered sound. -/
theorem turn_right {state : Checker} {turn : Turn}
    (sound : ReachabilityChecker.Sound corpus env state.world state.memo) (bounded : Bounded corpus env state turn)
    (retains : Retains corpus env state turn) :
    Right corpus env state turn ∧ ReachabilityChecker.Sound corpus env (state.step corpus env turn).world
      (state.step corpus env turn).memo := by
  cases turn with
  | mutate request => exact ⟨trivial, fun commit member => retains commit member (sound commit member)⟩
  | write object =>
    obtain ⟨refs, stored⟩ := @runs_put_object corpus object state.world
    exact ⟨trivial, fun commit member => reachable_more refs stored (sound commit member)⟩
  | query commit =>
    obtain ⟨answer, memo, returns, right, after⟩ := ReachabilityChecker.runs_reaches sound bounded retains
    refine ⟨⟨answer, memo, returns, right⟩, ?_⟩
    rw [Checker.step, returns]
    exact after

end Steps

/-- In every sequence of changes and queries whose changes leave each remembered commit on some ref and whose
walks list all refs, every answer is current. -/
theorem reaches_current (corpus : Corpus) (env : EnvId) (turns : List Turn) (world : World)
    (bounded : Machine.Along (Checker.step corpus env) (Bounded corpus env) turns ⟨world, []⟩)
    (retains : Machine.Along (Checker.step corpus env) (Retains corpus env) turns ⟨world, []⟩) :
    Machine.Along (Checker.step corpus env) (Right corpus env) turns ⟨world, []⟩ := by
  suffices every : ∀ state : Checker, ReachabilityChecker.Sound corpus env state.world state.memo →
      Machine.Along (Checker.step corpus env) (Bounded corpus env) turns state →
      Machine.Along (Checker.step corpus env) (Retains corpus env) turns state →
      Machine.Along (Checker.step corpus env) (Right corpus env) turns state by
    exact every ⟨world, []⟩ (fun _ impossible => by cases impossible) bounded retains
  clear bounded retains
  induction turns with
  | nil => exact fun _ _ _ _ => trivial
  | cons turn turns ih =>
    intro state sound bounded retains
    obtain ⟨right, after⟩ := turn_right sound bounded.1 retains.1
    exact ⟨right, ih _ after bounded.2 retains.2⟩

/-! ## A ref deleted after it was asked about -/

def asked : ObjectName := ⟨List.replicate 32 1, ones_sized⟩

def creation : Turn := .mutate (.create DEFAULT_REF asked "a" .permanent none none none none)

def deletion : Turn := .mutate (.delete DEFAULT_REF 1 "a" none)

/-- Nothing stored has parents here, so only targets are reachable. -/
theorem reachable_targets {world : World} {commit : ObjectName} (part : Reachable .none ⟨"env"⟩ world commit) :
    Targeted ⟨"env"⟩ world commit := by
  obtain ⟨target, live, path⟩ := part
  have still : target = commit := by
    induction path with
    | refl => rfl
    | tail _ edge ih =>
      rw [parents_of] at edge
      split at edge <;> cases edge
  exact still ▸ live

/-- The query right after the creation. -/
theorem reaches_current_created :
    Machine.Along (Checker.step .none ⟨"env"⟩) (Right .none ⟨"env"⟩) [creation, .query asked] ⟨newEnv, []⟩ := by
  have listed : (((Checker.step .none ⟨"env"⟩ ⟨newEnv, []⟩ creation).world.partition ⟨"env"⟩).refs.toList.map
      fun row => row.2.body.target) = [asked] := by decide
  refine reaches_current .none ⟨"env"⟩ [creation, .query asked] newEnv ⟨trivial, ⟨{asked}, fun commit part => ?_, ?_⟩, trivial⟩
    ⟨fun _ impossible => absurd impossible List.not_mem_nil, fun _ => ?_, trivial⟩
  next =>
    obtain ⟨name, item, found, rfl⟩ := reachable_targets part
    have row := Std.ExtTreeMap.mem_toList_iff_getElem?_eq_some.mpr found
    have member := List.mem_map_of_mem (f := fun row : RefName × Item Ref => row.2.body.target) row
    rw [listed] at member
    exact Finset.mem_singleton.mpr (List.mem_singleton.mp member)
  next => rw [Finset.card_singleton, MAX_ANCESTRY_WALK]; omega
  next =>
    rw [← Std.ExtTreeMap.length_toList, ← List.length_map (f := fun row : RefName × Item Ref => row.2.body.target), listed,
      List.length_singleton]
    omega

/-- After a creation, a query and a deletion. -/
def deletedAfterQuery : Checker :=
  Machine.run (Checker.step .none ⟨"env"⟩) [creation, .query asked, deletion] ⟨newEnv, []⟩

/-- No ref is left, and the commit is still said to be a part of the environment. -/
theorem answer_outlives_ref :
    (deletedAfterQuery.world.partition ⟨"env"⟩).refs.toList = [] ∧
      (((runs .none (ReachabilityChecker.reaches deletedAfterQuery.memo ⟨"env"⟩ asked) deletedAfterQuery.world).1).toOption.map
        Prod.fst) = some true ∧ ¬ Right .none ⟨"env"⟩ deletedAfterQuery (.query asked) := by
  have empty : (deletedAfterQuery.world.partition ⟨"env"⟩).refs.toList = [] := by decide
  have answered : (((runs .none (ReachabilityChecker.reaches deletedAfterQuery.memo ⟨"env"⟩ asked)
      deletedAfterQuery.world).1).toOption.map Prod.fst) = some true := by decide
  refine ⟨empty, answered, ?_⟩
  rintro ⟨answer, memo, returns, right⟩
  rw [returns] at answered
  obtain ⟨target, ⟨name, item, found, -⟩, -⟩ := right.mp (Option.some.inj answered)
  have listed := Std.ExtTreeMap.mem_toList_iff_getElem?_eq_some.mpr found
  rw [empty] at listed
  cases listed

end LedgerVcs
