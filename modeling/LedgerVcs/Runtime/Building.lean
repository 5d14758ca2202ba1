import LedgerVcs.Format.Files
import LedgerVcs.Fs.Built
import LedgerVcs.Store.Effects

set_option autoImplicit false

/-! The builders, emitting into the store. -/

namespace LedgerVcs

open Prog (ofExcept)
open Wire (Bytes)

/-- Code that keeps a tally of what it puts. -/
abbrev Storing (σ : Type) := StateT σ Act

namespace Storing

variable {σ : Type} (corpus : Corpus) (tally : σ → PutOutcome → σ)

def put (object : LedgerObject) : Storing σ ObjectName := do
  let outcome ← (put_object corpus object : Act PutOutcome)
  modify fun so_far => tally so_far outcome
  return outcome.name

section Builders

variable (blake3 : Blake3)

def build_blob_nodes (level : Nat) (entries : List BlobEntry) : (start : Nat) → List Nat → Storing σ (List BlobEntry)
  | _, [] => return []
  | start, stop :: ends => do
    let run := (entries.drop start).take (stop - start)
    let name ← put corpus tally (.blob ⟨level, run⟩)
    let node : BlobEntry := ⟨name, (run.map BlobEntry.size).sum⟩
    let nodes ← build_blob_nodes level entries stop ends
    return node :: nodes

def build_blob_levels (params : ShapeParams) : (rounds : Nat) → (level : Nat) → List BlobEntry → Storing σ ObjectName
  | 0, _, _ => (ofExcept (.error (.assertionError "unreachable")) : Act ObjectName)
  | rounds + 1, level, entries => do
    let ends ← (ofExcept (partition blake3 (entries.map fun entry => entry.target.digest)
      (List.replicate entries.length BLOB_ENTRY_BYTES) level params) : Act (List Nat))
    let nodes ← build_blob_nodes corpus tally level entries 0 ends
    match nodes with
    | [node] => return node.target
    | _ => build_blob_levels params rounds (level + 1) nodes

def build_blob (chunks : List BlobEntry) (params : ShapeParams) : Storing σ ObjectName :=
  if chunks = [] then put corpus tally (.blob ⟨0, []⟩)
  else build_blob_levels corpus tally blake3 params (MAX_LEVEL + 2) 0 chunks

def build_tree_nodes (level : Nat) (current : List TreeEntry) : (start : Nat) → List Nat → Storing σ (List TreeEntry)
  | _, [] => return []
  | start, stop :: ends => do
    let run := (current.drop start).take (stop - start)
    let name ← put corpus tally (.tree ⟨level, run⟩)
    let node : TreeEntry := ⟨(run.getLast?.map TreeEntry.name).getD [], .tree, name, 0, 0⟩
    let nodes ← build_tree_nodes level current stop ends
    return node :: nodes

def build_tree_levels (params : ShapeParams) : (rounds : Nat) → (level : Nat) → List TreeEntry → Storing σ ObjectName
  | 0, _, _ => (ofExcept (.error (.assertionError "unreachable")) : Act ObjectName)
  | rounds + 1, level, current => do
    let ends ← (ofExcept (partition blake3 (current.map TreeEntry.name) (current.map tree_entry_bytes) level params) : Act (List Nat))
    let nodes ← build_tree_nodes corpus tally level current 0 ends
    match nodes with
    | [node] => return node.target
    | _ => build_tree_levels params rounds (level + 1) nodes

def build_tree (entries : List TreeEntry) (params : ShapeParams) : Storing σ ObjectName := do
  if entries = [] then put corpus tally (.tree ⟨0, []⟩)
  else
    (ofExcept (reject_unsorted entries) : Act Unit)
    build_tree_levels corpus tally blake3 params (MAX_LEVEL + 2) 0 entries

end Builders

end Storing

/-! ## What is put is stored -/

/-- Names are those that BLAKE3 gives to what is encoded. -/
structure Corpus.Spelled (corpus : Corpus) (blake3 : Blake3) : Prop where
  names : ∀ {object name}, corpus.name_of object = .ok name → ∃ framed, encode object = .ok framed ∧ name_of_encoded blake3 framed = name
  reads : ∀ {name object}, corpus.content name = some object → ∃ framed, decode framed = .ok object ∧ name_of_encoded blake3 framed = name

theorem Corpus.ofBytes_spelled {blake3 : Blake3} {play : List Bytes} {occupied : Bytes → Nat}
    {injective : ∀ left ∈ play, ∀ right ∈ play, name_of_encoded blake3 left = name_of_encoded blake3 right → left = right} :
    (Corpus.ofBytes blake3 play occupied injective).Spelled blake3 where
  names := by
    intro object name named
    simp only [Corpus.ofBytes, Monads.except_bind_ok, ensure_ok, pure, Except.pure, Except.ok.injEq] at named
    obtain ⟨framed, encoded, _, -, rfl⟩ := named
    exact ⟨framed, encoded, rfl⟩
  reads := by
    intro name object content
    obtain ⟨framed, found, read⟩ := Option.bind_eq_some_iff.mp content
    have same : name_of_encoded blake3 framed = name := by simpa using List.find?_some found
    cases decoded : decode framed with
    | error error => rw [decoded] at read; cases read
    | ok other =>
      rw [decoded] at read
      exact ⟨framed, decoded.trans (congrArg _ (Option.some.inj read)), same⟩

/-- Objects are only added, and the keep-sets stay as they are. -/
structure World.Grows (before after : World) : Prop where
  stored : before.backend ⊆ after.backend
  keepset : after.keepset = before.keepset

theorem World.Grows.refl (world : World) : world.Grows world := ⟨Finset.Subset.refl _, rfl⟩

theorem World.Grows.trans {first second third : World} (early : first.Grows second) (late : second.Grows third) :
    first.Grows third := ⟨early.stored.trans late.stored, late.keepset.trans early.keepset⟩

/-- The name is stored, and stands for what the bytes decode to. -/
def World.Stocks (corpus : Corpus) (world : World) (pair : ObjectName × Bytes) : Prop :=
  pair.1 ∈ world.backend ∧ ∃ object, decode pair.2 = .ok object ∧ corpus.content pair.1 = some object

section Putting

variable {corpus : Corpus} {blake3 : Blake3} {world after : World}

theorem World.Stocks.grow {pair : ObjectName × Bytes} (stocks : world.Stocks corpus pair) (grows : world.Grows after) :
    after.Stocks corpus pair := ⟨grows.stored stocks.1, stocks.2⟩

/-- What the store answers to reads, in this state. -/
def World.objects (spelled : corpus.Spelled blake3) (world : World) : Objects blake3 where
  get_object name := (exec corpus (.backend_read name) world).1
  verified {name object} read := by
    simp only [exec] at read
    split at read
    next =>
      cases content : corpus.content name with
      | none => rw [content] at read; cases read
      | some other =>
        rw [content] at read
        exact spelled.reads (content.trans (congrArg some (Except.ok.inj read)))
    next => cases read

theorem World.objects_stored {spelled : corpus.Spelled blake3} {name : ObjectName} {object : LedgerObject} :
    (world.objects spelled).get_object name = .ok object ↔ name ∈ world.backend ∧ corpus.content name = some object := by
  simp only [World.objects, exec]
  split_ifs with stored
  next => cases corpus.content name <;> simp [stored]
  next => simp [stored]

theorem World.stocks_holds (spelled : corpus.Spelled blake3) {emitted : List (ObjectName × Bytes)}
    (stocks : ∀ pair ∈ emitted, world.Stocks corpus pair) : (world.objects spelled).Holds emitted := by
  intro pair member
  obtain ⟨stored, object, decoded, content⟩ := stocks pair member
  rw [decoded, World.objects_stored]
  exact ⟨stored, content⟩

theorem runs_put_encoded (name : ObjectName) :
    ∃ outcome after, runs corpus (put_encoded corpus name) world = (.ok outcome, after) ∧ outcome.name = name ∧
      name ∈ after.backend ∧ world.Grows after := by
  by_cases stored : name ∈ world.backend
  next => exact ⟨_, _, runs_put_stored stored, rfl, stored, Finset.Subset.refl _, rfl⟩
  next => exact ⟨_, _, runs_put_new stored, rfl, Finset.mem_insert_self _ _, Finset.subset_insert _ _, rfl⟩

/-- What a put that returns has done. -/
theorem put_object_ran {object : LedgerObject} {outcome : PutOutcome}
    (returned : runs corpus (put_object corpus object) world = (.ok outcome, after)) :
    corpus.name_of object = .ok outcome.name ∧ outcome.name ∈ after.backend ∧ world.Grows after := by
  rw [put_object, runs, Prog.run_bind, Prog.run_ofExcept] at returned
  cases named : corpus.name_of object with
  | error error => rw [named] at returned; cases returned
  | ok name =>
    rw [named] at returned
    obtain ⟨outcome', after', puts, rfl, stored, grows⟩ := @runs_put_encoded corpus world name
    obtain ⟨same, rfl⟩ := Prod.mk.inj (puts.symm.trans returned)
    cases same
    exact ⟨rfl, stored, grows⟩

theorem name_of_stocks (spelled : corpus.Spelled blake3) {object : LedgerObject} (canonical : Canonical object) {name : ObjectName}
    (named : corpus.name_of object = .ok name) (stored : name ∈ world.backend) :
    ∃ framed, encode object = .ok framed ∧ name = name_of_encoded blake3 framed ∧ world.Stocks corpus (name, framed) := by
  obtain ⟨framed, encoded, spells⟩ := spelled.names named
  obtain ⟨fits, laid⟩ := encode_ok.mp encoded
  have content : corpus.content name = some object := (corpus.named named).trans (read_back_canonical encoded canonical)
  exact ⟨framed, encoded, spells.symm, stored, object, decode_ok.mpr ⟨fits, canonical, laid⟩, content⟩

end Putting

namespace Storing

section Runs

variable {σ α β : Type} {corpus : Corpus} {tally : σ → PutOutcome → σ} {blake3 : Blake3}

/-- The step returned. -/
def Returns (corpus : Corpus) (act : Storing σ α) (before : σ × World) (value : α) (after : σ × World) : Prop :=
  runs corpus (act before.1) before.2 = (.ok (value, after.1), after.2)

theorem returns_bind {act : Storing σ α} {rest : α → Storing σ β} {before after : σ × World} {value : β} :
    Returns corpus (act >>= rest) before value after ↔
      ∃ first middle, Returns corpus act before first middle ∧ Returns corpus (rest first) middle value after := by
  change runs corpus (act before.1 >>= fun pair => rest pair.1 pair.2) before.2 = _ ↔ _
  rw [runs, Prog.run_bind]
  constructor
  next =>
    intro returned
    cases ran : Prog.run (exec corpus) (act before.1) before.2 with
    | mk result middle =>
      rw [ran] at returned
      cases result with
      | error error => cases returned
      | ok pair => exact ⟨pair.1, (pair.2, middle), ran, returned⟩
  next =>
    rintro ⟨first, middle, ran, returned⟩
    rw [Returns, runs] at ran
    rw [ran]
    exact returned

theorem returns_pure {before after : σ × World} {value result : α} :
    Returns corpus (pure value : Storing σ α) before result after ↔ value = result ∧ before = after := by
  change (Except.ok (value, before.1), before.2) = (Except.ok (result, after.1), after.2) ↔ _
  simp [Prod.ext_iff, and_assoc]

theorem returns_lift {act : Act α} {before after : σ × World} {value : α} :
    Returns corpus (act : Storing σ α) before value after ↔ runs corpus act before.2 = (.ok value, after.2) ∧ before.1 = after.1 := by
  change runs corpus (act >>= fun value => pure (value, before.1)) before.2 = _ ↔ _
  rw [runs, runs, Prog.run_bind]
  generalize Prog.run (exec corpus) act before.2 = outcome
  obtain ⟨error | other, later⟩ := outcome
  next => simp
  next =>
    simp only [Prog.run_pure, Prod.mk.injEq, Except.ok.injEq]
    tauto

theorem returns_modify {f : σ → σ} {before after : σ × World} {done : PUnit} :
    Returns corpus (modify f : Storing σ PUnit) before done after ↔ after = (f before.1, before.2) := by
  change (Except.ok (PUnit.unit, f before.1), before.2) = (Except.ok (done, after.1), after.2) ↔ _
  simp only [Prod.ext_iff, Except.ok.injEq, true_and]
  exact ⟨fun same => ⟨same.1.symm, same.2.symm⟩, fun same => ⟨same.1.symm, same.2.symm⟩⟩

theorem put_returns {object : LedgerObject} {before after : σ × World} {name : ObjectName}
    (returned : Returns corpus (put corpus tally object) before name after) :
    corpus.name_of object = .ok name ∧ name ∈ after.2.backend ∧ before.2.Grows after.2 ∧
      ∃ outcome : PutOutcome, outcome.name = name ∧ after.1 = tally before.1 outcome := by
  obtain ⟨outcome, middle, puts, rest⟩ := returns_bind.mp returned
  obtain ⟨done, last, tallied, rest⟩ := returns_bind.mp rest
  obtain ⟨puts, same⟩ := returns_lift.mp puts
  obtain ⟨rfl, rfl⟩ := returns_pure.mp rest
  obtain rfl := returns_modify.mp tallied
  obtain ⟨named, stored, grows⟩ := put_object_ran puts
  exact ⟨named, stored, grows, outcome, rfl, congrArg (fun so_far => tally so_far outcome) same.symm⟩

/-- When it returns, the builder has put what it would have emitted. -/
def Emits (corpus : Corpus) (tally : σ → PutOutcome → σ) (act : Storing σ α) (emitting : Emitting α) : Prop :=
  ∀ before value after, Returns corpus act before value after →
    ∃ (added : List (ObjectName × Bytes)) (outcomes : List PutOutcome),
      (∀ emitted, emitting emitted = .ok (value, emitted ++ added)) ∧ outcomes.map PutOutcome.name = added.map Prod.fst ∧
        after.1 = outcomes.foldl tally before.1 ∧ before.2.Grows after.2 ∧ ∀ pair ∈ added, after.2.Stocks corpus pair

theorem emits_bind {act : Storing σ α} {emitting : Emitting α} {rest : α → Storing σ β} {emitted : α → Emitting β}
    (first : Emits corpus tally act emitting) (others : ∀ value, Emits corpus tally (rest value) (emitted value)) :
    Emits corpus tally (act >>= rest) (emitting >>= emitted) := by
  intro before value after returned
  obtain ⟨given, middle, early, late⟩ := returns_bind.mp returned
  obtain ⟨added, outcomes, emits, named, tallied, grows, stocks⟩ := first _ _ _ early
  obtain ⟨added', outcomes', emits', named', tallied', grows', stocks'⟩ := others given _ _ _ late
  refine ⟨added ++ added', outcomes ++ outcomes', fun emitted => ?_, by simp [named, named'], ?_, grows.trans grows', fun pair member => ?_⟩
  next => exact Monads.bind_ok.mpr ⟨given, _, emits emitted, by rw [emits', List.append_assoc]⟩
  next => rw [List.foldl_append, ← tallied, tallied']
  next =>
    rcases List.mem_append.mp member with there | here
    next => exact (stocks pair there).grow grows'
    next => exact stocks' pair here

theorem emits_pure (value : α) : Emits corpus tally (pure value) (pure value) := by
  intro before result after returned
  obtain ⟨rfl, rfl⟩ := returns_pure.mp returned
  refine ⟨[], [], fun emitted => ?_, rfl, rfl, .refl _, fun _ impossible => by cases impossible⟩
  rw [List.append_nil]
  rfl

theorem emits_lift (result : Except PyError α) :
    Emits corpus tally (liftM (ofExcept result : Act α) : Storing σ α) (liftM result) := by
  intro before value after returned
  obtain ⟨ran, same⟩ := returns_lift.mp returned
  rw [runs, Prog.run_ofExcept] at ran
  obtain ⟨rfl, world⟩ := Prod.mk.inj ran
  refine ⟨[], [], fun emitted => ?_, rfl, same.symm, world ▸ .refl _, fun _ impossible => by cases impossible⟩
  rw [List.append_nil]
  rfl

theorem emits_put (spelled : corpus.Spelled blake3) {object : LedgerObject} (canonical : Canonical object) :
    Emits corpus tally (put corpus tally object) (emit_node blake3 object) := by
  intro before name after returned
  obtain ⟨named, stored, grows, outcome, same, tallied⟩ := put_returns returned
  obtain ⟨framed, encoded, rfl, stocked⟩ := name_of_stocks spelled canonical named stored
  refine ⟨[(name_of_encoded blake3 framed, framed)], [outcome], fun emitted => ?_, by simp [same], tallied, grows, ?_⟩
  next => exact (emit_node_ok blake3).mpr ⟨framed, encoded, rfl, rfl⟩
  next =>
    intro pair member
    rw [List.mem_singleton.mp member]
    exact stocked

/-! ### The builders -/

theorem build_blob_nodes_emits (spelled : corpus.Spelled blake3) (level : Nat) (entries : List BlobEntry) (start : Nat) (ends : List Nat) :
    Emits corpus tally (build_blob_nodes corpus tally level entries start ends) (LedgerVcs.build_blob_nodes blake3 level entries start ends) := by
  induction ends generalizing start with
  | nil => exact emits_pure []
  | cons stop ends ih => exact emits_bind (emits_put spelled trivial) fun _ => emits_bind (ih stop) fun _ => emits_pure _

theorem build_blob_levels_emits (spelled : corpus.Spelled blake3) (params : ShapeParams) (rounds level : Nat) (entries : List BlobEntry) :
    Emits corpus tally (build_blob_levels corpus tally blake3 params rounds level entries)
      (LedgerVcs.build_blob_levels blake3 params rounds level entries) := by
  induction rounds generalizing level entries with
  | zero =>
    intro before value after returned
    obtain ⟨ran, -⟩ := returns_lift.mp returned
    cases ran
  | succ rounds ih =>
    refine emits_bind (emits_lift _) fun ends => emits_bind (build_blob_nodes_emits spelled level entries 0 ends) fun nodes => ?_
    rcases nodes with _ | ⟨node, _ | ⟨other, nodes⟩⟩
    next => exact ih _ _
    next => exact emits_pure _
    next => exact ih _ _

theorem build_blob_emits (spelled : corpus.Spelled blake3) (chunks : List BlobEntry) (params : ShapeParams) :
    Emits corpus tally (build_blob corpus tally blake3 chunks params) (LedgerVcs.build_blob blake3 chunks params) := by
  rw [build_blob, LedgerVcs.build_blob]
  split
  next => exact emits_put spelled trivial
  next => exact build_blob_levels_emits spelled params _ _ _

theorem build_tree_nodes_emits (spelled : corpus.Spelled blake3) (level : Nat) (current : List TreeEntry) (start : Nat) (ends : List Nat) :
    Emits corpus tally (build_tree_nodes corpus tally level current start ends) (LedgerVcs.build_tree_nodes blake3 level current start ends) := by
  induction ends generalizing start with
  | nil => exact emits_pure []
  | cons stop ends ih => exact emits_bind (emits_put spelled trivial) fun _ => emits_bind (ih stop) fun _ => emits_pure _

theorem build_tree_levels_emits (spelled : corpus.Spelled blake3) (params : ShapeParams) (rounds level : Nat) (current : List TreeEntry) :
    Emits corpus tally (build_tree_levels corpus tally blake3 params rounds level current)
      (LedgerVcs.build_tree_levels blake3 params rounds level current) := by
  induction rounds generalizing level current with
  | zero =>
    intro before value after returned
    obtain ⟨ran, -⟩ := returns_lift.mp returned
    cases ran
  | succ rounds ih =>
    refine emits_bind (emits_lift _) fun ends => emits_bind (build_tree_nodes_emits spelled level current 0 ends) fun nodes => ?_
    rcases nodes with _ | ⟨node, _ | ⟨other, nodes⟩⟩
    next => exact ih _ _
    next => exact emits_pure _
    next => exact ih _ _

theorem build_tree_emits (spelled : corpus.Spelled blake3) (entries : List TreeEntry) (params : ShapeParams) :
    Emits corpus tally (build_tree corpus tally blake3 entries params) (LedgerVcs.build_tree blake3 entries params) := by
  rw [build_tree, LedgerVcs.build_tree]
  split
  next => exact emits_put spelled trivial
  next => exact emits_bind (emits_lift _) fun _ => build_tree_levels_emits spelled params _ _ _

end Runs

end Storing

end LedgerVcs
