import LedgerVcs.Store.Cas

set_option autoImplicit false

/-! What the store's operations do to a state nobody else is touching. -/

namespace LedgerVcs

variable {corpus : Corpus} {world : World}

/-! ## Writing -/

/-- The state after writing an object that was not there. -/
def World.written (corpus : Corpus) (world : World) (name : ObjectName) : World :=
  { world with
    backend := insert name world.backend
    tombstones := world.tombstones.erase name
    catalog := world.catalog.insertIfNew name
      ⟨corpus.occupied name, (corpus.content name).map LedgerObject.kind, world.clock⟩ }

theorem runs_put_stored {name : ObjectName} (stored : name ∈ world.backend) :
    runs corpus (put_encoded corpus name) world =
      (.ok ⟨name, false, corpus.length name, 0⟩, { world with tombstones := world.tombstones.erase name }) := by
  simp only [runs, put_encoded, issue, Prog.ask_bind, Prog.run_call, exec, stored, decide_true, if_true]
  rfl

theorem runs_put_new {name : ObjectName} (fresh : name ∉ world.backend) :
    runs corpus (put_encoded corpus name) world =
      (.ok ⟨name, true, corpus.length name, corpus.occupied name⟩, world.written corpus name) := by
  simp only [runs, put_encoded, issue, Prog.ask_bind, Prog.run_call, exec, fresh, decide_false,
    Bool.false_eq_true, if_false]
  rfl

/-! ## The existence predicate -/

theorem runs_exists_many (names : List ObjectName) :
    runs corpus (exists_many names) world = (.ok (names.toFinset ∩ world.backend), world) := by
  induction names with
  | nil => rfl
  | cons name names ih =>
    have opened : runs corpus (exists_many (name :: names)) world =
        runs corpus (exists_many names >>= fun others =>
          pure (if decide (name ∈ world.backend) = true then insert name others else others)) world := rfl
    rw [opened, runs, Prog.run_bind_ok _ ih, List.toFinset_cons]
    by_cases stored : name ∈ world.backend
    next => simp [stored, Finset.insert_inter_of_mem stored]
    next => simp [stored, Finset.insert_inter_of_notMem stored]

/-- `missing(n) ⟺ not stored(n) or tombstoned(n)` -/
theorem runs_missing (names : List ObjectName) :
    ∃ reported, runs corpus (missing names) world = (.ok reported, world) ∧
      ∀ name, name ∈ reported ↔ name ∈ names ∧ (name ∉ world.backend ∨ name ∈ world.tombstones) := by
  rw [missing]
  by_cases none : names = []
  next =>
    rw [if_pos none, none]
    exact ⟨∅, rfl, by simp⟩
  next =>
    rw [if_neg none]
    refine ⟨_, Prog.run_bind_ok _ (runs_exists_many _), fun name => ?_⟩
    simp only [exec, Finset.mem_union, Finset.mem_sdiff, List.mem_toFinset, mem_fromkeys, Finset.mem_inter,
      Finset.mem_filter]
    tauto

/-! ## One call for each of several names -/

def World.tombstoned (world : World) (names : List ObjectName) (expires_at_us : Int) : World :=
  { world with
    tombstones := names.foldl (fun rows name => rows.insertIfNew name expires_at_us) world.tombstones }

def World.deleted (world : World) (names : List ObjectName) : World :=
  { world with
    backend := world.backend \ names.toFinset
    catalog := names.foldl (fun rows name => rows.erase name) world.catalog }

theorem runs_each_tombstone (names : List ObjectName) (expires_at_us : Int) (world : World) :
    ∃ values, runs corpus (each names fun name => issue (.tombstone_record name expires_at_us)) world =
      (.ok values, world.tombstoned names expires_at_us) := by
  obtain ⟨values, returns⟩ := @Prog.run_mapM _ _ _ _ _ (exec corpus) _
    (fun name => issue (.tombstone_record name expires_at_us)) (fun _ _ => ⟨_, rfl⟩) names world
  refine ⟨values, returns.trans (congrArg (Prod.mk _) ?_)⟩
  clear returns
  induction names generalizing world with
  | nil => rfl
  | cons name names ih => exact ih _

theorem runs_each_backend_delete (names : List ObjectName) (world : World) :
    ∃ values, runs corpus (each names fun name => issue (.backend_delete name)) world =
      (.ok values, { world with backend := world.backend \ names.toFinset }) := by
  obtain ⟨values, returns⟩ := @Prog.run_mapM _ _ _ _ _ (exec corpus) _
    (fun name => issue (.backend_delete name)) (fun _ _ => ⟨_, rfl⟩) names world
  refine ⟨values, returns.trans (congrArg (Prod.mk _) ?_)⟩
  clear returns
  induction names generalizing world with
  | nil => simp
  | cons name names ih =>
    refine (ih _).trans ?_
    change { world with backend := world.backend.erase name \ names.toFinset } = _
    rw [List.toFinset_cons, Finset.sdiff_insert, Finset.erase_sdiff_comm]

theorem runs_each_catalog_forget (names : List ObjectName) (world : World) :
    ∃ values, runs corpus (each names fun name => issue (.catalog_forget name)) world =
      (.ok values, { world with catalog := names.foldl (fun rows name => rows.erase name) world.catalog }) := by
  obtain ⟨values, returns⟩ := @Prog.run_mapM _ _ _ _ _ (exec corpus) _
    (fun name => issue (.catalog_forget name)) (fun _ _ => ⟨_, rfl⟩) names world
  refine ⟨values, returns.trans (congrArg (Prod.mk _) ?_)⟩
  clear returns
  induction names generalizing world with
  | nil => rfl
  | cons name names ih => exact ih _

theorem runs_delete (names : List ObjectName) (world : World) :
    ∃ removed, runs corpus (delete names) world = (.ok removed, world.deleted names) := by
  obtain ⟨_, deleted⟩ := @runs_each_backend_delete corpus names world
  obtain ⟨_, forgotten⟩ := @runs_each_catalog_forget corpus names
    { world with backend := world.backend \ names.toFinset }
  rw [delete, runs, Prog.run_bind_ok _ deleted, Prog.run_bind_ok _ forgotten]
  exact ⟨_, rfl⟩

theorem mem_tombstoned {names : List ObjectName} {expires_at_us : Int} {name : ObjectName} :
    name ∈ (world.tombstoned names expires_at_us).tombstones ↔ name ∈ names ∨ name ∈ world.tombstones := by
  rw [World.tombstoned]
  generalize world.tombstones = rows
  induction names generalizing rows with
  | nil => simp
  | cons first names ih =>
    simp only [List.foldl_cons] at ih ⊢
    rw [ih, Std.ExtTreeMap.mem_insertIfNew, List.mem_cons, Std.LawfulEqOrd.compare_eq_iff_eq]
    tauto

end LedgerVcs
