import LedgerVcs.Lib.Sweeping
import LedgerVcs.Meta.Names

set_option autoImplicit false

namespace LedgerVcs

/-! ## Claims without a record -/

/-- The claim's record is there, and carries the name. -/
def World.backs (world : World) (row : EnvName × NameClaim) : Bool :=
  (world.partition row.2.env_id).env.map (fun found => found.body.name) = some row.1

/-- Live claims that sort before the name. -/
def World.live_before (world : World) (name : EnvName) : List (EnvName × NameClaim) :=
  world.names.toList.filter fun row => compare row.1 name = .lt ∧ world.backs row

/-- The state after so many sweeps, nothing else going on. -/
def sweeps (corpus : Corpus) (limit : Nat) : Nat → World → World
  | 0, world => world
  | count + 1, world => sweeps corpus limit count (runs corpus (sweep_orphan_name_claims limit) world).2

/-! ## One sweep -/

section Sweep

variable {corpus : Corpus} {limit : Nat} {world : World}

/-- What a sweep does about one of the claims that it was told. -/
def sweep_row (reclaimed : Nat) (item : EnvName × NameClaim) : Act Nat := do
  let record ← issue (.meta_get item.2.env_id .env)
  if (record.map fun found => found.body.name) = some item.1 then return reclaimed
  else
    let _ ← issue (.delete_global item.1)
    return reclaimed + 1

theorem sweep_row_backed {row : EnvName × NameClaim} (backed : world.backs row) (start : Nat) :
    runs corpus (sweep_row start row) world = (.ok start, world) := by
  have named : ((world.partition row.2.env_id).env.map fun found => found.body.name) = some row.1 :=
    of_decide_eq_true backed
  have read : runs corpus (issue (.meta_get row.2.env_id .env)) world =
      (.ok (world.partition row.2.env_id).env, world) := rfl
  rw [sweep_row, runs, Prog.run_bind_ok _ read, if_pos named]
  rfl

theorem sweep_row_orphan {row : EnvName × NameClaim} (orphan : ¬ world.backs row) (start : Nat) :
    runs corpus (sweep_row start row) world =
      (.ok (start + 1), { world with names := world.names.erase row.1 }) := by
  have unnamed : ¬ ((world.partition row.2.env_id).env.map fun found => found.body.name) = some row.1 :=
    fun named => orphan (decide_eq_true named)
  have read : runs corpus (issue (.meta_get row.2.env_id .env)) world =
      (.ok (world.partition row.2.env_id).env, world) := rfl
  rw [sweep_row, runs, Prog.run_bind_ok _ read, if_neg unnamed]
  rfl

/-- The claims of the rows that no record backs go, and the rest of the state stays. -/
theorem sweep_rows_runs (rows : List (EnvName × NameClaim)) (start : Nat) :
    ∃ reclaimed names, runs corpus (rows.foldlM sweep_row start) world = (.ok reclaimed, { world with names }) ∧
      ∀ name : EnvName, names[name]? =
        (world.names[name]?).filter fun _ => rows.all fun row => row.1 ≠ name || world.backs row := by
  induction rows generalizing world start with
  | nil => exact ⟨start, world.names, rfl, fun name => by cases world.names[name]? <;> rfl⟩
  | cons row rows ih =>
    rw [List.foldlM_cons]
    by_cases backed : world.backs row
    next =>
      obtain ⟨reclaimed, names, done, left⟩ := @ih world start
      refine ⟨reclaimed, names, ?_, fun name => ?_⟩
      next => rw [runs, Prog.run_bind_ok _ (sweep_row_backed backed start)]; exact done
      next => rw [left]; simp [backed]
    next =>
      obtain ⟨reclaimed, names, done, left⟩ := @ih { world with names := world.names.erase row.1 } (start + 1)
      refine ⟨reclaimed, names, ?_, fun name => (left name).trans ?_⟩
      next => rw [runs, Prog.run_bind_ok _ (sweep_row_orphan backed start)]; exact done
      next =>
        have records (other : EnvName × NameClaim) :
            World.backs { world with names := world.names.erase row.1 } other = world.backs other := rfl
        simp only [records, List.all_cons, Std.ExtTreeMap.getElem?_erase, Std.LawfulEqOrd.compare_eq_iff_eq]
        by_cases same : row.1 = name <;> simp [same, backed]

/-- A sweep is a round over the claims in name order. -/
theorem sweep_runs (corpus : Corpus) (limit : Nat) (world : World) :
    ∃ reclaimed names, runs corpus (sweep_orphan_name_claims limit) world = (.ok reclaimed, { world with names }) ∧
      names.toList = Sweeping.round world.backs limit world.names.toList := by
  have page : (world.names.toList.filter fun row => "".toList.isPrefixOf row.1.value.toList).take limit =
      world.names.toList.take limit := by simp
  have scanned : runs corpus (issue (.scan_global "" limit)) world = (.ok (world.names.toList.take limit), world) := by
    rw [← page]; rfl
  obtain ⟨reclaimed, names, done, left⟩ := @sweep_rows_runs corpus world (world.names.toList.take limit) 0
  refine ⟨reclaimed, names, ?_, ?_⟩
  next =>
    rw [sweep_orphan_name_claims, runs, Prog.run_bind_ok _ scanned]
    exact done
  next =>
    have same : names = world.names.filter fun name claim =>
        world.backs (name, claim) || (name, claim) ∉ world.names.toList.take limit := by
      refine Std.ExtTreeMap.ext_getElem? fun name => ?_
      rw [left, Std.ExtTreeMap.getElem?_filter']
      cases found : world.names[name]? with
      | none => simp
      | some claim =>
        have only (row : EnvName × NameClaim) (looked : row ∈ world.names.toList.take limit) (here : row.1 = name) :
            row = (name, claim) := by
          have there := Std.ExtTreeMap.mem_toList_iff_getElem?_eq_some.mp (List.mem_of_mem_take looked)
          rw [here, found] at there
          exact Prod.ext here (Option.some.inj there.symm)
        have spared : ((world.names.toList.take limit).all fun row => row.1 ≠ name || world.backs row) =
            (world.backs (name, claim) || (name, claim) ∉ world.names.toList.take limit) := by
          rw [Bool.eq_iff_iff]
          simp only [List.all_eq_true, Bool.or_eq_true, decide_eq_true_eq]
          constructor
          next =>
            intro spared
            by_cases looked : (name, claim) ∈ world.names.toList.take limit
            next => exact .inl ((spared _ looked).resolve_left fun other => other rfl)
            next => exact .inr looked
          next =>
            intro spared row looked
            by_cases here : row.1 = name
            next =>
              obtain rfl := only row looked here
              exact .inr (spared.resolve_right fun unseen => unseen looked)
            next => exact .inl here
        simp only [spared, Option.filter_some]
    rw [same, Std.ExtTreeMap.toList_filter, Sweeping.round]
    conv_lhs => rw [← List.take_append_drop limit world.names.toList]
    rw [List.filter_append]
    have distinct : (world.names.toList.take limit ++ world.names.toList.drop limit).Nodup := by
      rw [List.take_append_drop]
      exact (Std.ExtTreeMap.ordered_keys_toList.imp fun {left right} behind same => by
        rw [same, Std.ReflOrd.compare_self] at behind
        cases behind)
    congr 1
    next =>
      refine List.filter_congr fun row looked => ?_
      simp [looked]
    next =>
      refine List.filter_eq_self.mpr fun row later => ?_
      have unseen : row ∉ world.names.toList.take limit := fun looked =>
        (List.nodup_append.mp distinct).2.2 row looked row later rfl
      simp [unseen]

end Sweep

/-! ## Sweeping again and again -/

section Sweeps

variable {corpus : Corpus} {limit : Nat} {world : World}

theorem sweeps_rounds (count : Nat) :
    ∃ names, sweeps corpus limit count world = { world with names } ∧
      names.toList = Sweeping.rounds world.backs limit count world.names.toList := by
  induction count generalizing world with
  | zero => exact ⟨world.names, rfl, rfl⟩
  | succ count ih =>
    obtain ⟨reclaimed, names, done, swept⟩ := sweep_runs corpus limit world
    obtain ⟨names', same, later⟩ := @ih { world with names }
    refine ⟨names', ?_, ?_⟩
    next => rw [sweeps, done]; exact same
    next =>
      have records : World.backs { world with names } = world.backs := rfl
      rw [later, records, swept]
      rfl

/-- Every claim that is left is backed. -/
def World.Swept (world : World) : Prop :=
  ∀ name claim, world.names[name]? = some claim → world.backs (name, claim)

theorem sweeps_swept :
    (∃ count, (sweeps corpus limit count world).Swept) ↔ ¬ Sweeping.Blocked world.backs limit world.names.toList := by
  rw [← Sweeping.rounds_clear]
  refine exists_congr fun count => ?_
  obtain ⟨names, same, left⟩ := @sweeps_rounds corpus limit world count
  rw [same, ← left]
  constructor
  next =>
    intro swept row member
    exact swept row.1 row.2 (Std.ExtTreeMap.mem_toList_iff_getElem?_eq_some.mp member)
  next =>
    intro backed name claim found
    exact backed (name, claim) (Std.ExtTreeMap.mem_toList_iff_getElem?_eq_some.mpr found)

theorem sweeps_safe {name : EnvName} {claim : NameClaim} (found : world.names[name]? = some claim)
    (backed : world.backs (name, claim)) (count : Nat) :
    (sweeps corpus limit count world).names[name]? = some claim := by
  obtain ⟨names, same, left⟩ := @sweeps_rounds corpus limit world count
  rw [same]
  refine Std.ExtTreeMap.mem_toList_iff_getElem?_eq_some.mp ?_
  rw [left]
  exact Sweeping.mem_rounds (Std.ExtTreeMap.mem_toList_iff_getElem?_eq_some.mpr found) backed count

theorem live_before_split {before after : List (EnvName × NameClaim)} {row : EnvName × NameClaim}
    (split : world.names.toList = before ++ row :: after) : world.live_before row.1 = before.filter world.backs := by
  have ordered : (before ++ row :: after).Pairwise fun left right => compare left.1 right.1 = .lt :=
    split ▸ Std.ExtTreeMap.ordered_keys_toList
  obtain ⟨-, later, across⟩ := List.pairwise_append.mp ordered
  rw [World.live_before, split, List.filter_append]
  have first : (before.filter fun other => compare other.1 row.1 = .lt ∧ world.backs other) = before.filter world.backs :=
    List.filter_congr fun other member => by simp [across other member row List.mem_cons_self]
  have rest : ((row :: after).filter fun other => compare other.1 row.1 = .lt ∧ world.backs other) = [] := by
    rw [List.filter_eq_nil_iff]
    intro other member
    rcases List.mem_cons.mp member with rfl | behind
    next => simp
    next =>
      have above := (List.pairwise_cons.mp later).1 other behind
      simp [Std.OrientedCmp.gt_of_lt above]
  rw [first, rest, List.append_nil]

theorem blocked_iff :
    Sweeping.Blocked world.backs limit world.names.toList ↔
      ∃ name claim, world.names[name]? = some claim ∧ ¬ world.backs (name, claim) ∧
        limit ≤ (world.live_before name).length := by
  constructor
  next =>
    rintro ⟨before, row, after, split, orphan, crowded⟩
    refine ⟨row.1, row.2, Std.ExtTreeMap.mem_toList_iff_getElem?_eq_some.mp (split ▸ by simp), by simp [orphan], ?_⟩
    rw [live_before_split split]
    exact crowded
  next =>
    rintro ⟨name, claim, found, orphan, crowded⟩
    obtain ⟨before, after, split⟩ :=
      List.append_of_mem (Std.ExtTreeMap.mem_toList_iff_getElem?_eq_some.mpr found)
    refine ⟨before, (name, claim), after, split, by simpa using orphan, ?_⟩
    rw [← live_before_split split]
    exact crowded

/-- Enough sweeps remove every orphaned claim, and none ever removes a live one, exactly if no orphaned claim has
as many live ones before it as a sweep looks at. -/
theorem sweep_exact (corpus : Corpus) (limit : Nat) (world : World) :
    ((∃ count, (sweeps corpus limit count world).Swept) ∧
      ∀ count name claim, world.names[name]? = some claim → world.backs (name, claim) →
        (sweeps corpus limit count world).names[name]? = some claim) ↔
      ∀ name claim, world.names[name]? = some claim → ¬ world.backs (name, claim) →
        (world.live_before name).length < limit := by
  rw [sweeps_swept, blocked_iff]
  constructor
  next =>
    rintro ⟨clear, -⟩ name claim found orphan
    by_contra crowded
    exact clear ⟨name, claim, found, orphan, Nat.le_of_not_lt crowded⟩
  next =>
    intro room
    refine ⟨?_, fun count name claim found backed => sweeps_safe found backed count⟩
    rintro ⟨name, claim, found, orphan, crowded⟩
    have bound := room name claim found orphan
    omega

end Sweeps

/-- A live environment's name, and after it a claim that a creation left behind. -/
def leftBehind : World :=
  let record : Environment :=
    { env_id := ⟨"env_1"⟩, name := ⟨"org/a"⟩, default_ref := DEFAULT_REF, state := .active, owner := "o", labels := [],
      forked_from_env := none, forked_from_commit := none, created_at_us := 0 }
  { (World.empty 0).with_partition ⟨"env_1"⟩ { Partition.empty with env := some ⟨record, 1, none, none⟩ } with
    names := ((World.empty 0).names.insert ⟨"org/a"⟩ ⟨⟨"env_1"⟩, none⟩).insert ⟨"org/b"⟩ ⟨⟨"env_2"⟩, none⟩ }

/-- With a limit of one, no number of sweeps gets past the live name. -/
theorem sweeps_stuck : ¬ ∃ count, (sweeps .none 1 count leftBehind).Swept := by
  rw [sweeps_swept, not_not, blocked_iff]
  exact ⟨⟨"org/b"⟩, ⟨⟨"env_2"⟩, none⟩, by decide, by decide, by decide⟩

end LedgerVcs
