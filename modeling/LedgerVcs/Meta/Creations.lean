import LedgerVcs.Meta.Alone
import LedgerVcs.Meta.Names

set_option autoImplicit false

/-! Creations of environments that stop on their way. -/

namespace LedgerVcs

open Prog (run_bind_ok)

/-- No environment is recorded under the id yet. -/
def World.Unused (world : World) (pk : EnvId) : Prop :=
  (world.partition pk).env = none ∧ (world.partition pk).seq = none

/-- The record that a creation writes. -/
def created_env (drawn : EnvId) (name : EnvName) (owner : String) (default_ref : RefName)
    (labels : List (String × String)) (now : Int) : Environment :=
  { env_id := drawn, name, default_ref, state := .active, owner, labels, forked_from_env := none,
    forked_from_commit := none, created_at_us := now }

def World.with_claim (world : World) (name : EnvName) (claim : NameClaim) : World :=
  { world with names := world.names.insertIfNew name claim }

/-- The partition that a creation leaves. -/
def Partition.started (partition : Partition) (record : Environment) : Partition :=
  { partition with env := some ⟨record, 1, none, none⟩, seq := some ⟨1, 1, none, none⟩ }

section Alone

variable {corpus : Corpus} {world : World} {drawn : EnvId} {name : EnvName} {owner : String} {default_ref : RefName}
  {labels : List (String × String)} {key : Option String}

theorem with_claim_held {claim other : NameClaim} (held : world.names[name]? = some other) :
    world.with_claim name claim = world := by
  have same : world.names.insertIfNew name claim = world.names := by
    refine Std.ExtTreeMap.ext_getElem? fun sought => ?_
    rw [Std.ExtTreeMap.getElem?_insertIfNew, if_neg]
    rintro ⟨-, absent⟩
    exact absent (Std.ExtTreeMap.mem_iff_isSome_getElem?.mpr (by rw [held]; rfl))
  rw [World.with_claim, same]

theorem with_claim_free {claim : NameClaim} (free : world.names[name]? = none) :
    (world.with_claim name claim).names[name]? = some claim := by
  have absent : name ∉ world.names := fun there => by
    rw [Std.ExtTreeMap.mem_iff_isSome_getElem?, free] at there
    cases there
  rw [World.with_claim, Std.ExtTreeMap.getElem?_insertIfNew, if_pos ⟨Std.ReflOrd.compare_self, absent⟩]

theorem started_transacts (record : Environment) (unused : world.Unused drawn) :
    (world.partition drawn).transact_write
      [.put .env record (some .absent) none none, .put .seq 1 (some .absent) none none] =
        .ok ((world.partition drawn).started record) := by
  obtain ⟨env, seq⟩ := unused
  refine transact_ok.mpr ⟨_, apply_put.mpr ⟨require_absent.mpr env, rfl⟩, transact_ok.mpr ⟨_, apply_put.mpr ⟨require_absent.mpr seq, rfl⟩, ?_⟩⟩
  simp [Partition.put, Partition.get, Partition.started, next_version, env, seq]

theorem runs_get_env (env : EnvId) :
    runs corpus (get_env env) world =
      match (world.partition env).env with
      | some item => (.ok item.body, world)
      | none => (.error (.notFound "environment does not exist"), world) := by
  have issued : runs corpus (issue (.meta_get env .env)) world = (.ok (world.partition env).env, world) := rfl
  rw [get_env, runs, run_bind_ok _ issued]
  cases (world.partition env).env <;> rfl

theorem runs_create_taken {text : String} {claim : NameClaim} (held : world.names[name]? = some claim) :
    runs corpus (create_env drawn name owner default_ref labels (some text)) world =
      if claim.idempotency_key = some text then
        match (world.partition claim.env_id).env with
        | some item => (.ok item.body, world)
        | none => (.error (.notFound "environment does not exist"), world)
      else (.error (.conflict "environment name is already taken" none), world) := by
  have clock : runs corpus (issue .now_us) world = (.ok world.clock, world) := rfl
  have refused : runs corpus (issue (.claim_global name ⟨drawn, some text⟩)) world = (.ok false, world) := by
    have there : name ∈ world.names := Std.ExtTreeMap.mem_iff_isSome_getElem?.mpr (by rw [held]; rfl)
    rw [runs_issue]
    refine Prod.ext ?_ (with_claim_held held)
    exact congrArg Except.ok (decide_eq_false (not_not.mpr there))
  have read : runs corpus (issue (.read_global name)) world = (.ok (some claim), world) := by rw [← held]; rfl
  rw [create_env, runs, run_bind_ok _ clock, run_bind_ok _ refused]
  simp only [Bool.false_eq_true, if_false]
  by_cases same : claim.idempotency_key = some text
  next =>
    rw [if_pos same]
    have looked := @runs_get_env corpus world claim.env_id
    cases found : (world.partition claim.env_id).env with
    | none =>
      rw [found] at looked
      have missing : runs corpus (replay_create_env name (some text)) world =
          (.error (.notFound "environment does not exist"), world) := by
        rw [replay_create_env, runs, run_bind_ok _ read]
        simp only [same, if_true]
        exact Prog.run_bind_error looked _
      exact Prog.run_bind_error missing _
    | some item =>
      rw [found] at looked
      have replayed : runs corpus (replay_create_env name (some text)) world = (.ok (some item.body), world) := by
        rw [replay_create_env, runs, run_bind_ok _ read]
        simp only [same, if_true]
        exact run_bind_ok _ looked
      exact run_bind_ok _ replayed
  next =>
    rw [if_neg same]
    have unanswered : runs corpus (replay_create_env name (some text)) world = (.ok none, world) := by
      rw [replay_create_env, runs, run_bind_ok _ read]
      simp only [same, if_false]
      rfl
    exact run_bind_ok _ unanswered

/-- What a creation under a free name leaves. -/
def World.with_env (world : World) (drawn : EnvId) (name : EnvName) (key : Option String) (record : Environment) :
    World :=
  (world.with_claim name ⟨drawn, key⟩).with_partition drawn ((world.partition drawn).started record)

theorem runs_claim_free (free : world.names[name]? = none) (claim : NameClaim) :
    runs corpus (issue (.claim_global name claim)) world = (.ok true, world.with_claim name claim) := by
  have absent : name ∉ world.names := fun there => by
    rw [Std.ExtTreeMap.mem_iff_isSome_getElem?, free] at there
    cases there
  rw [runs_issue]
  exact Prod.ext (congrArg Except.ok (decide_eq_true absent)) rfl

theorem runs_create_free (free : world.names[name]? = none) (unused : world.Unused drawn) :
    runs corpus (create_env drawn name owner default_ref labels key) world =
      (.ok (created_env drawn name owner default_ref labels world.clock),
        world.with_env drawn name key (created_env drawn name owner default_ref labels world.clock)) := by
  have clock : runs corpus (issue .now_us) world = (.ok world.clock, world) := rfl
  have claimed := @runs_claim_free corpus world name free ⟨drawn, key⟩
  have recorded := @runs_transact corpus drawn (world.with_claim name ⟨drawn, key⟩) _ _
    (@started_transacts (world.with_claim name ⟨drawn, key⟩) drawn
      (created_env drawn name owner default_ref labels world.clock) unused)
  rw [create_env, runs, run_bind_ok _ clock, run_bind_ok _ claimed]
  simp only [if_true]
  exact run_bind_ok _ recorded

end Alone

/-! ## Retries -/

/-- The creation returns the one environment that has the name, recorded and claimed. -/
def Resumes (corpus : Corpus) (create : Act Environment) (name : EnvName) (world : World) : Prop :=
  ∃ record after, runs corpus create world = (.ok record, after) ∧ record.name = name ∧
    (after.partition record.env_id).env.map Item.body = some record ∧ after.Holds name record.env_id ∧
    ∀ pk item, (after.partition pk).env = some item → item.body.name = name → pk = record.env_id

/-- The name is free, or held under the key by the environment recorded under it; and no other environment is
recorded under it. -/
structure World.Claimable (world : World) (name : EnvName) (key : String) : Prop where
  claimed : ∀ claim, world.names[name]? = some claim → claim.idempotency_key = some key ∧
    ∃ item, (world.partition claim.env_id).env = some item ∧ item.body.name = name ∧ item.body.env_id = claim.env_id
  carried : ∀ pk item, (world.partition pk).env = some item → item.body.name = name → world.Holds name pk

section Retry

variable {corpus : Corpus} {world : World} {drawn : EnvId} {name : EnvName} {owner : String} {default_ref : RefName}
  {labels : List (String × String)} {key : String} {record : Environment}

theorem holds_of_claim {claim : NameClaim} (held : world.names[name]? = some claim) (pk : EnvId) :
    world.Holds name pk ↔ claim.env_id = pk := by
  rw [World.Holds, held, Option.map_some, Option.some.injEq]

theorem with_env_record (pk : EnvId) :
    ((world.with_env drawn name (some key) record).partition pk).env =
      if pk = drawn then some ⟨record, 1, none, none⟩ else (world.partition pk).env := by
  by_cases same : pk = drawn
  next =>
    subst same
    rw [if_pos rfl, World.with_env, partition_with_self]
    rfl
  next =>
    rw [if_neg same, World.with_env, partition_with_of_ne _ _ (Ne.symm same)]
    rfl

theorem with_env_claim (free : world.names[name]? = none) :
    (world.with_env drawn name (some key) record).names[name]? = some ⟨drawn, some key⟩ :=
  with_claim_free free

/-- A retry goes on from wherever the name is free, or the claim's environment is recorded. -/
theorem resumes_exact (unused : world.names[name]? = none → world.Unused drawn) :
    Resumes corpus (create_env drawn name owner default_ref labels (some key)) name world ↔ world.Claimable name key := by
  cases held : world.names[name]? with
  | none =>
    have created := @runs_create_free corpus world drawn name owner default_ref labels (some key) held (unused held)
    constructor
    next =>
      rintro ⟨record, after, ran, named, -, claimed, alone⟩
      rw [created] at ran
      cases ran
      refine ⟨fun claim there => ?_, fun pk item found same => ?_⟩
      next => cases held.symm.trans there
      -- A record under the free name would be a second one, as the drawn id had none.
      next =>
        have elsewhere : pk ≠ drawn := fun here => by
          rw [here, (unused held).1] at found
          cases found
        have kept := @with_env_record world drawn name key (created_env drawn name owner default_ref labels world.clock) pk
        rw [if_neg elsewhere] at kept
        exact absurd (alone pk item (kept.trans found) same) elsewhere
    next =>
      intro claimable
      refine ⟨_, _, created, rfl, ?_, ?_, fun pk item found same => ?_⟩
      next => exact congrArg (Option.map Item.body) (with_env_record drawn |>.trans (if_pos rfl))
      next => exact (holds_of_claim (with_env_claim held) drawn).mpr rfl
      next =>
        by_contra elsewhere
        rw [with_env_record, if_neg (show pk ≠ drawn from elsewhere)] at found
        have holds := claimable.carried pk item found same
        rw [World.Holds, held] at holds
        cases holds
  | some claim =>
    have taken := @runs_create_taken corpus world drawn name owner default_ref labels key claim held
    by_cases same : claim.idempotency_key = some key
    next =>
      rw [if_pos same] at taken
      cases found : (world.partition claim.env_id).env with
      | none =>
        rw [found] at taken
        constructor
        next =>
          rintro ⟨_, _, ran, _⟩
          rw [taken] at ran
          cases ran
        next =>
          intro claimable
          obtain ⟨-, item, there, -⟩ := claimable.claimed claim held
          cases found.symm.trans there
      | some item =>
        rw [found] at taken
        constructor
        next =>
          rintro ⟨record, after, ran, named, recorded, claimed, alone⟩
          rw [taken] at ran
          cases ran
          have own := (holds_of_claim held _).mp claimed
          refine ⟨fun other there => ?_, fun pk other there carries => ?_⟩
          next =>
            obtain rfl := Option.some.inj (held.symm.trans there)
            exact ⟨same, item, found, named, own.symm⟩
          next => exact (holds_of_claim held pk).mpr (own.trans (alone pk other there carries).symm)
        next =>
          intro claimable
          obtain ⟨-, again, there, named, own⟩ := claimable.claimed claim held
          obtain rfl := Option.some.inj (found.symm.trans there)
          refine ⟨_, _, taken, named, ?_, (holds_of_claim held _).mpr own.symm, fun pk other there carries => ?_⟩
          next =>
            rw [own, found]
            rfl
          next => exact ((holds_of_claim held pk).mp (claimable.carried pk other there carries)).symm.trans own.symm
    next =>
      rw [if_neg same] at taken
      refine iff_of_false ?_ fun claimable => same (claimable.claimed claim held).1
      rintro ⟨_, _, ran, _⟩
      rw [taken] at ran
      cases ran

/-- Where the call stops under a free name: before the claim, right after it, or with the record written. -/
theorem stopped_free (free : world.names[name]? = none) (unused : world.Unused drawn) (count : Nat) :
    (runs corpus ((create_env drawn name owner default_ref labels (some key)).cut count) world).2 =
      match count with
      | 0 | 1 => world
      | 2 => world.with_claim name ⟨drawn, some key⟩
      | _ => world.with_env drawn name (some key) (created_env drawn name owner default_ref labels world.clock) := by
  match count with
  | 0 => rfl
  | 1 => rfl
  | 2 => rfl
  | more + 3 =>
    have granted : (exec corpus (.claim_global name ⟨drawn, some key⟩) world).1 = true :=
      Except.ok.inj (congrArg Prod.fst (@runs_claim_free corpus world name free ⟨drawn, some key⟩))
    have written := @started_transacts (world.with_claim name ⟨drawn, some key⟩) drawn
      (created_env drawn name owner default_ref labels world.clock) unused
    rw [create_env, runs]
    change (Prog.run (exec corpus) (Prog.cut (more + 1) (if (exec corpus (.claim_global name ⟨drawn, some key⟩) world).1 = true
      then _ else _)) (world.with_claim name ⟨drawn, some key⟩)).2 = _
    rw [granted, if_pos rfl, transact, issue, Prog.ask_bind, Prog.call_bind, Prog.cut, Prog.run_call]
    simp only [exec]
    rw [created_env] at written
    rw [written]
    cases more <;> rfl

/-- Where the call stops under a name that is taken, nothing has changed. -/
theorem stopped_taken {claim : NameClaim} (held : world.names[name]? = some claim) (count : Nat) :
    (runs corpus ((create_env drawn name owner default_ref labels (some key)).cut count) world).2 = world := by
  have leaves : Prog.Leaves (exec corpus) (create_env drawn name owner default_ref labels (some key)) world
      (runs corpus ((create_env drawn name owner default_ref labels (some key)).cut count) world).2 := ⟨count, rfl⟩
  rcases Prog.leaves_call leaves with same | leaves
  next => exact same
  next =>
    rcases Prog.leaves_call leaves with same | leaves
    next => exact same
    next =>
      have there : name ∈ world.names := Std.ExtTreeMap.mem_iff_isSome_getElem?.mpr (by rw [held]; rfl)
      have refused : (exec corpus (.claim_global name ⟨drawn, some key⟩) world).1 = false :=
        decide_eq_false (not_not.mpr there)
      have kept : (exec corpus (.claim_global name ⟨drawn, some key⟩) world).2 = world := with_claim_held held
      rw [show (exec corpus .now_us world).2 = world from rfl, refused, kept] at leaves
      refine @Prog.Yields.leaves _ _ _ _ _ _ Looks (fun _ _ => True) (fun _ => True) _ (fun now => now = world) ?_
        (fun _ _ => trivial) (fun command now looks same => (looks_still looks now).trans same) _ _ rfl leaves
      refine .bind ?_
      rw [Prog.Yields, if_neg Bool.false_ne_true]
      refine .bind ((replay_create_env_looks name (some key)).mono (fun _ fits => fits) fun replayed _ => ?_)
      cases replayed <;> trivial

theorem with_claim_claimable (free : world.names[name]? = none) (unused : world.Unused drawn) :
    ¬ (world.with_claim name ⟨drawn, some key⟩).Claimable name key := by
  intro claimable
  obtain ⟨-, item, found, -⟩ := claimable.claimed _ (with_claim_free free)
  cases unused.1.symm.trans found

theorem with_env_claimable (free : world.names[name]? = none) (unused : world.Unused drawn)
    (own : record.env_id = drawn) (named : record.name = name) :
    (world.with_env drawn name (some key) record).Claimable name key ↔ world.Claimable name key := by
  constructor
  next =>
    intro claimable
    refine ⟨fun claim there => ?_, fun pk item found same => ?_⟩
    next => cases free.symm.trans there
    next =>
      have elsewhere : pk ≠ drawn := fun here => by
        rw [here, unused.1] at found
        cases found
      have kept := @with_env_record world drawn name key record pk
      rw [if_neg elsewhere] at kept
      have holds := claimable.carried pk item (kept.trans found) same
      exact absurd ((holds_of_claim (with_env_claim free) pk).mp holds).symm elsewhere
  next =>
    intro claimable
    refine ⟨fun claim there => ?_, fun pk item found same => ?_⟩
    next =>
      rw [← Option.some.inj ((with_env_claim free).symm.trans there)]
      refine ⟨rfl, ⟨record, 1, none, none⟩, ?_, named, own⟩
      rw [with_env_record, if_pos rfl]
    next =>
      rw [with_env_record] at found
      split at found
      next here =>
        rw [here]
        exact (holds_of_claim (with_env_claim free) drawn).mpr rfl
      next =>
        have holds := claimable.carried pk item found same
        rw [World.Holds, free] at holds
        cases holds

/-- However far the first call came, its retry returns the name's one environment exactly if the name was there for the
key to take, and the call did not stop between its claim and its record. -/
theorem create_retry_exact (corpus : Corpus) (world : World) (drawn redrawn : EnvId) (name : EnvName) (owner : String)
    (default_ref : RefName) (labels : List (String × String)) (key : String) (count : Nat)
    (unused : world.Unused drawn) (fresh : world.Unused redrawn) :
    Resumes corpus (create_env redrawn name owner default_ref labels (some key)) name
        (runs corpus ((create_env drawn name owner default_ref labels (some key)).cut count) world).2 ↔
      world.Claimable name key ∧ (world.names[name]? = none → count ≠ 2) := by
  cases held : world.names[name]? with
  | some claim =>
    rw [stopped_taken held, resumes_exact fun _ => fresh]
    simp
  | none =>
    rw [stopped_free held unused]
    match count with
    | 0 | 1 =>
      show Resumes corpus _ name world ↔ _
      rw [resumes_exact fun _ => fresh]
      simp
    | 2 =>
      show Resumes corpus _ name (world.with_claim name ⟨drawn, some key⟩) ↔ _
      rw [resumes_exact fun free => nomatch free.symm.trans (with_claim_free held)]
      simp [with_claim_claimable held unused]
    | more + 3 =>
      show Resumes corpus _ name (world.with_env drawn name (some key)
        (created_env drawn name owner default_ref labels world.clock)) ↔ _
      rw [resumes_exact fun free => nomatch free.symm.trans (with_env_claim held)]
      simpa using @with_env_claimable world drawn name key
        (created_env drawn name owner default_ref labels world.clock) held unused rfl rfl

end Retry

/-- A creation under a key, each attempt with an id of its own. -/
def keyedCreate (drawn : EnvId) : Act Environment :=
  create_env drawn ⟨"org/a"⟩ "owner" DEFAULT_REF [] (some "k")

theorem empty_unused (clock : Int) (pk : EnvId) : (World.empty clock).Unused pk := by
  constructor <;> simp [World.partition, World.empty, Partition.empty]

/-- The first attempt comes to its end. -/
theorem create_retry_exact_whole :
    Resumes .none (keyedCreate ⟨"env_2"⟩) ⟨"org/a"⟩ (runs .none ((keyedCreate ⟨"env_1"⟩).cut 3) (.empty 0)).2 ↔
      (World.empty 0).Claimable ⟨"org/a"⟩ "k" ∧ ((World.empty 0).names[(⟨"org/a"⟩ : EnvName)]? = none → 3 ≠ 2) :=
  create_retry_exact .none (.empty 0) ⟨"env_1"⟩ ⟨"env_2"⟩ ⟨"org/a"⟩ "owner" DEFAULT_REF [] "k" 3
    (empty_unused 0 _) (empty_unused 0 _)

/-- It stops right after its claim, and the retry finds the environment of the claim missing. -/
theorem claim_without_record :
    (World.empty 0).Claimable ⟨"org/a"⟩ "k" ∧
      ¬ Resumes .none (keyedCreate ⟨"env_2"⟩) ⟨"org/a"⟩ (runs .none ((keyedCreate ⟨"env_1"⟩).cut 2) (.empty 0)).2 := by
  constructor
  next =>
    refine ⟨fun claim held => ?_, fun pk item found _ => ?_⟩
    next => simp [World.empty] at held
    next => cases (empty_unused 0 pk).1.symm.trans found
  next =>
    rintro ⟨record, after, ran, -⟩
    have held : ((World.empty 0).with_claim ⟨"org/a"⟩ ⟨⟨"env_1"⟩, some "k"⟩).names[(⟨"org/a"⟩ : EnvName)]? =
        some ⟨⟨"env_1"⟩, some "k"⟩ := with_claim_free (by simp [World.empty])
    have refused := @runs_create_taken .none _ ⟨"env_2"⟩ _ "owner" DEFAULT_REF [] "k" _ held
    rw [if_pos rfl, show (((World.empty 0).with_claim ⟨"org/a"⟩ ⟨⟨"env_1"⟩, some "k"⟩).partition ⟨"env_1"⟩).env = none from
      (empty_unused 0 _).1] at refused
    cases ran.symm.trans refused

end LedgerVcs
