import LedgerVcs.Meta.Transactions

set_option autoImplicit false

namespace LedgerVcs

open Prog

/-! ## Who owns a name -/

/-- The name is claimed, and the claim points to the environment. -/
def World.Holds (world : World) (name : EnvName) (pk : EnvId) : Prop :=
  (world.names[name]?).map NameClaim.env_id = some pk

/-- Every record's name has a claim that points to its environment. -/
def World.Owned (world : World) : Prop :=
  ∀ pk item, (world.partition pk).env = some item → world.Holds item.body.name pk

/-- No two environments carry one name. -/
def World.Named (world : World) : Prop :=
  ∀ pk item other item', (world.partition pk).env = some item → (world.partition other).env = some item' →
    item.body.name = item'.body.name → pk = other

theorem owned_named {world : World} (owned : world.Owned) : world.Named := by
  intro pk item other item' found found' same
  have first := owned pk item found
  have second := owned other item' found'
  rw [World.Holds, same] at first
  exact Option.some.inj (first.symm.trans second)

/-! ## What the calls do -/

inductive NamingCall
  | create (drawn : EnvId) (name : EnvName) (owner : String) (default_ref : RefName)
      (labels : List (String × String)) (idempotency_key : Option String)
  | rename (env : EnvId) (new_name : EnvName)
  | sweep (limit : Nat)

/-- The call's code up to where its caller stops. -/
def NamingCall.code (steps : Nat) : NamingCall → Act Unit
  | .create drawn name owner default_ref labels idempotency_key =>
      (create_env drawn name owner default_ref labels idempotency_key).cut steps
  | .rename env new_name => (rename_env env new_name).cut steps
  | .sweep limit => (sweep_orphan_name_claims limit).cut steps

/-- Commands that leave everything as it is. -/
def Looks : Cmd → Prop
  | .now_us | .meta_get _ _ | .read_global _ => True
  | _ => False

theorem looks_still {corpus : Corpus} {command : Cmd} (looks : Looks command) (world : World) :
    (exec corpus command world).2 = world := by
  cases command with
  | now_us | meta_get | read_global => rfl
  | _ => cases looks

theorem get_env_looks (env : EnvId) : (get_env env).Yields Looks (fun _ _ => True) fun _ => True := by
  refine .bind (.ask trivial fun item _ => ?_)
  cases item <;> trivial

theorem replay_create_env_looks (name : EnvName) (key : Option String) :
    (replay_create_env name key).Yields Looks (fun _ _ => True) fun _ => True := by
  cases key with
  | none => trivial
  | some key =>
    refine .bind (.ask trivial fun claim _ => ?_)
    cases claim with
    | none => trivial
    | some claim =>
      dsimp only
      split
      next => exact .bind ((get_env_looks claim.env_id).mono (fun _ fits => fits) fun _ _ => trivial)
      next => trivial

section Acts

variable {α β : Type}

/-- About to write a record of the environment that carries the name. -/
def Writing (act : Act α) (pk : EnvId) (name : EnvName) : Prop :=
  ∃ writes next, act = .call (.transact_write pk writes) next ∧
    ∃ record condition generation expires_at_us,
      .put .env record condition generation expires_at_us ∈ writes ∧ record.name = name

/-- The response says that the name is now claimed for the environment. -/
def Granted : (command : Cmd) → command.Response → EnvId → EnvName → Prop
  | .claim_global name claim, claimed, pk, other => claimed = true ∧ claim.env_id = pk ∧ name = other
  | _, _, _, _ => False

/-- A record is written only right after its name was claimed for its environment. -/
def Careful : Act α → Prop
  | .call command next =>
      ∀ response, (∀ pk name, Writing (next response) pk name → Granted command response pk name) ∧
        Careful (next response)
  | _ => True

/-- Careful, and not about to write a record. -/
structure Starts (act : Act α) : Prop where
  idle : ∀ pk name, ¬ Writing act pk name
  careful : Careful act

theorem writing_cut {act : Act α} {steps : Nat} {pk : EnvId} {name : EnvName}
    (writing : Writing (act.cut steps) pk name) : Writing act pk name := by
  obtain ⟨writes, next, same, puts⟩ := writing
  cases steps with
  | zero => cases same
  | succ steps =>
    cases act with
    | done | fail => cases same
    | call command more =>
      obtain ⟨rfl, -⟩ := Prog.call.inj same
      exact ⟨writes, more, rfl, puts⟩

theorem careful_cut {act : Act α} (careful : Careful act) (steps : Nat) : Careful (act.cut steps) := by
  induction act generalizing steps with
  | done | fail => cases steps <;> trivial
  | call command next ih =>
    cases steps with
    | zero => trivial
    | succ steps =>
      intro response
      obtain ⟨granted, rest⟩ := careful response
      exact ⟨fun pk name writing => granted pk name (writing_cut writing), ih response rest steps⟩

theorem starts_cut {act : Act α} (starts : Starts act) (steps : Nat) : Starts (act.cut steps) :=
  ⟨fun pk name writing => starts.idle pk name (writing_cut writing), careful_cut starts.careful steps⟩

/-- Commands that write no record. -/
def Silent : Cmd → Prop
  | .transact_write _ _ => False
  | _ => True

theorem starts_call {command : Cmd} {next : command.Response → Act α} (silent : Silent command)
    (rest : ∀ response, Starts (next response)) : Starts (.call command next) := by
  refine ⟨?_, fun response => ⟨fun pk name writing => ?_, (rest response).careful⟩⟩
  next =>
    rintro pk name ⟨writes, next', same, -⟩
    obtain ⟨rfl, -⟩ := Prog.call.inj same
    exact silent
  next => exact absurd writing ((rest response).idle pk name)

theorem starts_seq {act : Act α} {rest : α → Act β} {answers : (command : Cmd) → command.Response → Prop}
    (anything : ∀ command response, answers command response)
    (yields : act.Yields Silent answers fun value => Starts (rest value)) : Starts (act >>= rest) := by
  induction act with
  | done value => exact yields
  | fail error =>
    refine ⟨?_, trivial⟩
    rintro pk name ⟨writes, next, impossible, -⟩
    cases impossible
  | call command next ih => exact starts_call yields.1 fun response => ih response (yields.2 response (anything _ _))

theorem starts_done (value : α) : Starts (pure value : Act α) := by
  refine ⟨?_, trivial⟩
  rintro pk name ⟨writes, next, impossible, -⟩
  cases impossible

theorem starts_of_silent {act : Act α} (yields : act.Yields Silent (fun _ _ => True) fun _ => True) : Starts act := by
  rw [← Prog.bind_pure act]
  exact starts_seq (fun _ _ => trivial) (yields.mono (fun _ fits => fits) fun value _ => starts_done value)

/-- Claims a name and then writes it into the record that the claim is for. -/
theorem starts_claiming {name : EnvName} {claim : NameClaim} {next : Bool → Act α} {writes : List WriteOp}
    {rest : Except PyError Unit → Act α} (claimed : next true = .call (.transact_write claim.env_id writes) rest)
    (named : ∀ record condition generation expires_at_us,
      .put .env record condition generation expires_at_us ∈ writes → record.name = name)
    (after : ∀ response, Starts (rest response)) (otherwise : Starts (next false)) :
    Starts (.call (.claim_global name claim) next) := by
  refine ⟨?_, fun response => ?_⟩
  next =>
    rintro pk other ⟨writes', next', impossible, -⟩
    cases impossible
  next =>
    cases response with
    | false => exact ⟨fun pk other writing => absurd writing (otherwise.idle pk other), otherwise.careful⟩
    | true =>
      rw [claimed]
      refine ⟨?_, fun response => ⟨fun pk other writing => ?_, (after response).careful⟩⟩
      next =>
        rintro pk other ⟨writes', next', same, record, condition, generation, expires_at_us, member, rfl⟩
        obtain ⟨command, -⟩ := Prog.call.inj same
        cases command
        exact ⟨rfl, rfl, (named _ _ _ _ member).symm⟩
      next => exact absurd writing ((after response).idle pk other)

theorem looks_silent (command : Cmd) (looks : Looks command) : Silent command := by
  cases command with
  | transact_write => cases looks
  | _ => trivial

theorem get_env_silent (env : EnvId) : (get_env env).Yields Silent (fun _ _ => True) fun _ => True :=
  (get_env_looks env).mono looks_silent fun _ _ => trivial

theorem replay_create_env_silent (name : EnvName) (key : Option String) :
    (replay_create_env name key).Yields Silent (fun _ _ => True) fun _ => True :=
  (replay_create_env_looks name key).mono looks_silent fun _ _ => trivial

theorem starts_fail (error : PyError) : Starts (.fail error : Act α) := by
  refine ⟨?_, trivial⟩
  rintro pk name ⟨writes, next, impossible, -⟩
  cases impossible

theorem starts_create_env (drawn : EnvId) (name : EnvName) (owner : String) (default_ref : RefName)
    (labels : List (String × String)) (idempotency_key : Option String) :
    Starts (create_env drawn name owner default_ref labels idempotency_key) := by
  refine starts_call trivial fun created_at_us => ?_
  refine starts_claiming rfl ?_ ?_ ?_
  next =>
    intro record condition generation expires_at_us member
    simp only [List.mem_cons, WriteOp.put.injEq, heq_eq_eq, List.not_mem_nil] at member
    rcases member with ⟨-, rfl, -⟩ | impossible | impossible
    next => rfl
    next => cases impossible.1
    next => cases impossible
  next =>
    intro response
    cases response with
    | ok => exact starts_done _
    | error error => exact starts_fail error
  next =>
    refine @starts_seq _ _ (replay_create_env name idempotency_key) _ _ (fun _ _ => trivial)
      ((replay_create_env_silent name idempotency_key).mono (fun _ fits => fits) fun replayed _ => ?_)
    cases replayed with
    | none => exact starts_fail _
    | some record => exact starts_done record

theorem starts_rename_env (env : EnvId) (new_name : EnvName) : Starts (rename_env env new_name) := by
  refine starts_seq (fun _ _ => trivial) ((get_env_silent env).mono (fun _ fits => fits) fun record _ => ?_)
  dsimp only
  split
  next => exact starts_done record
  next =>
    refine starts_claiming rfl ?_ ?_ (starts_fail _)
    next =>
      intro written condition generation expires_at_us member
      simp only [List.mem_singleton, WriteOp.put.injEq, heq_eq_eq, true_and] at member
      rw [member.1]
    next =>
      intro response
      cases response with
      | ok => exact starts_call trivial fun _ => starts_done _
      | error error => exact starts_fail error

theorem starts_sweep (limit : Nat) : Starts (sweep_orphan_name_claims limit) := by
  refine starts_of_silent (.bind (.ask trivial fun items _ => ?_))
  refine .foldlM trivial fun reclaimed item _ _ => .bind (.ask trivial fun record _ => ?_)
  split
  next => trivial
  next => exact .bind (.ask trivial fun _ _ => trivial)

theorem starts_code (call : NamingCall) (steps : Nat) : Starts (call.code steps) := by
  cases call with
  | create => exact starts_cut (starts_create_env ..) steps
  | rename => exact starts_cut (starts_rename_env ..) steps
  | sweep => exact starts_cut (starts_sweep _) steps

end Acts

/-! ## The steps -/

/-- The writes of one transaction leave the record that was there, or one of theirs. -/
theorem transact_env {writes : List WriteOp} {partition after : Partition}
    (applied : partition.transact_write writes = .ok after) {item : Item Environment} (found : after.env = some item) :
    partition.env = some item ∨ ∃ record condition generation expires_at_us,
      .put .env record condition generation expires_at_us ∈ writes ∧ item.body = record := by
  induction writes generalizing partition with
  | nil =>
    obtain rfl := Except.ok.inj applied
    exact .inl found
  | cons write writes ih =>
    obtain ⟨middle, first, rest⟩ := transact_ok.mp applied
    rcases ih rest with kept | ⟨record, condition, generation, expires_at_us, member, same⟩
    next =>
      cases write with
      | emit event =>
        cases first
        exact .inl kept
      | delete key condition =>
        obtain ⟨-, rfl⟩ := apply_delete.mp first
        cases key with
        | env => cases kept
        | _ => exact .inl kept
      | put key body condition generation expires_at_us =>
        obtain ⟨-, rfl⟩ := apply_put.mp first
        cases key with
        | env => exact .inr ⟨body, _, _, _, List.mem_cons_self, congrArg Item.body (Option.some.inj kept.symm)⟩
        | _ => exact .inl kept
    next => exact .inr ⟨record, condition, generation, expires_at_us, List.mem_cons_of_mem _ member, same⟩

section Step

variable {corpus : Corpus} {world : World} {command : Cmd} {name : EnvName} {pk : EnvId}

theorem exec_names (claim : NameClaim) (held : world.names[name]? = some claim) :
    (exec corpus command world).2.names[name]? = some claim ∨
      command = .delete_global name ∧ (exec corpus command world).2.names[name]? = none := by
  cases command with
  | claim_global other claim' =>
    left
    have there : name ∈ world.names := Std.ExtTreeMap.mem_iff_isSome_getElem?.mpr (by rw [held]; rfl)
    simp only [exec, Std.ExtTreeMap.getElem?_insertIfNew]
    rw [if_neg ?_]
    next => exact held
    next =>
      rintro ⟨same, absent⟩
      exact absent (Std.LawfulEqOrd.eq_of_compare same ▸ there)
  | delete_global other =>
    simp only [exec, Std.ExtTreeMap.getElem?_erase]
    by_cases same : compare other name = .eq
    next => exact .inr ⟨Std.LawfulEqOrd.eq_of_compare same ▸ rfl, if_pos same⟩
    next => exact .inl ((if_neg same).trans held)
  | transact_write pk writes =>
    left
    simp only [exec]
    split
    next => exact held
    next => exact held
  | _ => exact .inl held

theorem exec_grants (granted : Granted command (exec corpus command world).1 pk name) :
    (exec corpus command world).2.Holds name pk := by
  cases command with
  | claim_global other claim =>
    obtain ⟨claimed, rfl, rfl⟩ := granted
    have absent : other ∉ world.names := of_decide_eq_true claimed
    have placed : (world.names.insertIfNew other claim)[other]? = some claim := by
      rw [Std.ExtTreeMap.getElem?_insertIfNew, if_pos ⟨Std.ReflOrd.compare_self, absent⟩]
    exact congrArg (Option.map NameClaim.env_id) placed
  | _ => cases granted

theorem exec_record {item : Item Environment} (found : ((exec corpus command world).2.partition pk).env = some item) :
    (world.partition pk).env = some item ∨ ∃ writes, command = .transact_write pk writes ∧
      ∃ condition generation expires_at_us, .put .env item.body condition generation expires_at_us ∈ writes := by
  cases command with
  | transact_write other writes =>
    simp only [exec] at found
    cases applied : (world.partition other).transact_write writes with
    | error error =>
      rw [applied] at found
      exact .inl found
    | ok after =>
      rw [applied] at found
      by_cases same : other = pk
      next =>
        subst same
        simp only [partition_with_self] at found
        rcases transact_env applied found with kept | ⟨record, condition, generation, expires_at_us, member, rfl⟩
        next => exact .inl kept
        next => exact .inr ⟨writes, rfl, condition, generation, expires_at_us, member⟩
      next =>
        simp only [partition_with_of_ne _ _ same] at found
        exact .inl found
  | _ => exact .inl found

end Step

/-! ## Every interleaving -/

section Together

variable {ι : Type} [DecidableEq ι]

/-- The calls in progress, and what they share. -/
abbrev Naming (ι : Type) := Pool ι Cmd Cmd.Response PyError (fun _ => Unit) World

/-- Each call takes its steps as it likes. -/
def namers (corpus : Corpus) (_ : ι) : Actor Cmd Cmd.Response World := ⟨exec corpus, fun _ _ => True⟩

/-- Whatever else goes on claims no name and writes no environment record. -/
def Besides (before after : World) : Prop :=
  after.names = before.names ∧ ∀ pk, (after.partition pk).env = (before.partition pk).env

/-- The environment has no record under the name, and nobody is about to write it one. -/
def Idle (pool : Naming ι) (name : EnvName) (pk : EnvId) : Prop :=
  (∀ item, (pool.shared.partition pk).env = some item → item.body.name ≠ name) ∧
    ∀ party, ¬ Writing (pool.procs party) pk name

/-- A step that releases idle claims only. -/
def Spares (before after : Naming ι) : Prop :=
  ∀ name claim, before.shared.names[name]? = some claim → after.shared.names[name]? = none →
    Idle before name claim.env_id

/-- Any number of steps, in any order, none of which releases a claim in use. -/
def SparingRun (corpus : Corpus) : Naming ι → Naming ι → Prop :=
  Relation.ReflTransGen fun before after => Pool.Step (namers corpus) Besides before after ∧ Spares before after

/-- Every name in use, or about to be, is held. -/
structure Keeping (pool : Naming ι) : Prop where
  records : pool.shared.Owned
  pending : ∀ party pk name, Writing (pool.procs party) pk name → pool.shared.Holds name pk
  careful : ∀ party, Careful (pool.procs party)

variable {corpus : Corpus} {before after : Naming ι}

theorem step_keeping (keeping : Keeping before) (step : Pool.Step (namers corpus) Besides before after)
    (spares : Spares before after) : Keeping after := by
  -- What is held and in use stays held.
  have stays {name : EnvName} {pk : EnvId} (held : before.shared.Holds name pk) (used : ¬ Idle before name pk)
      (names : ∀ claim, before.shared.names[name]? = some claim →
        after.shared.names[name]? = some claim ∨ after.shared.names[name]? = none) : after.shared.Holds name pk := by
    obtain ⟨claim, found, rfl⟩ := Option.map_eq_some_iff.mp held
    rcases names claim found with kept | released
    next => rw [World.Holds, kept]; rfl
    next => exact absurd (spares name claim found released) used
  cases step with
  | outside world passes =>
    obtain ⟨names, records⟩ := passes
    refine ⟨fun pk item found => ?_, fun party pk name writing => ?_, keeping.careful⟩
    next =>
      rw [World.Holds, names]
      exact keeping.records pk item (records pk ▸ found)
    next =>
      rw [World.Holds, names]
      exact keeping.pending party pk name writing
  | act party command next turn fits =>
    have names (name : EnvName) (claim : NameClaim) (found : before.shared.names[name]? = some claim) :=
      (@exec_names corpus _ command _ _ found).imp_right And.right
    have careful := keeping.careful party
    rw [turn] at careful
    refine ⟨fun pk item found => ?_, fun other pk name writing => ?_, fun other => ?_⟩
    next =>
      rcases exec_record found with kept | ⟨writes, rfl, condition, generation, expires_at_us, member⟩
      next =>
        exact stays (keeping.records pk item kept) (fun idle => idle.1 item kept rfl) (names _)
      next =>
        have writing : Writing (before.procs party) pk item.body.name :=
          ⟨writes, next, turn, item.body, condition, generation, expires_at_us, member, rfl⟩
        exact stays (keeping.pending party pk _ writing) (fun idle => idle.2 party writing) (names _)
    next =>
      by_cases same : other = party
      next =>
        subst same
        simp only [Function.update_self] at writing
        exact exec_grants ((careful _).1 pk name writing)
      next =>
        simp only [Function.update_of_ne same] at writing
        exact stays (keeping.pending other pk name writing) (fun idle => idle.2 other writing) (names _)
    next =>
      by_cases same : other = party
      next =>
        subst same
        simpa only [Function.update_self] using (careful _).2
      next => simpa only [Function.update_of_ne same] using keeping.careful other

theorem run_keeping (keeping : Keeping before) (run : SparingRun corpus before after) : Keeping after := by
  induction run with
  | refl => exact keeping
  | tail _ step ih => exact step_keeping ih step.1 step.2

/-- However the calls interleave and wherever their namers stop, as long as no step releases a claim in use,
every record's name is claimed for its environment and no two environments carry one name. -/
theorem names_owned (corpus : Corpus) (calls : ι → NamingCall) (steps : ι → Nat) (world : World)
    (owned : world.Owned)
    (run : SparingRun corpus ⟨world, fun party => (calls party).code (steps party)⟩ after) :
    after.shared.Owned ∧ after.shared.Named := by
  have start : Keeping (⟨world, fun party => (calls party).code (steps party)⟩ : Naming ι) :=
    ⟨owned, fun party pk name writing => absurd writing ((starts_code (calls party) (steps party)).idle pk name),
      fun party => (starts_code (calls party) (steps party)).careful⟩
  have kept := (run_keeping start run).records
  exact ⟨kept, owned_named kept⟩

end Together

/-! ## A creation and a sweep -/

/-- One creates an environment, the other sweeps. -/
def createAndSweep : Bool → NamingCall
  | true => .create ⟨"env_1"⟩ ⟨"org/a"⟩ "owner" DEFAULT_REF [] none
  | false => .sweep 100

/-- Both calls at their first step, in an empty registry. -/
def creating : Naming Bool := ⟨.empty 0, fun party => (createAndSweep party).code 20⟩

theorem creating_owned : (World.empty 0).Owned := by
  intro pk item found
  simp [World.partition, World.empty, Partition.empty] at found

/-- Commands that release no name. -/
def Unreleasing : Cmd → Prop
  | .delete_global _ => False
  | _ => True

theorem turn_sparing {pool : Naming Bool} {party : Bool} (steps : Nat)
    (yields : (pool.procs party).Yields Unreleasing (fun _ _ => True) fun _ => True) :
    SparingRun .none pool (pool.turn (namers .none) party steps) := by
  induction steps generalizing pool with
  | zero =>
    rw [Pool.turn, Prog.advance, Function.update_eq_self]
    exact .refl
  | succ steps ih =>
    cases turn : pool.procs party with
    | done | fail =>
      rw [Pool.turn, turn, Prog.advance, ← turn, Function.update_eq_self]
      exact .refl
    | call command next =>
      rw [turn] at yields
      refine .head ⟨.act pool party command next turn trivial, fun name claim found released => ?_⟩ ?_
      next =>
        rcases @exec_names .none pool.shared command name claim found with kept | ⟨rfl, -⟩
        next => cases kept.symm.trans released
        next => exact yields.1.elim
      next =>
        have later := @ih ⟨(exec .none command pool.shared).2,
          Function.update pool.procs party (next (exec .none command pool.shared).1)⟩
            (by simpa only [Function.update_self] using yields.2 _ trivial)
        simp only [Pool.turn, Function.update_self, Function.update_idem] at later
        rw [Pool.turn, turn, Prog.advance]
        exact later

theorem creating_unreleasing :
    (creating.procs true).Yields Unreleasing (fun _ _ => True) fun _ => True := by
  refine @Yields.cut _ _ _ _ _ _ (fun _ => True) _
    (.bind (.ask trivial fun created_at_us _ => .bind (.ask trivial fun claimed _ => ?_))) 20
  cases claimed with
  | true => exact .bind (.bind (.ask trivial fun _ _ => .ofExcept fun _ _ => trivial))
  | false => trivial

/-- The creation comes to its end and nobody sweeps. -/
theorem names_owned_created :
    (creating.turn (namers .none) true 3).shared.Owned ∧ (creating.turn (namers .none) true 3).shared.Named :=
  names_owned .none createAndSweep (fun _ => 20) (.empty 0) creating_owned (turn_sparing 3 creating_unreleasing)

/-- The sweep comes between the claim and the record. -/
def sweptBetween : Naming Bool :=
  [(true, 2), (false, 20), (true, 20)].foldl (fun before turn => before.turn (namers .none) turn.1 turn.2) creating

/-- Both calls have come to their end, and the record's name has no claim. -/
theorem claim_swept_away :
    Pool.Run (namers .none) Besides creating sweptBetween ∧
      (∀ party, (sweptBetween.procs party).value = some ()) ∧ ¬ sweptBetween.shared.Owned := by
  refine ⟨Pool.Run.turns (fun _ _ _ => trivial) _ _, ?_, fun owned => ?_⟩
  next => decide
  next =>
    have recorded : ((sweptBetween.shared.partition ⟨"env_1"⟩).env.map fun item => item.body.name) = some ⟨"org/a"⟩ := by
      decide
    have unclaimed : sweptBetween.shared.names[(⟨"org/a"⟩ : EnvName)]? = none := by decide
    obtain ⟨item, found, named⟩ := Option.map_eq_some_iff.mp recorded
    have held := owned ⟨"env_1"⟩ item found
    rw [World.Holds, named, unclaimed] at held
    cases held

end LedgerVcs
