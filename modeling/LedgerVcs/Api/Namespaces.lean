import LedgerVcs.Api.Routes
import LedgerVcs.Lib.Script
import LedgerVcs.Meta.Log

set_option autoImplicit false

/-! Which names a token can put into the registry. -/

namespace LedgerVcs

open Prog (Actor Pool Traced)
open Text (lit)

inductive EnvRequest
  | create (drawn : EnvId) (body : CreateEnvRequest) (idempotency_key : Option String)
  | update (path : String) (body : UpdateEnvRequest)
  | fork (drawn : EnvId) (drawn_session : SessionId) (principal path : String) (body : ForkEnvRequest)
      (idempotency_key : Option String)

def EnvRequest.code (capability : Capability) : EnvRequest → Act EnvResponse
  | .create drawn body idempotency_key => Routes.create_env drawn capability body idempotency_key
  | .update path body => Routes.update_env capability path body
  | .fork drawn drawn_session principal path body idempotency_key =>
      Routes.fork_env drawn drawn_session principal capability path body idempotency_key

/-- The name that a fork asks for. -/
def EnvRequest.forks : EnvRequest → Option String
  | .fork _ _ _ _ body _ => some body.name
  | _ => none

/-- The registry is asked_of for such names only. -/
def Claiming (names : EnvName → Prop) : Cmd → Prop
  | .claim_global name _ => names name
  | _ => True

section Requests

variable {names more : EnvName → Prop} {answers : (command : Cmd) → command.Response → Prop} {capability : Capability}

theorem Claiming.mono (weaken : ∀ name, names name → more name) (command : Cmd) (fits : Claiming names command) :
    Claiming more command := by
  cases command with
  | claim_global name claim => exact weaken name fits
  | _ => trivial

theorem ref_claiming {env : EnvId} {moves : Move → Prop} (command : Cmd) (fits : RefCmd env moves command) :
    Claiming names command := by
  cases command with
  | claim_global => cases fits
  | _ => trivial

theorem session_claiming {env : EnvId} (command : Cmd) (fits : SessionCmd env command) : Claiming names command := by
  cases command with
  | claim_global => cases fits
  | _ => trivial

theorem reads_claiming (command : Cmd) (fits : Reads command) : Claiming names command := by
  obtain ⟨name, rfl⟩ := fits
  trivial

theorem get_env_claiming (env : EnvId) : (get_env env).Yields (Claiming names) answers fun _ => True := by
  refine .bind (.ask trivial fun item _ => ?_)
  cases item <;> trivial

theorem transact_claiming (pk : EnvId) (writes : List WriteOp) :
    (transact pk writes).Yields (Claiming names) answers fun _ => True :=
  .bind (.ask trivial fun _ _ => .ofExcept fun _ _ => trivial)

theorem create_env_claiming (drawn : EnvId) {name : EnvName} (owner : String) (default_ref : RefName)
    (labels : List (String × String)) (key : Option String) (admitted : names name) :
    (create_env drawn name owner default_ref labels key).Yields (Claiming names) answers fun _ => True := by
  refine .bind (.ask trivial fun created_at_us _ => .bind (.ask admitted fun claimed _ => ?_))
  cases claimed with
  | true => exact .bind ((transact_claiming drawn _).mono (fun _ fits => fits) fun _ _ => trivial)
  | false =>
    refine .bind (@Prog.Yields.mono _ _ _ _ _ _ (fun _ => True) _ _ _ ?_ (fun _ fits => fits) fun replayed _ => ?_)
    next =>
      cases key with
      | none => trivial
      | some key =>
        refine .bind (.ask trivial fun claim _ => ?_)
        cases claim with
        | none => trivial
        | some claim =>
          dsimp only
          split
          next => exact .bind ((get_env_claiming claim.env_id).mono (fun _ fits => fits) fun _ _ => trivial)
          next => trivial
    next => cases replayed <;> trivial

theorem rename_env_claiming (env : EnvId) {name : EnvName} (admitted : names name) :
    (rename_env env name).Yields (Claiming names) answers fun _ => True := by
  refine .bind ((get_env_claiming env).mono (fun _ fits => fits) fun record _ => ?_)
  dsimp only
  split
  next => trivial
  next =>
    refine .bind (.ask admitted fun claimed _ => ?_)
    cases claimed with
    | true =>
      refine .bind ((transact_claiming env _).mono (fun _ fits => fits) fun _ _ => ?_)
      exact .bind (.ask trivial fun _ _ => trivial)
    | false => trivial

theorem require_env_claiming (path : String) (operation : Operation) :
    (require_env capability path operation).Yields (Claiming names) answers fun auth => auth.capability = capability := by
  refine .bind (.ofExcept fun name _ => ?_)
  refine .bind (@Prog.Yields.mono _ _ _ _ _ _ (fun _ => True) _ _ _ (.handling ?_ fun error => ?_) (fun _ fits => fits)
    fun env_id _ => ?_)
  next =>
    refine .bind (.ask trivial fun claim _ => ?_)
    cases claim <;> trivial
  next =>
    cases error with
    | notFound message =>
      dsimp only
      split <;> trivial
    | _ => trivial
  next =>
    refine .bind (@Prog.Yields.mono _ _ _ _ _ _ (fun _ => True) _ _ _ ?_ (fun _ fits => fits) fun _ _ => rfl)
    refine .bind ((get_env_claiming env_id).mono (fun _ fits => fits) fun record _ => ?_)
    split <;> trivial

theorem create_claiming (drawn : EnvId) (body : CreateEnvRequest) (key : Option String) :
    (Routes.create_env drawn capability body key).Yields
      (Claiming fun name => capability.scope.could_name name = true) answers fun _ => True := by
  refine .bind (.ofExcept fun _ _ => .bind (.ofExcept fun name _ => .bind (.ofExcept fun _ could => ?_)))
  have admitted := ensure_ok.mp could
  exact .bind ((create_env_claiming drawn body.owner DEFAULT_REF body.labels key admitted).mono (fun _ fits => fits)
    fun _ _ => trivial)

theorem rename_claiming (auth : Authorized) (record : Environment) (name : String) :
    (Routes.rename auth record name).Yields
      (Claiming fun name => auth.capability.scope.could_name name = true) answers fun _ => True := by
  rw [Routes.rename]
  split
  next => trivial
  next =>
    refine .bind (.ofExcept fun new_name _ => .bind (.ofExcept fun _ could => ?_))
    exact rename_env_claiming auth.env_id (ensure_ok.mp could)

theorem replace_env_claiming (env : EnvId) (changes : Environment → Environment) :
    (replace_env env changes).Yields (Claiming names) answers fun _ => True := by
  refine .bind ((get_env_claiming env).mono (fun _ fits => fits) fun record _ => ?_)
  exact .bind ((transact_claiming env _).mono (fun _ fits => fits) fun _ _ => trivial)

theorem update_claiming (path : String) (body : UpdateEnvRequest) :
    (Routes.update_env capability path body).Yields
      (Claiming fun name => capability.scope.could_name name = true) answers fun _ => True := by
  refine .bind ((require_env_claiming path .ADMIN).mono (fun _ fits => fits) fun auth own => ?_)
  refine .bind ((get_env_claiming auth.env_id).mono (fun _ fits => fits) fun record _ => ?_)
  refine .bind (@Prog.Yields.mono _ _ _ _ _ _ (fun _ => True) _ _ _ ?_ (fun _ fits => fits) fun renamed _ => ?_)
  next =>
    cases body.name with
    | none => trivial
    | some name => exact own ▸ rename_claiming auth record name
  refine .bind (@Prog.Yields.mono _ _ _ _ _ _ (fun _ => True) _ _ _ ?_ (fun _ fits => fits) fun labelled _ => ?_)
  next =>
    cases body.labels with
    | none => trivial
    | some labels => exact replace_env_claiming auth.env_id _
  refine .bind (@Prog.Yields.mono _ _ _ _ _ _ (fun _ => True) _ _ _ ?_ (fun _ fits => fits) fun _ _ => trivial)
  cases body.state with
  | none => trivial
  | some state => exact replace_env_claiming auth.env_id _

theorem graduate_claiming (env : EnvId) (closure : List ObjectName) :
    (GarbageCollector.graduate env closure).Yields (Claiming names) answers fun _ => True := by
  refine .bind (@Prog.Yields.mono _ _ _ _ _ _ (fun _ => True) _ _ _ (Prog.Yields.mapM fun name _ => ?_)
    (fun _ fits => fits) fun _ _ => trivial)
  exact .ask trivial fun _ _ => trivial

theorem retain_claiming (fork : Fork) (created : EnvId) (closure : List ObjectName) :
    (fork.retain created closure).Yields (Claiming names) answers fun _ => True := by
  refine .bind ((begin_write_yields fork.drawn_session _ _).mono session_claiming fun session _ => ?_)
  refine .ensuring ?_ ?_
  next =>
    refine .bind ((record_uploaded_yields session.session_id closure).mono session_claiming fun _ _ => ?_)
    exact .bind ((graduate_claiming created closure).mono (fun _ fits => fits) fun _ _ => trivial)
  next => exact (end_session_yields session.session_id).mono session_claiming fun _ _ => trivial

end Requests

section Forks

variable {corpus : Corpus} {capability : Capability}

theorem fork_run_claiming (fork : Fork) :
    fork.run.Yields (Claiming fun name => name = fork.name) (answers corpus) fun _ => True := by
  refine .bind ((get_env_claiming fork.source).mono (fun _ fits => fits) fun origin _ => ?_)
  refine .bind ((get_ref_yields (fork.from_ref.getD origin.default_ref)).mono (@ref_claiming _ _ fun _ => True)
    fun head _ => ?_)
  refine .bind ((create_env_claiming fork.drawn_env _ DEFAULT_REF [] _ rfl).mono
    (Claiming.mono fun _ same => Eq.symm same) fun created _ => ?_)
  refine .bind ((get_env_claiming created.env_id).mono (fun _ fits => fits) fun record _ => ?_)
  refine .bind ((transact_claiming created.env_id _).mono (fun _ fits => fits) fun _ _ => ?_)
  refine .bind ((@create_ref_yields created.env_id _ (fun _ _ => True) created.default_ref head.target _ _ _ _ _ _
    fun _ _ => trivial).mono ref_claiming fun _ _ => ?_)
  refine .bind ((commit_closure_yields head.target).mono reads_claiming fun closure _ => ?_)
  exact .bind ((retain_claiming fork created.env_id closure).mono (fun _ fits => fits) fun _ _ => trivial)

/-- A fork asks the registry for its new name, whatever the scope says of it. -/
theorem fork_claiming (drawn : EnvId) (drawn_session : SessionId) (principal path : String) (body : ForkEnvRequest)
    (key : Option String) :
    (Routes.fork_env drawn drawn_session principal capability path body key).Yields
      (Claiming fun name => name.value = body.name) (answers corpus) fun _ => True := by
  refine .bind ((require_env_claiming path .FORK).mono (fun _ fits => fits) fun auth _ => ?_)
  refine .bind (.ofExcept fun name parsed => .bind (.ofExcept fun from_ref _ => ?_))
  have spelled : name.value = body.name := by
    rw [EnvName.parse] at parsed
    split at parsed <;> cases parsed
    rfl
  refine .bind ((fork_run_claiming _).mono (Claiming.mono ?_) fun _ _ => trivial)
  rintro other rfl
  exact spelled

theorem code_claiming (request : EnvRequest) :
    (request.code capability).Yields
      (Claiming fun name => capability.scope.could_name name = true ∨ request.forks = some name.value) (answers corpus)
      fun _ => True := by
  cases request with
  | create drawn body key =>
    exact (create_claiming drawn body key).mono (Claiming.mono fun _ => .inl) fun _ met => met
  | update path body => exact (update_claiming path body).mono (Claiming.mono fun _ => .inl) fun _ met => met
  | fork drawn drawn_session principal path body key =>
    exact (fork_claiming drawn drawn_session principal path body key).mono
      (Claiming.mono fun name same => .inr (congrArg some same.symm)) fun _ met => met

end Forks

/-! ## Every run of such requests -/

/-- The world, and all that the requests have done. -/
abbrev Visits (ι : Type) := Traced ι Cmd Cmd.Response World

/-- A name that a command put into the registry. -/
def registered_by {ι : Type} : Prog.Event ι Cmd Cmd.Response → Option EnvName
  | ⟨_, .claim_global name _, true⟩ => some name
  | _ => none

/-- The names that the requests have put into the registry. -/
def registered {ι : Type} (trace : List (Prog.Event ι Cmd Cmd.Response)) : List EnvName := trace.filterMap registered_by

/-- The name that a command asks the registry for. -/
def asked_of : Cmd → Option EnvName
  | .claim_global name _ => some name
  | _ => none

/-- A fork asks for a name that the scope could name, or for one that is taken. -/
def Respectful {ι : Type} (capability : Capability) (request : EnvRequest) (command : Cmd) (visits : Visits ι) : Prop :=
  ∀ name ∈ asked_of command, request.forks = some name.value →
    capability.scope.could_name name = true ∨ name ∈ visits.state.names

instance {ι : Type} (capability : Capability) (request : EnvRequest) (command : Cmd) (visits : Visits ι) :
    Decidable (Respectful capability request command visits) :=
  inferInstanceAs (Decidable (∀ name ∈ asked_of command, _))

/-- Requests made with the token, each taking its steps as it likes. -/
def respectful {ι : Type} (corpus : Corpus) (capability : Capability) (requests : ι → EnvRequest) (party : ι) :
    Actor Cmd Cmd.Response (Visits ι) :=
  ⟨Traced.exec (exec corpus) party, Respectful capability (requests party)⟩

/-- Anything the others do. -/
def Whatever {ι : Type} (before after : Visits ι) : Prop := after.trace = before.trace

/-- Every request at its first step. -/
def visiting {ι : Type} (capability : Capability) (requests : ι → EnvRequest) (world : World) :
    Pool ι Cmd Cmd.Response PyError (fun _ => EnvResponse) (Visits ι) :=
  ⟨⟨world, []⟩, fun party => (requests party).code capability⟩

theorem step_registered {ι : Type} {corpus : Corpus} {capability : Capability} {request : EnvRequest} {party : ι}
    {command : Cmd} {visits : Visits ι}
    (fits : Claiming (fun name => capability.scope.could_name name = true ∨ request.forks = some name.value) command)
    (respects : Respectful capability request command visits)
    (admitted : ∀ name ∈ registered visits.trace, capability.scope.could_name name = true) :
    ∀ name ∈ registered (Traced.exec (exec corpus) party command visits).2.trace,
      capability.scope.could_name name = true := by
  intro name member
  rw [registered, Traced.exec, List.filterMap_cons] at member
  cases command with
  | claim_global wanted claim =>
    simp only [exec, registered_by] at member
    by_cases free : wanted ∈ visits.state.names
    next =>
      rw [show decide (wanted ∉ visits.state.names) = false by simp [free]] at member
      exact admitted name member
    next =>
      rw [show decide (wanted ∉ visits.state.names) = true by simp [free]] at member
      rcases List.mem_cons.mp member with rfl | before
      next =>
        rcases fits with could | forked
        next => exact could
        next => exact (respects _ rfl forked).resolve_right free
      next => exact admitted name before
  | _ => exact admitted name member

/-- Whatever requests to create, rename and fork are made with a token, side by side and beside anything else: if no
fork registers a name that the scope could not name, then nothing does. -/
theorem names_admitted {ι : Type} [DecidableEq ι] (corpus : Corpus) (capability : Capability)
    (requests : ι → EnvRequest) (world : World)
    {after : Pool ι Cmd Cmd.Response PyError (fun _ => EnvResponse) (Visits ι)}
    (run : Pool.Run (respectful corpus capability requests) Whatever (visiting capability requests world) after) :
    ∀ name ∈ registered after.shared.trace, capability.scope.could_name name = true := by
  refine Pool.run_keeps (I := fun visits : Visits ι => ∀ name ∈ registered visits.trace,
    capability.scope.could_name name = true) (fun party => code_claiming (requests party))
    (fun party command visits _ => answered corpus command visits.state)
    (fun party command visits fits respects held => step_registered fits respects held)
    (fun first second passes held => ?_) (fun name impossible => by cases impossible) run
  rw [passes]
  exact held

/-! ## A fork into another namespace -/

/-- May read and fork what is the team's. -/
def teammate : Capability where
  principal := lit "rollout"
  scope := ⟨.READ ||| .FORK, [.namePrefix (lit "team/*")], none⟩
  expires_at_us := 10
  not_before_us := 0
  token_id := lit "t"
  commit := none

/-- The team's environment, with a head. -/
def teamWorld : World :=
  (runs .none (do
    let env ← create_env ⟨"env_1"⟩ ⟨"team/base"⟩ "owner" DEFAULT_REF [] none
    create_ref env.env_id DEFAULT_REF firstTarget "owner" .permanent none none none none) (.empty 0)).2

/-- The environment is forked under the name. -/
def forkAs (name : String) : Unit → EnvRequest := fun _ =>
  .fork ⟨"env_2"⟩ ⟨"s"⟩ "rollout" "team/base" ⟨name, "refs/heads/main", ""⟩ none

instance {ι : Type} (corpus : Corpus) (capability : Capability) (requests : ι → EnvRequest) (party : ι) (command : Cmd)
    (visits : Visits ι) : Decidable ((respectful corpus capability requests party).may command visits) :=
  inferInstanceAs (Decidable (Respectful capability (requests party) command visits))

/-- Up to its claim of the new name. -/
def untilClaimed : List (Pool.Cue Unit (Visits Unit)) := [.turn () 6]

theorem names_admitted_fork :
    registered ((visiting teammate (forkAs "team/copy") teamWorld).play
        (respectful .none teammate (forkAs "team/copy")) untilClaimed).shared.trace = [⟨"team/copy"⟩] ∧
      teammate.scope.could_name ⟨"team/copy"⟩ = true := by
  have run : Pool.Run (respectful .none teammate (forkAs "team/copy")) Whatever
      (visiting teammate (forkAs "team/copy") teamWorld) _ :=
    Pool.Run.play (fun change member => by simp [untilClaimed] at member)
      (show Pool.Plays (respectful .none teammate (forkAs "team/copy")) untilClaimed _ by decide)
  have added : registered ((visiting teammate (forkAs "team/copy") teamWorld).play
      (respectful .none teammate (forkAs "team/copy")) untilClaimed).shared.trace = [⟨"team/copy"⟩] := by decide
  exact ⟨added, names_admitted .none teammate (forkAs "team/copy") teamWorld run _ (added ▸ List.mem_singleton_self _)⟩

/-- Requests that take their steps as they like. -/
def visitors {ι : Type} (corpus : Corpus) (party : ι) : Actor Cmd Cmd.Response (Visits ι) :=
  ⟨Traced.exec (exec corpus) party, fun _ _ => True⟩

instance {ι : Type} (corpus : Corpus) (party : ι) (command : Cmd) (visits : Visits ι) :
    Decidable ((visitors corpus party).may command visits) := isTrue trivial

/-- The token forks the team's environment under a name that it could not name. -/
theorem fork_trespasses :
    ∃ after : Pool Unit Cmd Cmd.Response PyError (fun _ => EnvResponse) (Visits Unit),
      Pool.Run (visitors .none) Whatever (visiting teammate (forkAs "other/copy") teamWorld) after ∧
        registered after.shared.trace = [⟨"other/copy"⟩] ∧ teammate.scope.could_name ⟨"other/copy"⟩ = false := by
  refine ⟨(visiting teammate (forkAs "other/copy") teamWorld).play (visitors .none) untilClaimed,
    Pool.Run.play (fun change member => by simp [untilClaimed] at member) (by decide), by decide,
    by decide⟩

end LedgerVcs
