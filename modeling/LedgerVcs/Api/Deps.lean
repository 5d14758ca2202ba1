import LedgerVcs.Auth.Policy

set_option autoImplicit false

namespace LedgerVcs

open Prog
open Text (PyStr lit)

structure Authorized where
  capability : Capability
  env_id : EnvId
deriving DecidableEq

/-- Resolve an environment name and authorize an operation on it. -/
def authorize_env (capability : Capability) (name : EnvName) (operation : Operation) : Act Authorized := do
  let env_id ← (resolve_env_name name).handling fun
    | .notFound message =>
      if capability.scope.could_name name then .fail (.notFound message) else .fail refused
    | error => .fail error
  PolicyEngine.authorize capability operation env_id
  return ⟨capability, env_id⟩

/-! ## What the registry says of a name -/

inductive Standing
  | unregistered
  /-- Claimed, and the record was never written. -/
  | claimed (env_id : EnvId)
  | registered (env_id : EnvId) (record : Environment)
deriving DecidableEq

def World.standing (world : World) (name : EnvName) : Standing :=
  match world.names[name]? with
  | none => .unregistered
  | some claim =>
    match (world.partition claim.env_id).env with
    | none => .claimed claim.env_id
    | some item => .registered claim.env_id item.body

def Standing.Orphaned : Standing → Prop
  | .claimed _ => True
  | _ => False

instance : (standing : Standing) → Decidable standing.Orphaned
  | .unregistered | .registered _ _ => .isFalse id
  | .claimed _ => .isTrue trivial

/-- The scope permits nothing on the record the name leads to. -/
def Standing.Closed (scope : Scope) : Standing → Prop
  | .registered env_id record => ∀ operation, scope.permits operation env_id record.name record.label = false
  | _ => True

section Gate

variable {corpus : Corpus} {capability : Capability} {name : EnvName} {operation : Operation} {world : World}

/-- The gate's answer for each standing of the name. -/
theorem authorize_env_answers :
    runs corpus (authorize_env capability name operation) world =
      (match world.standing name with
        | .unregistered =>
          if capability.scope.could_name name then .error (.notFound "environment name is not registered")
          else .error refused
        | .claimed _ => .error (.notFound "environment does not exist")
        | .registered env_id record =>
          if capability.scope.permits operation env_id record.name record.label then .ok ⟨capability, env_id⟩
          else .error refused, world) := by
  rw [authorize_env, runs, run_bind, run_handling]
  cases found : world.names[name]? with
  | none =>
    have resolved : run (exec corpus) (resolve_env_name name) world =
        (.error (.notFound "environment name is not registered"), world) := by
      simp [resolve_env_name, issue, exec, found]
    rw [resolved]
    by_cases could : capability.scope.could_name name = true
    next => simp [could, World.standing, found]
    next => simp [could, World.standing, found]
  | some claim =>
    have resolved : run (exec corpus) (resolve_env_name name) world = (.ok claim.env_id, world) := by
      simp [resolve_env_name, issue, exec, found]
    rw [resolved]
    simp only [run_bind, PolicyEngine.authorize]
    cases record : (world.partition claim.env_id).env with
    | none =>
      have got : run (exec corpus) (get_env claim.env_id) world =
          (.error (.notFound "environment does not exist"), world) := by
        simp [get_env, issue, exec, Partition.get, record]
      simp [got, World.standing, found, record]
    | some item =>
      have got : run (exec corpus) (get_env claim.env_id) world = (.ok item.body, world) := by
        simp [get_env, issue, exec, Partition.get, record]
      by_cases permitted :
          capability.scope.permits operation claim.env_id item.body.name item.body.label = true
      next => simp [got, World.standing, found, record, permitted]
      next => simp [got, World.standing, found, record, permitted]

/-- To a caller without authority over the name, two registries look alike just when both or neither hold a
claim on it whose record was never written. -/
theorem existence_hidden {first second : World} (blind : capability.scope.could_name name = false)
    (closed : (first.standing name).Closed capability.scope)
    (closed' : (second.standing name).Closed capability.scope) :
    (runs corpus (authorize_env capability name operation) first).1 =
        (runs corpus (authorize_env capability name operation) second).1 ↔
      ((first.standing name).Orphaned ↔ (second.standing name).Orphaned) := by
  have answer {world : World} (closed : (world.standing name).Closed capability.scope) :
      (runs corpus (authorize_env capability name operation) world).1 =
        if (world.standing name).Orphaned then .error (.notFound "environment does not exist")
        else .error refused := by
    rw [authorize_env_answers]
    cases standing : world.standing name with
    | unregistered => simp [blind, Standing.Orphaned]
    | claimed env_id => simp [Standing.Orphaned]
    | registered env_id record =>
      rw [standing] at closed
      simp [closed operation, Standing.Orphaned]
  have apart : (Except.error refused : Except PyError Authorized) ≠ .error (.notFound "environment does not exist") := by
    simp [refused]
  rw [answer closed, answer closed']
  by_cases orphaned : (first.standing name).Orphaned
  next =>
    by_cases orphaned' : (second.standing name).Orphaned
    next => simp [orphaned, orphaned']
    next => simp [orphaned, orphaned', apart.symm]
  next =>
    by_cases orphaned' : (second.standing name).Orphaned
    next => simp [orphaned, orphaned', apart]
    next => simp [orphaned, orphaned']

end Gate

/-! ## A stranger asking for a name -/

/-- May read one environment, which is not the one asked for. -/
def stranger : Capability where
  principal := lit "rollout"
  scope := ⟨.READ, [.exact (lit "env_1")], none⟩
  expires_at_us := 10
  not_before_us := 0
  token_id := lit "t"
  commit := none

def secret : EnvName := ⟨"org/secret"⟩

def registering : Act Environment := create_env ⟨"env_2"⟩ secret "owner" DEFAULT_REF [] none

/-- Before anyone asked for the name. -/
def unasked : World := .empty 0

/-- The creation stopped between its claim and its record. -/
def stopped : World := (runs .none (registering.cut 2) unasked).2

def created : World := (runs .none registering unasked).2

theorem stranger_closed : (created.standing secret).Closed stranger.scope := by
  have standing : created.standing secret = .registered ⟨"env_2"⟩
      { env_id := ⟨"env_2"⟩, name := secret, default_ref := DEFAULT_REF, state := .active, owner := "owner",
        labels := [], forked_from_env := none, forked_from_commit := none, created_at_us := 0 } := by
    decide
  rw [standing]
  intro operation
  refine Bool.eq_false_iff.mpr fun permitted => ?_
  obtain ⟨-, -, selector, member, covered⟩ := Scope.permits_iff.mp permitted
  obtain rfl : selector = .exact (lit "env_1") := List.mem_singleton.mp member
  exact absurd covered (by decide)

/-- A claim without a record is told apart from a name nobody claimed. -/
theorem stopped_creation_shows :
    stranger.scope.could_name secret = false ∧ (unasked.standing secret).Closed stranger.scope ∧
      (stopped.standing secret).Closed stranger.scope ∧
      (runs .none (authorize_env stranger secret .READ) unasked).1 = .error refused ∧
      (runs .none (authorize_env stranger secret .READ) stopped).1 =
        .error (.notFound "environment does not exist") := by
  have before : unasked.standing secret = .unregistered := by decide
  have after : stopped.standing secret = .claimed ⟨"env_2"⟩ := by decide
  rw [authorize_env_answers, authorize_env_answers, before, after]
  exact ⟨by decide, trivial, trivial, by simp [show stranger.scope.could_name secret = false by decide], rfl⟩

/-- A registered name and one nobody claimed. -/
theorem existence_hidden_registered :
    (runs .none (authorize_env stranger secret .READ) unasked).1 =
      (runs .none (authorize_env stranger secret .READ) created).1 :=
  (existence_hidden (by decide) (by rw [show unasked.standing secret = .unregistered by decide]; trivial)
    stranger_closed).mpr (by decide)

end LedgerVcs
