import LedgerVcs.Auth.Model

set_option autoImplicit false

namespace LedgerVcs

open Text (PyStr lit)

/-- `str(name)` -/
def ObjectName.str (name : ObjectName) : PyStr := lit "b3:" ++ Text.hex name.digest

theorem ObjectName.str_injective {left right : ObjectName} (same : left.str = right.str) : left = right := by
  have digests := congrArg Text.fromhex (List.append_cancel_left same)
  rw [Text.fromhex_hex, Text.fromhex_hex] at digests
  exact ObjectName.ext (Option.some.inj digests)

/-! ## Capabilities -/

structure Capability where
  principal : PyStr
  scope : Scope
  expires_at_us : Int
  not_before_us : Int
  token_id : PyStr
  commit : Option PyStr
deriving DecidableEq

/-- The signed payload. -/
structure Claims where
  sub : PyStr
  scp : List PyStr
  sel : List PyStr
  exp : Int
  nbf : Int
  jti : PyStr
  env : Option PyStr
  cmt : Option PyStr
deriving DecidableEq

namespace Capability

def to_claims (capability : Capability) : Claims where
  sub := capability.principal
  scp := render_operations capability.scope.operations
  sel := capability.scope.selectors.map Selector.render
  exp := capability.expires_at_us
  nbf := capability.not_before_us
  jti := capability.token_id
  env := capability.scope.env_id
  cmt := capability.commit

def from_claims (claims : Claims) : Except PyError Capability := do
  let operations ← parse_operations claims.scp
  let selectors ← claims.sel.mapM parse_selector
  return { principal := claims.sub, scope := ⟨operations, selectors, claims.env⟩, expires_at_us := claims.exp,
           not_before_us := claims.nbf, token_id := claims.jti, commit := claims.cmt }

/-- `TokenVerifier.verify`, once the signature over the claims has been checked. -/
def verify (claims : Claims) (now_us : Int) : Except PyError Capability := do
  let capability ←
    match from_claims claims with
    | .ok capability => pure capability
    | .error _ => .error (.unauthenticated "token claims are not well formed")
  ensure (now_us < capability.expires_at_us) (.unauthenticated "token has expired")
  ensure (capability.not_before_us ≤ now_us) (.unauthenticated "token is not yet valid")
  return capability

/-- What an unauthenticated request has in development mode. -/
def dev_capability : Capability where
  principal := lit "dev"
  scope := ⟨BitVec.allOnes 7, [.namePrefix (lit "*")], none⟩
  expires_at_us := 2 ^ 62
  not_before_us := 0
  token_id := lit "dev"
  commit := none

/-- A capability that a request can carry. -/
def Held (capability : Capability) : Prop :=
  capability = dev_capability ∨ ∃ claims now_us, verify claims now_us = .ok capability

theorem verify_ok {claims : Claims} {now_us : Int} {capability : Capability} :
    verify claims now_us = .ok capability ↔
      from_claims claims = .ok capability ∧ capability.not_before_us ≤ now_us ∧
        now_us < capability.expires_at_us := by
  rw [verify]
  cases from_claims claims with
  | error => simp [bind, Except.bind]
  | ok other =>
    simp only [Monads.except_bind_ok, ensure_ok, pure, Except.pure, Except.ok.injEq]
    constructor
    next => rintro ⟨_, rfl, _, unexpired, _, valid, rfl⟩; exact ⟨rfl, valid, unexpired⟩
    next => rintro ⟨rfl, valid, unexpired⟩; exact ⟨_, rfl, (), unexpired, (), valid, rfl⟩

theorem parsed_plain {rendered : List PyStr} {selectors : List Selector}
    (parsed : rendered.mapM parse_selector = .ok selectors) : ∀ selector ∈ selectors, selector.Plain := by
  induction rendered generalizing selectors with
  | nil => cases parsed; simp
  | cons first rest ih =>
    simp only [List.mapM_cons, Monads.except_bind_ok, pure, Except.pure, Except.ok.injEq] at parsed
    obtain ⟨selector, head, others, tail, rfl⟩ := parsed
    exact List.forall_mem_cons.mpr ⟨Selector.parse_plain head, ih tail⟩

theorem Held.plain {capability : Capability} (held : capability.Held) :
    ∀ selector ∈ capability.scope.selectors, selector.Plain := by
  rcases held with rfl | ⟨claims, now_us, verified⟩
  next => simp [dev_capability, Selector.Plain]
  next =>
    have parsed := (verify_ok.mp verified).1
    simp only [from_claims, Monads.except_bind_ok, pure, Except.pure, Except.ok.injEq] at parsed
    obtain ⟨operations, _, selectors, read, rfl⟩ := parsed
    exact parsed_plain read

theorem render_parses {selectors : List Selector} (plain : ∀ selector ∈ selectors, selector.Plain) :
    (selectors.map Selector.render).mapM parse_selector = .ok selectors := by
  induction selectors with
  | nil => rfl
  | cons selector selectors ih =>
    obtain ⟨first, rest⟩ := List.forall_mem_cons.mp plain
    rw [List.map_cons, List.mapM_cons, Selector.parse_render first, ih rest]
    rfl

/-- A capability with plain selectors survives being signed and verified. -/
theorem from_to_claims {capability : Capability}
    (plain : ∀ selector ∈ capability.scope.selectors, selector.Plain) :
    from_claims capability.to_claims = .ok capability := by
  rw [from_claims, to_claims, parse_render_operations, render_parses plain]
  rfl

/-- What the bearer may do at a time. -/
def Allows (capability : Capability) (now_us : Int) (operation : Operation) (env_id : EnvId) (name : EnvName)
    (labels : PyStr → Option PyStr) (commit : ObjectName) : Prop :=
  (capability.not_before_us ≤ now_us ∧ now_us < capability.expires_at_us) ∧
    capability.scope.permits operation env_id name labels = true ∧
      ∀ pin, capability.commit = some pin → pin = commit.str

end Capability

/-! ## Minting -/

/-- `TokenSigner.mint`; the identifier of the token is drawn. -/
def mint (now_us : Int) (token_id principal : PyStr) (scope : Scope) (ttl_us : Int) (commit : Option ObjectName) :
    Claims :=
  Capability.to_claims
    { principal, scope, expires_at_us := now_us + ttl_us, not_before_us := now_us, token_id,
      commit := commit.map ObjectName.str }

structure MintTokenRequest where
  principal : PyStr
  ttl_seconds : Int
  operations : Option (List PyStr)
  env_id : Option PyStr
  commit : Option ObjectName
  bounded : 1 ≤ ttl_seconds ∧ ttl_seconds ≤ 86400

namespace MintTokenRequest

def requested (body : MintTokenRequest) (caller : Capability) : Except PyError Operation :=
  match body.operations with
  | none | some [] => .ok caller.scope.operations
  | some labels => parse_operations labels

def ttl_us (body : MintTokenRequest) : Int := body.ttl_seconds * 1000000

end MintTokenRequest

def mint_token (body : MintTokenRequest) (caller : Capability) (now_us : Int) (token_id : PyStr) :
    Except PyError Claims := do
  let requested ← body.requested caller
  ensure (requested &&& ~~~caller.scope.operations = 0)
    (.forbidden "a minted token cannot widen the authority of the token minting it")
  let scope := caller.scope.narrow (some requested) body.env_id
  return mint now_us token_id body.principal scope body.ttl_us body.commit

/-- The token permits nothing that the capability does not permit at the same time. -/
def Contained (claims : Claims) (caller : Capability) : Prop :=
  ∀ now_us operation env_id name labels commit,
    (∃ minted, Capability.verify claims now_us = .ok minted ∧
      minted.Allows now_us operation env_id name labels commit) →
    caller.Allows now_us operation env_id name labels commit

/-- Some operation on some environment is within both the caller's scope and the request. -/
def MintTokenRequest.Leaves (body : MintTokenRequest) (caller : Capability) : Prop :=
  ∃ operation env_id name labels, caller.scope.permits operation env_id name labels = true ∧
    (∀ requested, body.requested caller = .ok requested → requested &&& operation ≠ 0) ∧
      ∀ pin, caller.scope.env_id = none → body.env_id = some pin → pin = lit env_id.value

theorem within_operations {requested operations : Operation} (within : requested &&& ~~~operations = 0) :
    operations &&& requested = requested := by
  ext bit bound
  have inside : (requested &&& ~~~operations)[bit] = false := by
    rw [within]
    exact BitVec.getElem_zero bound
  rw [BitVec.getElem_and, BitVec.getElem_not] at inside
  rw [BitVec.getElem_and]
  revert inside
  cases requested[bit] <;> cases operations[bit] <;> decide

theorem mint_token_ok {body : MintTokenRequest} {caller : Capability} {now_us : Int} {token_id : PyStr}
    {claims : Claims} :
    mint_token body caller now_us token_id = .ok claims ↔
      ∃ requested, body.requested caller = .ok requested ∧ requested &&& ~~~caller.scope.operations = 0 ∧
        claims = mint now_us token_id body.principal (caller.scope.narrow (some requested) body.env_id)
          body.ttl_us body.commit := by
  simp only [mint_token, Monads.except_bind_ok, ensure_ok, pure, Except.pure, Except.ok.injEq, eq_comm (a := claims),
    exists_and_left, exists_const]

theorem narrowed_permits {scope : Scope} {requested operation : Operation} {pin : Option PyStr} {env_id : EnvId}
    {name : EnvName} {labels : PyStr → Option PyStr} (within : requested &&& ~~~scope.operations = 0) :
    (scope.narrow (some requested) pin).permits operation env_id name labels = true ↔
      scope.permits operation env_id name labels = true ∧ requested &&& operation ≠ 0 ∧
        ∀ own, scope.env_id = none → pin = some own → own = lit env_id.value := by
  have same : (scope.narrow (some requested) pin).operations = requested := within_operations within
  constructor
  next =>
    intro permitted
    obtain ⟨pinned, overlaps, -⟩ := Scope.permits_iff.mp permitted
    refine ⟨Scope.narrow_permits permitted, same ▸ overlaps, fun own unpinned asked => pinned own ?_⟩
    change (if scope.env_id = none then pin else scope.env_id) = some own
    rw [if_pos unpinned, asked]
  next =>
    rintro ⟨permitted, overlaps, asked⟩
    obtain ⟨pinned, -, selected⟩ := Scope.permits_iff.mp permitted
    refine Scope.permits_iff.mpr ⟨fun own there => ?_, by rwa [same], selected⟩
    change (if scope.env_id = none then pin else scope.env_id) = some own at there
    by_cases unpinned : scope.env_id = none
    next => exact asked own unpinned (by rwa [if_pos unpinned] at there)
    next => exact pinned own (by rwa [if_neg unpinned] at there)

/-- Two names that no text is the spelling of both of. -/
theorem unpinned_commit {pin : PyStr} (every : ∀ commit : ObjectName, pin = commit.str) : False := by
  have zeros := every ⟨List.replicate DIGEST_BYTES 0, rfl⟩
  have ones := every ⟨List.replicate DIGEST_BYTES 1, rfl⟩
  have same := ObjectName.str_injective (zeros.symm.trans ones)
  exact absurd (congrArg ObjectName.digest same) (by decide)

/-- A minted token stays within its minter exactly when its life and its commit do, unless it is good for
nothing anyway. -/
theorem mint_contained_exact (body : MintTokenRequest) (caller : Capability) (held : caller.Held) (now_us : Int)
    (token_id : PyStr) (claims : Claims) (minted : mint_token body caller now_us token_id = .ok claims) :
    Contained claims caller ↔
      (body.Leaves caller →
        (caller.not_before_us ≤ now_us ∧ now_us + body.ttl_us ≤ caller.expires_at_us) ∧
          ∀ pin, caller.commit = some pin → body.commit.map ObjectName.str = some pin) := by
  obtain ⟨requested, asked, within, rfl⟩ := mint_token_ok.mp minted
  obtain ⟨capability, built⟩ : ∃ capability : Capability, capability =
      { principal := body.principal, scope := caller.scope.narrow (some requested) body.env_id,
        expires_at_us := now_us + body.ttl_us, not_before_us := now_us, token_id,
        commit := body.commit.map ObjectName.str } := ⟨_, rfl⟩
  have reads (time : Int) (other : Capability) :
      Capability.verify (mint now_us token_id body.principal (caller.scope.narrow (some requested) body.env_id)
        body.ttl_us body.commit) time = .ok other ↔
      other = capability ∧ now_us ≤ time ∧ time < now_us + body.ttl_us := by
    have parses := @Capability.from_to_claims capability (by rw [built]; exact held.plain)
    rw [Capability.verify_ok, mint, ← built, parses, Except.ok.injEq]
    constructor
    next => rintro ⟨rfl, window⟩; rw [built] at window; exact ⟨rfl, window⟩
    next => rintro ⟨rfl, window⟩; rw [built]; exact ⟨rfl, window⟩
  constructor
  next =>
    rintro contained ⟨operation, env_id, name, labels, permitted, overlaps, here⟩
    have narrowed : (caller.scope.narrow (some requested) body.env_id).permits operation env_id name labels = true :=
      (narrowed_permits within).mpr ⟨permitted, overlaps requested asked, here⟩
    have positive : 0 < body.ttl_us := by
      have := body.bounded.1
      rw [MintTokenRequest.ttl_us]
      omega
    have allowed (time : Int) (commit : ObjectName) (start : now_us ≤ time) (stop : time < now_us + body.ttl_us)
        (fits : ∀ pin, body.commit.map ObjectName.str = some pin → pin = commit.str) :
        caller.Allows time operation env_id name labels commit := by
      refine contained time operation env_id name labels commit ⟨capability, (reads _ _).mpr ⟨rfl, start, stop⟩, ?_⟩
      rw [built]
      exact ⟨⟨start, stop⟩, narrowed, fits⟩
    cases pinned : body.commit with
    | none =>
      have every (commit : ObjectName) (pin : PyStr) (same : body.commit.map ObjectName.str = some pin) :
          pin = commit.str := by rw [pinned] at same; cases same
      have start := allowed now_us ⟨List.replicate DIGEST_BYTES 0, rfl⟩ (le_refl _) (by omega) (every _)
      have stop := allowed (now_us + body.ttl_us - 1) ⟨List.replicate DIGEST_BYTES 0, rfl⟩ (by omega) (by omega)
        (every _)
      refine ⟨⟨start.1.1, by have := stop.1.2; omega⟩, fun pin same => ?_⟩
      exact (unpinned_commit fun commit =>
        (allowed now_us commit (le_refl _) (by omega) (every _)).2.2 pin same).elim
    | some commit =>
      have only (pin : PyStr) (same : body.commit.map ObjectName.str = some pin) : pin = commit.str := by
        rw [pinned] at same
        exact (Option.some.inj same).symm
      have start := allowed now_us commit (le_refl _) (by omega) only
      have stop := allowed (now_us + body.ttl_us - 1) commit (by omega) (by omega) only
      refine ⟨⟨start.1.1, by have := stop.1.2; omega⟩, fun pin same => ?_⟩
      rw [start.2.2 pin same, Option.map_some]
  next =>
    rintro fits time operation env_id name labels commit ⟨other, verified, allowed⟩
    obtain ⟨rfl, start, stop⟩ := (reads _ _).mp verified
    rw [built] at allowed
    obtain ⟨permitted, overlaps, here⟩ := (narrowed_permits within).mp allowed.2.1
    have leaves : body.Leaves caller :=
      ⟨operation, env_id, name, labels, permitted,
        fun again same => Except.ok.inj (asked.symm.trans same) ▸ overlaps, here⟩
    obtain ⟨⟨began, ends⟩, pins⟩ := fits leaves
    exact ⟨⟨by omega, by omega⟩, permitted, fun pin same => allowed.2.2 pin (pins pin same)⟩

/-- Reads the first of two commits, for a minute. -/
def rolloutClaims : Claims where
  sub := lit "job:rollout/r-1"
  scp := [lit "env:read"]
  sel := [lit "name:*"]
  exp := 60000000
  nbf := 0
  jti := lit "t"
  env := none
  cmt := some (ObjectName.str ⟨List.replicate DIGEST_BYTES 0, zeros_sized⟩)

def rollout : Capability where
  principal := lit "job:rollout/r-1"
  scope := ⟨.READ, [.namePrefix (lit "*")], none⟩
  expires_at_us := 60000000
  not_before_us := 0
  token_id := lit "t"
  commit := some (ObjectName.str ⟨List.replicate DIGEST_BYTES 0, rfl⟩)

theorem rollout_held : rollout.Held := .inr ⟨rolloutClaims, 0, by decide⟩

/-- Asks for nothing less than the caller has. -/
def wholeRequest (ttl_seconds : Int) (commit : Option ObjectName)
    (bounded : 1 ≤ ttl_seconds ∧ ttl_seconds ≤ 86400) : MintTokenRequest :=
  ⟨lit "job:rollout/r-2", ttl_seconds, none, none, commit, bounded⟩

/-- For the caller's own commit, and no longer than the caller. -/
def sameCommit : MintTokenRequest := wholeRequest 60 (some ⟨List.replicate DIGEST_BYTES 0, rfl⟩) (by decide)

theorem mint_contained_minute :
    ∃ claims, mint_token sameCommit rollout 0 [] = .ok claims ∧ Contained claims rollout :=
  ⟨_, rfl, (mint_contained_exact sameCommit rollout rollout_held 0 [] _ rfl).mpr fun _ =>
    ⟨by decide, fun _ same => same⟩⟩

/-- A token for one commit mints one for all of them. -/
theorem minted_reads_another_commit :
    rollout.Held ∧ ∃ claims, mint_token (wholeRequest 3600 none (by decide)) rollout 0 [] = .ok claims ∧
      ¬ Contained claims rollout := by
  refine ⟨rollout_held, _, rfl, fun contained => ?_⟩
  let other : ObjectName := ⟨List.replicate DIGEST_BYTES 1, rfl⟩
  have allowed := contained 0 .READ ⟨"env"⟩ ⟨"o/e"⟩ (fun _ => none) other
    ⟨{ rollout with principal := lit "job:rollout/r-2", expires_at_us := 3600000000, token_id := [], commit := none },
      by decide, by decide, by decide, fun pin none => by cases none⟩
  exact absurd (allowed.2.2 _ rfl) (by decide)

end LedgerVcs
