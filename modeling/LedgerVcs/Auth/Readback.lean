import LedgerVcs.Auth.Tokens

set_option autoImplicit false

/-! What a capability means when it has been through a token. -/

namespace LedgerVcs

open Text (PyStr CodePoint lit)

/-! ## Texts in JSON -/

def isHighSurrogate (point : CodePoint) : Bool := 0xd800 ≤ point.val ∧ point.val ≤ 0xdbff

def isLowSurrogate (point : CodePoint) : Bool := 0xdc00 ≤ point.val ∧ point.val ≤ 0xdfff

/-- `json.loads(json.dumps(text))`: what is beyond 16 bits is written as two escapes, and two such escapes are read as one
character. -/
def json_text : PyStr → PyStr
  | [] => []
  | [point] => [point]
  | high :: low :: rest =>
    if isHighSurrogate high ∧ isLowSurrogate low then
      Fin.ofNat _ (0x10000 + (high.val - 0xd800) * 0x400 + (low.val - 0xdc00)) :: json_text rest
    else high :: json_text (low :: rest)

/-- No two of the characters are one when they are read back. -/
def Unpaired (text : PyStr) : Prop := text.IsChain fun high low => ¬ (isHighSurrogate high = true ∧ isLowSurrogate low = true)

instance (text : PyStr) : Decidable (Unpaired text) := inferInstanceAs (Decidable (List.IsChain _ text))

theorem json_unpaired {text : PyStr} (unpaired : Unpaired text) : json_text text = text := by
  induction text using json_text.induct with
  | case1 => rfl
  | case2 => rfl
  | case3 high low rest pair => exact absurd pair (List.isChain_cons_cons.mp unpaired).1
  | case4 high low rest apart ih => rw [json_text, if_neg apart, ih (List.isChain_cons_cons.mp unpaired).2]

/-- `json.loads(json.dumps(claims))` -/
def Claims.json (claims : Claims) : Claims where
  sub := json_text claims.sub
  scp := claims.scp.map json_text
  sel := claims.sel.map json_text
  exp := claims.exp
  nbf := claims.nbf
  jti := json_text claims.jti
  env := claims.env.map json_text
  cmt := claims.cmt.map json_text

theorem operations_unpaired (operations : Operation) : (render_operations operations).map json_text = render_operations operations := by
  have every : ∀ known ∈ BY_LABEL.map Prod.fst, json_text known = known := by decide
  refine (List.map_congr_left fun label member => every label ?_).trans (List.map_id _)
  obtain ⟨known, there, rfl⟩ := List.mem_map.mp member
  exact List.mem_map_of_mem (List.mem_of_mem_filter there)

/-! ## Selectors -/

namespace Selector

/-- No separator inside a label. -/
def Separated : Selector → Prop
  | .label required => ∀ pair ∈ required, EQUALS ∉ pair.1 ∧ COMMA ∉ pair.1 ∧ COMMA ∉ pair.2
  | _ => True

/-- The same labels, in order. -/
def ordered : Selector → Selector
  | .label required => .label (required.mergeSort pair_le)
  | other => other

theorem parse_separated {selector : Selector} (separated : selector.Separated) :
    parse_selector selector.render = .ok selector.ordered := by
  cases selector with
  | label required =>
    rw [parse_selector, render, Text.partition_append _ (by decide)]
    simp only [pairs_parse separated]
    rfl
  | _ => exact parse_render trivial

theorem ordered_covers (env_id : EnvId) (name : EnvName) (labels : PyStr → Option PyStr) (selector : Selector) :
    selector.ordered.covers env_id name labels = selector.covers env_id name labels := by
  cases selector with
  | label required => exact (List.mergeSort_perm required pair_le).all_eq
  | _ => rfl

end Selector

/-! ## Capabilities -/

namespace Capability

/-- What is read back permits the same, at the same commit and for as long. -/
def Means (capability : Capability) : Prop :=
  ∃ read, from_claims capability.to_claims.json = .ok read ∧
    (∀ operation env_id name labels,
      read.scope.permits operation env_id name labels = capability.scope.permits operation env_id name labels) ∧
    read.commit = capability.commit ∧ read.not_before_us = capability.not_before_us ∧
      read.expires_at_us = capability.expires_at_us

/-- No label has a separator in it, and JSON leaves the selectors and the pins alone. -/
structure Clean (capability : Capability) : Prop where
  selectors : ∀ selector ∈ capability.scope.selectors, selector.Separated ∧ Unpaired selector.render
  env : ∀ pin, capability.scope.env_id = some pin → Unpaired pin
  commit : ∀ pin, capability.commit = some pin → Unpaired pin

theorem json_pin {pin : Option PyStr} (unpaired : ∀ text, pin = some text → Unpaired text) : pin.map json_text = pin := by
  cases pin with
  | none => rfl
  | some text => exact congrArg some (json_unpaired (unpaired text rfl))

theorem clean_means {capability : Capability} (clean : capability.Clean) : capability.Means := by
  have selectors : ((capability.scope.selectors.map Selector.render).map json_text).mapM parse_selector =
      .ok (capability.scope.selectors.map Selector.ordered) := by
    have each := clean.selectors
    generalize capability.scope.selectors = selectors at each
    induction selectors with
    | nil => rfl
    | cons selector selectors ih =>
      obtain ⟨⟨separated, unpaired⟩, rest⟩ := List.forall_mem_cons.mp each
      rw [List.map_cons, List.map_cons, List.mapM_cons, json_unpaired unpaired, Selector.parse_separated separated, ih rest]
      rfl
  refine ⟨{ capability with
      principal := json_text capability.principal
      token_id := json_text capability.token_id
      scope := { capability.scope with selectors := capability.scope.selectors.map Selector.ordered } }, ?_,
    fun operation env_id name labels => ?_, rfl, rfl, rfl⟩
  next =>
    rw [from_claims, Claims.json, to_claims]
    dsimp only
    rw [operations_unpaired, parse_render_operations, selectors, json_pin clean.env, json_pin clean.commit]
    rfl
  next =>
    have same : (capability.scope.selectors.map Selector.ordered).any (Selector.covers env_id name labels) =
        capability.scope.selectors.any (Selector.covers env_id name labels) := by
      simp only [List.any_map, Function.comp_def, Selector.ordered_covers]
    simp only [Scope.permits, same]

end Capability

/-! ## One label selector -/

/-- No label is required to have two values. -/
def Satisfiable (required : List (PyStr × PyStr)) : Prop :=
  ∀ pair ∈ required, ∀ other ∈ required, pair.1 = other.1 → pair.2 = other.2

/-- The labels that are just those required. -/
def required_labels (required : List (PyStr × PyStr)) (key : PyStr) : Option PyStr :=
  (required.find? fun pair => pair.1 = key).map Prod.snd

theorem required_mem {required : List (PyStr × PyStr)} {key value : PyStr} (found : required_labels required key = some value) :
    (key, value) ∈ required := by
  obtain ⟨⟨own, value⟩, first, rfl⟩ := Option.map_eq_some_iff.mp found
  have same : own = key := by simpa using List.find?_some first
  exact same ▸ List.mem_of_find?_eq_some first

theorem required_covers {required : List (PyStr × PyStr)} (satisfiable : Satisfiable required) (env_id : EnvId) (name : EnvName) :
    (Selector.label required).covers env_id name (required_labels required) = true := by
  refine List.all_eq_true.mpr fun pair member => decide_eq_true ?_
  cases found : required_labels required pair.1 with
  | none =>
    rw [required_labels, Option.map_eq_none_iff, List.find?_eq_none] at found
    exact absurd (decide_eq_true rfl) (found pair member)
  | some value => exact congrArg some (satisfiable (pair.1, value) (required_mem found) pair member rfl)

theorem covers_mem {required other : List (PyStr × PyStr)} {env_id : EnvId} {name : EnvName}
    (covers : (Selector.label required).covers env_id name (required_labels other) = true) : ∀ pair ∈ required, pair ∈ other :=
  fun pair member => required_mem (of_decide_eq_true (List.all_eq_true.mp covers pair member))

/-- Selectors that cover the same require the same labels. -/
theorem same_required {required other : List (PyStr × PyStr)} (satisfiable : Satisfiable required) {env_id : EnvId} {name : EnvName}
    (same : ∀ labels, (Selector.label other).covers env_id name labels = (Selector.label required).covers env_id name labels) :
    ∀ pair, pair ∈ other ↔ pair ∈ required := by
  have within : ∀ pair ∈ other, pair ∈ required := covers_mem ((same _).trans (required_covers satisfiable env_id name))
  have satisfiable' : Satisfiable other := fun pair member pair' member' => satisfiable pair (within pair member) pair' (within pair' member')
  exact fun pair => ⟨within pair, covers_mem ((same _).symm.trans (required_covers satisfiable' env_id name)) pair⟩

theorem lit_unpaired (text : String) : Unpaired (lit text) := by
  have plain : ∀ point ∈ lit text, isHighSurrogate point = false := by
    intro point member
    obtain ⟨char, -, rfl⟩ := List.mem_map.mp member
    have valid : (Text.ofChar char).val.isValidChar := char.valid
    rw [Nat.isValidChar] at valid
    simp only [isHighSurrogate, decide_eq_false_iff_not]
    omega
  generalize lit text = points at plain
  induction points with
  | nil => exact .nil
  | cons point points ih =>
    obtain ⟨here, others⟩ := List.forall_mem_cons.mp plain
    cases points with
    | nil => exact .singleton _
    | cons next points => exact List.isChain_cons_cons.mpr ⟨fun pair => by rw [here] at pair; exact absurd pair.1 (by decide), ih others⟩

/-- Whom an environment's pin, if there is one, lets through. -/
theorem permits_covers {scope : Scope} {env_id : EnvId} (pinned : ∀ pin, scope.env_id = some pin → pin = lit env_id.value)
    (allowed : scope.operations ≠ 0) (name : EnvName) (labels : PyStr → Option PyStr) {selector : Selector} (only : scope.selectors = [selector]) :
    scope.permits scope.operations env_id name labels = selector.covers env_id name labels := by
  rw [Bool.eq_iff_iff, Scope.permits_iff, only, BitVec.and_self]
  constructor
  next =>
    rintro ⟨-, -, member, only', covers⟩
    exact List.mem_singleton.mp only' ▸ covers
  next => exact fun covers => ⟨pinned, allowed, selector, List.mem_singleton_self selector, covers⟩

theorem label_means {capability : Capability} {required : List (PyStr × PyStr)} (allowed : capability.scope.operations ≠ 0)
    (only : capability.scope.selectors = [.label required]) (satisfiable : Satisfiable required)
    (unpaired : Unpaired (Selector.label required).render) {env_id : EnvId}
    (pinned : ∀ pin, capability.scope.env_id = some pin → pin = lit env_id.value) (means : capability.Means) :
    (Selector.label required).Separated := by
  obtain ⟨read, reads, permits, -⟩ := means
  have pins : capability.scope.env_id.map json_text = capability.scope.env_id := Capability.json_pin fun pin same => by
    rw [pinned pin same]
    exact lit_unpaired env_id.value
  simp only [Capability.from_claims, Claims.json, Capability.to_claims, operations_unpaired, parse_render_operations, only, List.map_cons,
    List.map_nil, json_unpaired unpaired, pins, List.mapM_cons, List.mapM_nil, Monads.except_bind_ok, pure, Except.pure,
    Except.ok.injEq] at reads
  obtain ⟨_, rfl, _, ⟨selector, parsed, _, rfl, rfl⟩, rfl⟩ := reads
  have plain := Selector.parse_plain parsed
  rw [parse_selector, Selector.render, Text.partition_append _ (by decide)] at parsed
  obtain ⟨other, rfl⟩ : ∃ other, selector = .label other := ⟨_, (Except.ok.inj parsed).symm⟩
  have covers (labels : PyStr → Option PyStr) :
      (Selector.label other).covers env_id ⟨""⟩ labels = (Selector.label required).covers env_id ⟨""⟩ labels := by
    rw [← permits_covers pinned allowed ⟨""⟩ labels only, ← permits]
    exact (@permits_covers ⟨capability.scope.operations, [.label other], capability.scope.env_id⟩ env_id pinned allowed ⟨""⟩ labels _ rfl).symm
  exact fun pair member => plain.1 pair ((same_required satisfiable covers pair).mpr member)

/-- A token has the meaning of a capability without separators in its labels, and of no capability whose one selector has them. -/
theorem tokens_mean (capability : Capability) (required : List (PyStr × PyStr)) (env_id : EnvId) :
    (capability.Clean → capability.Means) ∧
      (capability.scope.operations ≠ 0 → capability.scope.selectors = [.label required] → Satisfiable required →
        Unpaired (Selector.label required).render → (∀ pin, capability.scope.env_id = some pin → pin = lit env_id.value) →
        (∀ pin, capability.commit = some pin → Unpaired pin) → (capability.Means ↔ (Selector.label required).Separated)) := by
  refine ⟨Capability.clean_means, fun allowed only satisfiable unpaired pinned commit =>
    ⟨label_means allowed only satisfiable unpaired pinned, fun separated => Capability.clean_means ⟨?_, ?_, commit⟩⟩⟩
  next =>
    rw [only]
    exact List.forall_mem_singleton.mpr ⟨separated, unpaired⟩
  next =>
    intro pin same
    rw [pinned pin same]
    exact lit_unpaired env_id.value

/-- A reader of what is labelled. -/
def label_reader (required : List (PyStr × PyStr)) : Capability where
  principal := lit "rollout"
  scope := ⟨1, [.label required], none⟩
  expires_at_us := 60000000
  not_before_us := 0
  token_id := lit "01"
  commit := none

theorem tokens_mean_read :
    (label_reader [(lit "team", lit "rl"), (lit "family", lit "swe")]).Means ∧
      ¬ (label_reader [(lit "a=b", lit "c")]).Means := by
  have exact_for (required : List (PyStr × PyStr)) (satisfiable : Satisfiable required) (unpaired : Unpaired (Selector.label required).render) :
      (label_reader required).Means ↔ (Selector.label required).Separated :=
    (tokens_mean (label_reader required) required ⟨""⟩).2 (by simp [label_reader]) rfl satisfiable unpaired
      (fun _ pinned => by cases pinned) fun _ pinned => by cases pinned
  constructor
  next =>
    refine (exact_for _ ?_ (by decide)).mpr ?_
    next => simp [Satisfiable]; decide
    next => simp [Selector.Separated]; decide
  next =>
    refine fun means => absurd ((exact_for _ ?_ (by decide)).mp means) ?_
    next => simp [Satisfiable]
    next => simp [Selector.Separated]; decide

/-- What was one label is read as two. -/
theorem comma_splits : ∃ capability : Capability, ¬ capability.Means := by
  refine ⟨label_reader [(lit "a", lit "b,c=d")], fun means => ?_⟩
  have free : ∀ pin, (none : Option PyStr) = some pin → pin = lit (EnvId.mk "").value := fun _ pinned => by cases pinned
  have separated := label_means (by decide) rfl (by simp [Satisfiable]) (by decide) free means
  exact (separated _ (List.mem_singleton_self _)).2.2 (by decide)

end LedgerVcs
