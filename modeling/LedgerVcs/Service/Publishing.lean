import LedgerVcs.Lib.Descent
import LedgerVcs.Lib.Lasting
import LedgerVcs.Maintenance.Race
import LedgerVcs.Meta.Chain

set_option autoImplicit false

/-! Any number of publishes to one ref at once. -/

namespace LedgerVcs

open Prog (Actor Contract Pool Traced)

/-! ## The publishers -/

/-- Commands of what assembles a tree: it reads, and writes objects. -/
def Building : Cmd → Prop
  | .transact_write _ _ => False
  | .backend_delete _ => False
  | _ => True

structure Builder (corpus : Corpus) where
  build : TreeBuilder
  builds : ∀ current, (build current).Yields Building (answers corpus) fun _ => True

/-- A publisher takes its steps as it likes. -/
def publisher {ι : Type} (corpus : Corpus) (party : ι) : Actor Cmd Cmd.Response (Journal ι) :=
  ⟨Traced.exec (exec corpus) party, fun _ _ => True⟩

def World.ref_target (world : World) (env : EnvId) (ref : RefName) : Option ObjectName :=
  (world.partition env).refs[ref]?.map fun item => item.body.target

/-- Steps of others, which leave the ref alone and delete no object. -/
def Unrelated {ι : Type} (env : EnvId) (ref : RefName) (before after : Journal ι) : Prop :=
  after.trace = before.trace ∧
    (after.state.partition env).refs[ref]? = (before.state.partition env).refs[ref]? ∧
      before.state.backend ⊆ after.state.backend

/-- The publishes of one ref, each at its first step. -/
def publishes {ι : Type} (corpus : Corpus) (env : EnvId) (ref : RefName) (publications : ι → Publication)
    (builders : ι → Builder corpus) (world : World) :
    Pool ι Cmd Cmd.Response PyError (fun _ => CommitResult) (Journal ι) :=
  ⟨⟨world, []⟩, fun party => publish corpus { publications party with env, ref } (builders party).build⟩

/-! ## Where the ref has been put -/

/-- The first parent of the commit of this name, or that it has none. -/
def FirstParent (corpus : Corpus) (name : ObjectName) (parent : Option ObjectName) : Prop :=
  ∃ node, corpus.name_of (.commit node) = .ok name ∧ node.parents.head? = parent

def placement (ref : RefName) : WriteOp → Option ObjectName
  | .put (.ref name) body _ _ _ => if name = ref then some body.target else none
  | _ => none

section Trace

variable {ι : Type} (env : EnvId) (ref : RefName)

def placed_by : Prog.Event ι Cmd Cmd.Response → List (ι × ObjectName)
  | ⟨party, .transact_write pk writes, .ok ()⟩ =>
      if pk = env then (writes.filterMap (placement ref)).map fun target => (party, target) else []
  | _ => []

/-- Who has put the ref where, the latest first. -/
def placements (journal : Journal ι) : List (ι × ObjectName) := journal.trace.flatMap (placed_by env ref)

/-- Where the party has put the ref. -/
def won [DecidableEq ι] (party : ι) (journal : Journal ι) : List ObjectName :=
  ((placements env ref journal).filter fun put => put.1 = party).map Prod.snd

/-- The commits that the ref has been put at lead down to where it started, and a ref that still has the
generation at which it was read is as it was read. -/
structure Linear (corpus : Corpus) (start : Option ObjectName) (journal : Journal ι) : Prop where
  path : Descent.Path (FirstParent corpus) start (journal.state.ref_target env ref)
    ((placements env ref journal).map Prod.snd)
  stored : ∀ put ∈ placements env ref journal, put.2 ∈ journal.state.backend
  seen : ∀ item, HasRead env journal ref item →
    ∃ current : Item Ref, (journal.state.partition env).refs[ref]? = some current ∧
      (item.body.generation < current.body.generation ∧ current.generation = some current.body.generation ∨
        current = item)

end Trace

section Step

variable {ι : Type} {corpus : Corpus} {env : EnvId} {ref : RefName} {start : Option ObjectName} {party : ι}
  {journal : Journal ι}

/-! ## Steps that leave the ref alone -/

/-- Commands that put no ref and delete no object. -/
def Still (env : EnvId) : Cmd → Prop
  | .transact_write pk writes => pk = env → ∀ write ∈ writes, SessionWrite write
  | .backend_delete _ => False
  | _ => True

theorem building_still (command : Cmd) (building : Building command) : Still env command := by
  cases command with
  | transact_write => cases building
  | backend_delete => cases building
  | _ => trivial

theorem session_still (command : Cmd) (fits : SessionCmd env command) : Still env command := by
  cases command with
  | transact_write pk writes => exact fun _ => fits.2
  | backend_delete => cases fits
  | _ => trivial

theorem ref_still (command : Cmd) (fits : RefCmd env (fun _ => False) command) : Still env command := by
  cases command with
  | transact_write pk writes =>
    obtain ⟨-, move, -, impossible⟩ := fits
    exact impossible.elim
  | backend_delete => cases fits
  | _ => trivial

theorem reads_still (command : Cmd) (reads : Reads command) : Still env command := by
  obtain ⟨name, rfl⟩ := reads
  trivial

theorem session_placement {writes : List WriteOp} (fit : ∀ write ∈ writes, SessionWrite write) :
    writes.filterMap (placement ref) = [] := by
  refine List.filterMap_eq_nil_iff.mpr fun write member => ?_
  have session := fit write member
  cases write with
  | put key =>
    cases key with
    | ref => cases session
    | _ => rfl
  | _ => rfl

theorem still_refs {command : Cmd} (still : Still env command) (world : World) :
    ((exec corpus command world).2.partition env).refs = (world.partition env).refs := by
  cases command with
  | transact_write pk writes =>
    simp only [exec]
    cases applied : (world.partition pk).transact_write writes with
    | error => rfl
    | ok after =>
      by_cases same : pk = env
      next =>
        subst same
        dsimp only
        rw [partition_with_self]
        exact (transact_session (still rfl) applied).2.1
      next =>
        dsimp only
        rw [partition_with_of_ne world after same]
  | _ => rfl

theorem still_placed {command : Cmd} (still : Still env command) (response : command.Response) :
    placed_by env ref (⟨party, command, response⟩ : Prog.Event ι Cmd Cmd.Response) = [] := by
  cases command with
  | transact_write pk writes =>
    cases response with
    | error => rfl
    | ok =>
      simp only [placed_by]
      split
      next same => rw [session_placement (still same), List.map_nil]
      next => rfl
  | _ => rfl

theorem still_backend {command : Cmd} (still : Still env command) (world : World) :
    world.backend ⊆ (exec corpus command world).2.backend := by
  refine exec_backend fun name same => ?_
  rw [same] at still
  exact still

theorem quiet_linear {command : Cmd}
    (refs : ((exec corpus command journal.state).2.partition env).refs = (journal.state.partition env).refs)
    (backend : journal.state.backend ⊆ (exec corpus command journal.state).2.backend)
    (silent : placed_by env ref (⟨party, command, (exec corpus command journal.state).1⟩ : Prog.Event ι Cmd Cmd.Response) = []) :
    (Linear env ref corpus start journal →
        Linear env ref corpus start (Traced.exec (exec corpus) party command journal).2) ∧
      placements env ref (Traced.exec (exec corpus) party command journal).2 = placements env ref journal := by
  have same : placements env ref (Traced.exec (exec corpus) party command journal).2 = placements env ref journal := by
    simp only [placements, Traced.exec, List.flatMap_cons, silent, List.nil_append]
  refine ⟨fun linear => ⟨?_, fun put member => ?_, fun item read => ?_⟩, same⟩
  next =>
    rw [same, World.ref_target, Traced.exec, refs]
    exact linear.path
  next =>
    rw [same] at member
    exact backend (linear.stored put member)
  next =>
    rw [Traced.exec, refs]
    obtain ⟨other, member⟩ := read
    rcases List.mem_cons.mp member with now | before
    next =>
      -- The ref that is read now is the one that is there.
      obtain ⟨-, rfl, found⟩ := Prog.Event.mk.inj now
      exact ⟨item, (eq_of_heq found).symm, .inr rfl⟩
    next => exact linear.seen item ⟨other, before⟩

theorem exec_read {command : Cmd} {item : Item Ref} (read : HasRead env journal ref item) :
    HasRead env (Traced.exec (exec corpus) party command journal).2 ref item := by
  obtain ⟨other, member⟩ := read
  exact ⟨other, List.mem_cons_of_mem _ member⟩

/-! ## Moves of the ref -/

/-- A move that puts the ref at a commit whose parent is the ref as it was read. -/
inductive Extends (corpus : Corpus) (env : EnvId) (ref : RefName) (journal : Journal ι) (target : ObjectName)
    (move : Move) : Prop
  | creates {body : Ref} (named : move.name = ref) (placed : move.placed = some body) (puts : body.target = target)
      (condition : move.condition = .absent) (parent : FirstParent corpus target none)
  | swaps {body : Ref} {base read : Item Ref} (named : move.name = ref) (placed : move.placed = some body)
      (puts : body.target = target) (condition : move.condition = .generation_is base.body.generation)
      (parent : FirstParent corpus target (some base.body.target)) (next : body.generation = read.body.generation + 1)
      (based : HasRead env journal ref base) (again : HasRead env journal ref read)
      (onward : base.body.generation ≤ read.body.generation)

theorem carries_placement {move : Move} {writes : List WriteOp} {body : Ref} (carries : Carries move writes)
    (placed : move.placed = some body) : writes.filterMap (placement move.name) = [body.target] := by
  obtain ⟨-, -, -, accessories, fit, rfl⟩ := carries
  have none : accessories.filterMap (placement move.name) = [] := by
    refine List.filterMap_eq_nil_iff.mpr fun write member => ?_
    have accessory := fit write member
    cases write with
    | put key =>
      cases key with
      | change | idem => rfl
      | _ => cases accessory
    | _ => rfl
  rw [List.filterMap_append, List.filterMap_cons, List.filterMap_cons, none, Move.write, placed]
  simp [counter_writes, op_write, placement]

/-- A swap that goes through finds the ref as it was read first, and as it was read again. -/
theorem swap_found {expected : Int} {base read : Item Ref} (linear : Linear env ref corpus start journal)
    (required : require (some (.generation_is expected)) (journal.state.partition env).refs[ref]? (.ref ref) = .ok ())
    (expects : expected = base.body.generation) (based : HasRead env journal ref base)
    (again : HasRead env journal ref read) (onward : base.body.generation ≤ read.body.generation) :
    (journal.state.partition env).refs[ref]? = some base ∧ read = base := by
  obtain ⟨current, found, held⟩ := Option.bind_eq_some_iff.mp (require_generation.mp required)
  have only {other : Item Ref} (there : (journal.state.partition env).refs[ref]? = some other) : other = current :=
    Option.some.inj (there.symm.trans found)
  obtain ⟨first, there, early⟩ := linear.seen base based
  obtain ⟨second, there', late⟩ := linear.seen read again
  rw [only there] at early
  rw [only there'] at late
  rcases early with ⟨below, carried⟩ | rfl
  next =>
    have same := Option.some.inj (carried.symm.trans held)
    omega
  next =>
    rcases late with ⟨below, -⟩ | same
    next => omega
    next => exact ⟨found, same.symm⟩

theorem moving_linear {move : Move} {writes : List WriteOp} {after : Partition} {target : ObjectName}
    (linear : Linear env ref corpus start journal) (carries : Carries move writes)
    (extends' : Extends corpus env ref journal target move) (stored : target ∈ journal.state.backend)
    (applied : (journal.state.partition env).transact_write writes = .ok after) :
    Linear env ref corpus start (⟨journal.state.with_partition env after,
        ⟨party, .transact_write env writes, .ok ()⟩ :: journal.trace⟩ : Journal ι) ∧
      placements env ref (⟨journal.state.with_partition env after,
        ⟨party, .transact_write env writes, .ok ()⟩ :: journal.trace⟩ : Journal ι) =
          (party, target) :: placements env ref journal := by
  obtain ⟨required, -, -, refs, -⟩ := transact_move carries applied
  obtain ⟨body, named, placed, puts⟩ : ∃ body, move.name = ref ∧ move.placed = some body ∧ body.target = target := by
    cases extends' with
    | creates named placed puts => exact ⟨_, named, placed, puts⟩
    | swaps named placed puts => exact ⟨_, named, placed, puts⟩
  subst named puts
  have grown : placements env move.name (⟨journal.state.with_partition env after,
      ⟨party, .transact_write env writes, .ok ()⟩ :: journal.trace⟩ : Journal ι) =
        (party, body.target) :: placements env move.name journal := by
    simp only [placements, List.flatMap_cons, placed_by, if_true, carries_placement carries placed, List.map_cons,
      List.map_nil, List.singleton_append]
  have now : ((journal.state.with_partition env after).partition env).refs[move.name]? =
      some ⟨body, next_version (journal.state.partition env).refs[move.name]?, some body.generation,
        body.expires_at_us⟩ := by
    rw [partition_with_self, refs, Move.refs, placed]
    exact Std.ExtTreeMap.getElem?_insert_self
  -- The commit's parent is where the ref was, and whatever was read has a lower generation than the ref has now.
  obtain ⟨parent, above⟩ : FirstParent corpus body.target (journal.state.ref_target env move.name) ∧
      ∀ item, HasRead env journal move.name item → item.body.generation < body.generation := by
    cases extends' with
    | creates named placed puts condition parent =>
      rw [condition, require_absent] at required
      refine ⟨by rw [World.ref_target, required]; exact parent, fun item read => ?_⟩
      obtain ⟨current, found, -⟩ := linear.seen item read
      rw [required] at found
      cases found
    | swaps named placed' puts condition parent next based again onward =>
      obtain rfl := Option.some.inj (placed'.symm.trans placed)
      rw [condition] at required
      obtain ⟨found, rfl⟩ := swap_found linear required rfl based again onward
      refine ⟨by rw [World.ref_target, found]; exact parent, fun item read => ?_⟩
      obtain ⟨current, found', later⟩ := linear.seen item read
      obtain rfl := Option.some.inj (found'.symm.trans found)
      rcases later with ⟨below, -⟩ | rfl
      next => omega
      next => omega
  refine ⟨⟨?_, fun put member => ?_, fun item read => ?_⟩, grown⟩
  next =>
    rw [grown, World.ref_target, now]
    exact .step parent linear.path
  next =>
    rw [grown] at member
    rcases List.mem_cons.mp member with rfl | before
    next => exact stored
    next => exact linear.stored put before
  next =>
    obtain ⟨other, member⟩ := read
    rcases List.mem_cons.mp member with impossible | before
    next => cases congrArg Prog.Event.command impossible
    next => exact ⟨_, now, .inl ⟨above item ⟨other, before⟩, rfl⟩⟩

end Step

/-! ## What the publishers count on -/

section Together

variable {ι : Type} [DecidableEq ι] {corpus : Corpus} {env : EnvId} {ref : RefName} {start : Option ObjectName}
  {party : ι} {journal : Journal ι}

/-- The history stays linear, nothing read is forgotten and nothing stored is deleted. -/
def Onward (env : EnvId) (ref : RefName) (corpus : Corpus) (start : Option ObjectName) (before after : Journal ι) :
    Prop :=
  (Linear env ref corpus start before → Linear env ref corpus start after) ∧
    (∀ item, HasRead env before ref item → HasRead env after ref item) ∧
    before.state.backend ⊆ after.state.backend

/-- Nobody puts the ref anywhere in another's name. -/
def advancing (env : EnvId) (ref : RefName) (corpus : Corpus) (start : Option ObjectName) (party : ι) :
    Contract (Journal ι) where
  rely before after :=
    Onward env ref corpus start before after ∧ won env ref party after = won env ref party before
  guarantee before after :=
    Onward env ref corpus start before after ∧ ∀ other, other ≠ party → won env ref other after = won env ref other before
  rely_refl _ := ⟨⟨id, fun _ read => read, Finset.Subset.refl _⟩, rfl⟩
  rely_trans early late :=
    ⟨⟨late.1.1 ∘ early.1.1, fun item read => late.1.2.1 item (early.1.2.1 item read),
      Finset.Subset.trans early.1.2.2 late.1.2.2⟩, late.2.trans early.2⟩

/-- What the steps of the others leave true. -/
def Stable (env : EnvId) (ref : RefName) (corpus : Corpus) (start : Option ObjectName) (party : ι)
    (held : Journal ι → Prop) : Prop :=
  ∀ before after, (advancing env ref corpus start party).rely before after → held before → held after

theorem quiet_passes {command : Cmd}
    (refs : ((exec corpus command journal.state).2.partition env).refs = (journal.state.partition env).refs)
    (backend : journal.state.backend ⊆ (exec corpus command journal.state).2.backend)
    (silent : placed_by env ref (⟨party, command, (exec corpus command journal.state).1⟩ : Prog.Event ι Cmd Cmd.Response) = []) :
    (advancing env ref corpus start party).guarantee journal (Traced.exec (exec corpus) party command journal).2 ∧
      (advancing env ref corpus start party).rely journal (Traced.exec (exec corpus) party command journal).2 := by
  obtain ⟨keeps, same⟩ := @quiet_linear _ _ _ ref start party _ _ refs backend silent
  have onward : Onward env ref corpus start journal (Traced.exec (exec corpus) party command journal).2 :=
    ⟨keeps, fun _ => exec_read, backend⟩
  exact ⟨⟨onward, fun other _ => by rw [won, same, won]⟩, onward, by rw [won, same, won]⟩

theorem still_passes {command : Cmd} (still : Still env command) :
    (advancing env ref corpus start party).guarantee journal (Traced.exec (exec corpus) party command journal).2 ∧
      (advancing env ref corpus start party).rely journal (Traced.exec (exec corpus) party command journal).2 :=
  quiet_passes (still_refs still _) (still_backend still _) (still_placed still _)

variable {held : Journal ι → Prop}

theorem still_meets {α : Type} {act : Act α} {result : α → Prop} (stable : Stable env ref corpus start party held)
    (yields : act.Yields (Still env) (answers corpus) result) (holds : held journal) :
    act.Meets (publisher corpus party) (advancing env ref corpus start party)
      (fun outcome after => held after ∧ ∀ value, outcome = .ok value → result value) journal :=
  Prog.Meets.of_yields yields holds stable (fun command before _ => answered corpus command before.state)
    fun _ _ still _ held => ⟨(still_passes still).1, stable _ _ (still_passes still).2 held⟩

/-- A part that puts nothing, and what comes after it. -/
theorem still_then {α β : Type} {act : Act α} {rest : α → Act β} {result : α → Prop}
    {post : Except PyError β → Journal ι → Prop} (stable : Stable env ref corpus start party held)
    (yields : act.Yields (Still env) (answers corpus) result) (holds : held journal)
    (failed : ∀ error after, held after → post (.error error) after)
    (goes : ∀ value after, held after → result value →
      (rest value).Meets (publisher corpus party) (advancing env ref corpus start party) post after) :
    (act >>= rest).Meets (publisher corpus party) (advancing env ref corpus start party) post journal := by
  refine Prog.Meets.bind ((still_meets stable yields holds).mono fun outcome after met => ?_)
  cases outcome with
  | ok value => exact goes value after met.1 (met.2 value rfl)
  | error error => exact failed error after met.1

/-! ## Committing -/

/-- The party has put the ref at these, and the history is linear. -/
def Put (env : EnvId) (ref : RefName) (corpus : Corpus) (start : Option ObjectName) (party : ι)
    (targets : List ObjectName) (journal : Journal ι) : Prop :=
  Linear env ref corpus start journal ∧ won env ref party journal = targets

theorem put_stable (targets : List ObjectName) : Stable env ref corpus start party (Put env ref corpus start party targets) :=
  fun _ _ passes put => ⟨passes.1.1 put.1, passes.2.trans put.2⟩

/-- From here on, moves of the kind put the ref at the target, where the party has not put it yet. -/
structure Aims (env : EnvId) (ref : RefName) (corpus : Corpus) (start : Option ObjectName) (party : ι)
    (target : ObjectName) (moves : Move → Prop) (held : Journal ι → Prop) : Prop where
  stable : Stable env ref corpus start party held
  before : ∀ journal, held journal → Put env ref corpus start party [] journal
  stored : ∀ journal, held journal → target ∈ journal.state.backend
  extending : ∀ journal, held journal → ∀ move, moves move → Extends corpus env ref journal target move

/-- Only a commit of its own that went through has put the ref. -/
def Settles (env : EnvId) (ref : RefName) (corpus : Corpus) (start : Option ObjectName) (party : ι)
    (target : ObjectName) (held : Journal ι → Prop) : Except PyError (Nat × Bool) → Journal ι → Prop
  | .ok (_, false), after => Put env ref corpus start party [target] after
  | _, after => held after

variable {target : ObjectName} {moves : Move → Prop}

theorem transact_meets (aims : Aims env ref corpus start party target moves held) {move : Move} {writes : List WriteOp}
    (carries : Carries move writes) (met : moves move) (holds : held journal) :
    (advancing env ref corpus start party).guarantee journal
        (Traced.exec (exec corpus) party (.transact_write env writes) journal).2 ∧
      match (exec corpus (.transact_write env writes) journal.state).1 with
      | .ok () => Put env ref corpus start party [target]
          (Traced.exec (exec corpus) party (.transact_write env writes) journal).2
      | .error _ => held (Traced.exec (exec corpus) party (.transact_write env writes) journal).2 := by
  cases applied : (journal.state.partition env).transact_write writes with
  | ok after =>
    have done : Traced.exec (exec corpus) party (.transact_write env writes) journal =
        (.ok (), ⟨journal.state.with_partition env after,
          ⟨party, .transact_write env writes, .ok ()⟩ :: journal.trace⟩) := by
      simp only [Traced.exec, exec, applied]
    have answer : (exec corpus (.transact_write env writes) journal.state).1 = .ok () := by
      simp only [exec, applied]
    obtain ⟨linear, none⟩ := aims.before journal holds
    obtain ⟨linear', grown⟩ := @moving_linear _ _ _ _ _ party _ _ _ _ _ linear carries
      (aims.extending journal holds move met) (aims.stored journal holds) applied
    rw [answer, done]
    refine ⟨⟨⟨fun _ => linear', fun _ read => ?_, Finset.Subset.refl _⟩, fun other different => ?_⟩, linear', ?_⟩
    next =>
      obtain ⟨reader, member⟩ := read
      exact ⟨reader, List.mem_cons_of_mem _ member⟩
    next =>
      rw [won, grown, List.filter_cons_of_neg (by simpa using Ne.symm different), won]
    next =>
      rw [won] at none
      rw [won, grown, List.filter_cons_of_pos (by simp), List.map_cons, none]
  | error error =>
    have answer : (exec corpus (.transact_write env writes) journal.state).1 = .error error := by
      simp only [exec, applied]
    have state : (exec corpus (.transact_write env writes) journal.state).2 = journal.state := by
      simp only [exec, applied]
    have passes := @quiet_passes _ _ corpus env ref start party journal (.transact_write env writes) (by rw [state])
      (by rw [state]) (by rw [answer]; rfl)
    rw [answer]
    exact ⟨passes.1, aims.stable _ _ passes.2 holds⟩

theorem still_reads : CommitReads env (Still env) := ⟨trivial, trivial, fun _ => trivial⟩

theorem commit_attempts_meets {build : Nat → Nat → Act (List WriteOp)} {key : Option String} (request : Request)
    (outcome : Outcome) (retries : Nat) (aims : Aims env ref corpus start party target moves held)
    (builds : ∀ sequence version, (build sequence version).Yields (Still env) (answers corpus)
      fun writes => ∃ move, Carries move writes ∧ moves move) (holds : held journal) :
    (commit_attempts env build key request outcome retries).Meets (publisher corpus party)
      (advancing env ref corpus start party) (Settles env ref corpus start party target held) journal := by
  induction retries generalizing journal with
  | zero => exact fun later passes => aims.stable _ _ passes holds
  | succ retries ih =>
    refine still_then aims.stable (@next_sequence_yields _ _ (fun _ _ => True) _ trivial fun _ _ => trivial) holds
      (fun _ _ same => same) fun counter after same _ => ?_
    obtain ⟨sequence, version⟩ := counter
    refine still_then aims.stable (builds sequence version) same (fun _ _ same => same) fun writes after same made => ?_
    obtain ⟨move, carries, met⟩ := made
    -- The writes of the key's record, if there is a key, come in one of two ways and go on as one.
    extract_lets settle
    have rest (recording : List WriteOp) (recorded : Recording key recording) {journal : Journal ι} (holds : held journal) :
        (settle recording).Meets (publisher corpus party) (advancing env ref corpus start party)
          (Settles env ref corpus start party target held) journal := by
      intro later passes _
      obtain ⟨kept, answered⟩ := transact_meets aims (carries_append carries (recording_accessory recorded)) met
        (aims.stable _ _ passes holds)
      refine ⟨kept, ?_⟩
      generalize answer : (exec corpus (.transact_write env (writes ++ recording)) later.state).1 = response at answered
      have told : ((publisher corpus party).exec (.transact_write env (writes ++ recording)) later).1 = response := answer
      rw [told]
      cases response with
      | ok => exact fun final passes => put_stable _ _ _ passes answered
      | error error =>
        have failed : Prog.Meets (publisher corpus party) (advancing env ref corpus start party) (.fail error)
            (Settles env ref corpus start party target held)
            ((publisher corpus party).exec (.transact_write env (writes ++ recording)) later).2 :=
          fun final passes => aims.stable _ _ passes answered
        cases error with
        | conflict message sk =>
          dsimp only [Prog.bind]
          split
          next => exact ih answered
          next =>
            cases key with
            | none => exact failed
            | some key =>
              refine still_then aims.stable (replay_yields request trivial) answered (fun _ _ same => same)
                fun recorded after same _ => ?_
              cases recorded with
              | none => exact fun final passes => aims.stable _ _ passes same
              | some => exact fun final passes => aims.stable _ _ passes same
        | _ => exact failed
    clear_value settle
    cases key with
    | none => exact rest [] rfl same
    | some key =>
      exact still_then aims.stable (idempotency_write_yields key request outcome sequence trivial) same
        (fun _ _ same => same) fun write after same recorded => rest [write] recorded same

theorem commit_with_counter_meets {build : Nat → Nat → Act (List WriteOp)} {key : Option String} (request : Request)
    (outcome : Outcome) (aims : Aims env ref corpus start party target moves held)
    (builds : ∀ sequence version, (build sequence version).Yields (Still env) (answers corpus)
      fun writes => ∃ move, Carries move writes ∧ moves move) (holds : held journal) :
    (commit_with_counter env build key request outcome).Meets (publisher corpus party)
      (advancing env ref corpus start party) (Settles env ref corpus start party target held) journal := by
  delta commit_with_counter
  extract_lets settle
  have rest (recorded : Option Nat) {journal : Journal ι} (holds : held journal) :
      (settle recorded).Meets (publisher corpus party) (advancing env ref corpus start party)
        (Settles env ref corpus start party target held) journal := by
    cases recorded with
    | some => exact fun later passes => aims.stable _ _ passes holds
    | none => exact commit_attempts_meets request outcome _ aims builds holds
  clear_value settle
  cases key with
  | none => exact rest none holds
  | some key =>
    exact still_then aims.stable (replay_yields request trivial) holds (fun _ _ same => same)
      fun recorded after same _ => rest recorded same

/-- What a mutation comes to: the ref put at the target, or an earlier outcome told again. -/
def Lands (env : EnvId) (ref : RefName) (corpus : Corpus) (start : Option ObjectName) (party : ι)
    (target : ObjectName) : Except PyError RefUpdate → Journal ι → Prop
  | .ok update, after =>
      update.replayed = false ∧ update.ref.target = target ∧ Put env ref corpus start party [target] after ∨
        update.replayed = true ∧ Put env ref corpus start party [] after
  | .error _, after => Put env ref corpus start party [] after

theorem mutate_ref_meets (mutation : Mutation)
    (aims : Aims env ref corpus start party mutation.target (mutation.Makes fun _ _ => True) held)
    (holds : held journal) :
    (mutate_ref env mutation).Meets (publisher corpus party) (advancing env ref corpus start party)
      (Lands env ref corpus start party mutation.target) journal := by
  have raised {error : PyError} {after : Journal ι} (same : held after) :
      Lands env ref corpus start party mutation.target (.error error) after := aims.before after same
  refine still_then aims.stable (.ask trivial fun _ _ => trivial) holds (fun _ _ => raised) fun now after same _ => ?_
  refine still_then aims.stable (show Prog.Yields _ _ (fun _ => True) _ from .ofExcept fun _ _ => trivial) same
    (fun _ _ => raised) fun _ after same _ => ?_
  extract_lets body
  refine Prog.Meets.andThen (Q := Settles env ref corpus start party mutation.target held) ?_ (fun _ _ => raised)
    fun result after settled => ?_
  next =>
    refine Prog.Meets.handling (commit_with_counter_meets _ _ aims (fun sequence version =>
      build_yields mutation now (fun _ => trivial) trivial rfl rfl rfl) same) ?_ ?_
    next =>
      rintro ⟨sequence, replayed⟩ after settled later passes
      cases replayed with
      | true => exact aims.stable _ _ passes settled
      | false => exact put_stable _ _ _ passes settled
    next =>
      intro error after same
      have failed (error : PyError) {after : Journal ι} (same : held after) :
          Prog.Meets (publisher corpus party) (advancing env ref corpus start party) (.fail error)
            (Settles env ref corpus start party mutation.target held) after :=
        fun later passes => aims.stable _ _ passes same
      cases error with
      | conflict message sk =>
        exact still_then aims.stable ((@describe_conflict_yields _ _ (fun _ => False) none mutation.name).mono
          (fun command fits => ref_still command (KeyedCmd.ref command fits)) fun _ _ => trivial) same
          (fun _ _ same => same) fun described after same _ => failed described same
      | _ => exact failed _ same
  next =>
    obtain ⟨sequence, replayed⟩ := result
    cases replayed with
    | true =>
      refine still_then aims.stable ((@get_ref_yields _ _ (fun _ => False) mutation.name).mono ref_still
        fun _ _ => trivial) settled (fun _ _ => raised) fun current after same _ => ?_
      exact fun later passes => .inr ⟨rfl, aims.before _ (aims.stable _ _ passes same)⟩
    | false => exact fun later passes => .inl ⟨rfl, rfl, put_stable _ _ _ passes settled⟩

end Together

/-! ## A publish -/

section Publish

variable {ι : Type} [DecidableEq ι] {corpus : Corpus} {publication : Publication} {start : Option ObjectName}
  {party : ι} {journal : Journal ι} {held : Journal ι → Prop}

/-- A publish of one ref, which has not put it anywhere yet. -/
abbrev Publication.Starting (publication : Publication) (corpus : Corpus) (start : Option ObjectName) (party : ι) :
    Journal ι → Prop :=
  Put publication.env publication.ref corpus start party []

/-- The ref has been read as this. -/
def Publication.Has (publication : Publication) (journal : Journal ι) (current : Option Ref) : Prop :=
  ∀ body, current = some body → ∃ item, item.body = body ∧ HasRead publication.env journal publication.ref item

abbrev Publication.contract (publication : Publication) (corpus : Corpus) (start : Option ObjectName) (party : ι) :
    Contract (Journal ι) :=
  advancing publication.env publication.ref corpus start party

/-- The publisher reads the ref, and knows of the item it reads what the state tells. -/
theorem read_ref_meets {known : Item Ref → Prop}
    (stable : Stable publication.env publication.ref corpus start party held)
    (tells : ∀ later item, held later →
      (later.state.partition publication.env).refs[publication.ref]? = some item → known item)
    (holds : held journal) :
    (try_get_ref publication.env publication.ref).Meets (publisher corpus party) (publication.contract corpus start party)
      (fun outcome after => held after ∧ ∀ body, outcome = .ok (some body) →
        ∃ item, item.body = body ∧ HasRead publication.env after publication.ref item ∧ known item) journal := by
  intro later passes _
  obtain ⟨guaranteed, relied⟩ := @still_passes _ _ corpus publication.env publication.ref start party later
    (.meta_get publication.env (.ref publication.ref)) trivial
  refine ⟨guaranteed, fun final more => ⟨stable _ _ more (stable _ _ relied (stable _ _ passes holds)), ?_⟩⟩
  intro body same
  obtain ⟨item, found, rfl⟩ := Option.map_eq_some_iff.mp (Except.ok.inj same)
  have read : HasRead publication.env (Traced.exec (exec corpus) party
      (.meta_get publication.env (.ref publication.ref)) later).2 publication.ref item :=
    ⟨party, List.mem_cons.mpr (.inl (by rw [← found]; rfl))⟩
  exact ⟨item, rfl, more.1.2.1 item read, tells later item (stable _ _ passes holds) found⟩

/-- The commit to publish is stored, and the ref has been read as the one item and then as the other. -/
structure Publication.Poised (publication : Publication) (corpus : Corpus) (start : Option ObjectName) (party : ι)
    (target : ObjectName) (base read : Item Ref) (journal : Journal ι) : Prop where
  starting : publication.Starting corpus start party journal
  stored : target ∈ journal.state.backend
  based : HasRead publication.env journal publication.ref base
  again : HasRead publication.env journal publication.ref read

theorem poised_stable {target : ObjectName} {base read : Item Ref} :
    Stable publication.env publication.ref corpus start party (publication.Poised corpus start party target base read) :=
  fun _ _ passes poised => ⟨put_stable _ _ _ passes poised.starting, passes.1.2.2 poised.stored,
    passes.1.2.1 base poised.based, passes.1.2.1 read poised.again⟩

theorem move_meets (request : Request) {target : ObjectName} {current : Option Ref}
    (parent : FirstParent corpus target (current.map Ref.target))
    (starting : publication.Starting corpus start party journal) (stored : target ∈ journal.state.backend)
    (has : publication.Has journal current) :
    (publication.move request target current).Meets (publisher corpus party) (publication.contract corpus start party)
      (Lands publication.env publication.ref corpus start party target) journal := by
  cases current with
  | none =>
    refine @mutate_ref_meets _ _ _ _ _ _ _ _
      (fun after => publication.Starting corpus start party after ∧ target ∈ after.state.backend) _
      ⟨fun before after passes held => ⟨put_stable _ _ _ passes held.1, passes.1.2.2 held.2⟩, fun _ held => held.1,
        fun _ held => held.2, fun after held move makes => ?_⟩ ⟨starting, stored⟩
    obtain ⟨named, condition, -, -, body, placed, -, puts, -⟩ := makes
    exact .creates named placed puts condition parent
  | some current =>
    obtain ⟨base, rfl, based⟩ := has current rfl
    have again := @read_ref_meets _ _ corpus publication start party journal _
      (fun item => base.body.generation ≤ item.body.generation) (@poised_stable _ _ _ _ _ _ target base base)
      (fun later item poised found => ?_) ⟨starting, stored, based, based⟩
    next =>
      refine again.andThen (fun _ _ met => met.1.starting) fun current after met => ?_
      obtain ⟨poised, known⟩ := met
      cases current with
      | none => exact fun later passes => put_stable _ _ _ passes poised.starting
      | some current =>
        obtain ⟨read, rfl, seen, onward⟩ := known current rfl
        have poised : publication.Poised corpus start party target base read after :=
          ⟨poised.starting, poised.stored, poised.based, seen⟩
        refine still_then poised_stable (show Prog.Yields _ _ (fun _ => True) _ from .ofExcept fun _ _ => trivial) poised
          (fun _ _ poised => poised.starting) fun _ later poised _ => ?_
        refine mutate_ref_meets _ ⟨poised_stable, fun _ poised => poised.starting, fun _ poised => poised.stored,
          fun later poised move makes => ?_⟩ poised
        obtain ⟨named, condition, -, -, body, placed, -, puts, next⟩ := makes
        exact .swaps named placed puts condition parent next poised.based poised.again onward
    next =>
      obtain ⟨current, there, order⟩ := poised.starting.1.seen base poised.based
      obtain rfl : current = item := Option.some.inj (there.symm.trans found)
      rcases order with ⟨below, -⟩ | rfl
      next => exact Int.le_of_lt below
      next => exact Int.le_refl _

/-! ## The commit object -/

theorem put_encoded_stores (name : ObjectName)
    (stable : Stable publication.env publication.ref corpus start party held) (holds : held journal) :
    (put_encoded corpus name).Meets (publisher corpus party) (publication.contract corpus start party)
      (fun outcome after => held after ∧ ∀ result, outcome = .ok result →
        result.name = name ∧ name ∈ after.state.backend) journal := by
  have stable' : Stable publication.env publication.ref corpus start party fun after =>
      held after ∧ name ∈ after.state.backend :=
    fun _ _ passes held => ⟨stable _ _ passes held.1, passes.1.2.2 held.2⟩
  have ends {act : Act PutOutcome} {after : Journal ι}
      (yields : act.Yields (Still publication.env) (answers corpus) fun result => result.name = name)
      (holds : held after ∧ name ∈ after.state.backend) :
      act.Meets (publisher corpus party) (publication.contract corpus start party)
        (fun outcome after => held after ∧ ∀ result, outcome = .ok result →
          result.name = name ∧ name ∈ after.state.backend) after :=
    (still_meets stable' yields holds).mono fun _ _ met => ⟨met.1.1, fun result same => ⟨met.2 result same, met.1.2⟩⟩
  intro later passes _
  obtain ⟨guaranteed, relied⟩ := @still_passes _ _ corpus publication.env publication.ref start party later
    (.backend_exists name) trivial
  refine ⟨guaranteed, ?_⟩
  have held := stable _ _ relied (stable _ _ passes holds)
  by_cases stored : name ∈ later.state.backend
  next =>
    have present : ((publisher corpus party).exec (.backend_exists name) later).1 = true := decide_eq_true stored
    rw [present]
    exact ends ⟨trivial, fun _ _ => rfl⟩ ⟨held, stored⟩
  next =>
    have absent : ((publisher corpus party).exec (.backend_exists name) later).1 = false := decide_eq_false stored
    rw [absent]
    intro last passes' _
    obtain ⟨guaranteed', relied'⟩ := @still_passes _ _ corpus publication.env publication.ref start party last
      (.backend_write name) trivial
    refine ⟨guaranteed', ends ?_ ⟨stable _ _ relied' (stable _ _ passes' held), Finset.mem_insert_self _ _⟩⟩
    exact ⟨trivial, fun _ _ => ⟨trivial, fun _ _ => ⟨trivial, fun _ _ => rfl⟩⟩⟩

theorem put_object_stores (object : LedgerObject)
    (stable : Stable publication.env publication.ref corpus start party held) (holds : held journal) :
    (put_object corpus object).Meets (publisher corpus party) (publication.contract corpus start party)
      (fun outcome after => held after ∧ ∀ result, outcome = .ok result →
        corpus.name_of object = .ok result.name ∧ result.name ∈ after.state.backend) journal := by
  cases named : corpus.name_of object with
  | error error =>
    rw [put_object, named]
    exact fun later passes => ⟨stable _ _ passes holds, fun _ impossible => by cases impossible⟩
  | ok name =>
    rw [put_object, named]
    refine (put_encoded_stores name stable holds).mono fun outcome after met => ⟨met.1, fun result same => ?_⟩
    obtain ⟨called, stored⟩ := met.2 result same
    exact ⟨congrArg Except.ok called.symm, called ▸ stored⟩

/-! ## The second walk of the tree -/

/-- A read that fetched its object. -/
def Fetched : (command : Cmd) → command.Response → Prop
  | .backend_read _, response => ∃ object, response = .ok object
  | _, _ => False

theorem get_object_strict (name : ObjectName) : (get_object name).Strict Reads Fetched := by
  refine ⟨⟨name, rfl⟩, fun response => ⟨fun fetched => ?_, fun failed => ?_⟩⟩
  next =>
    obtain ⟨object, rfl⟩ := fetched
    trivial
  next =>
    cases response with
    | ok object => exact absurd ⟨object, rfl⟩ failed
    | error error => exact ⟨error, rfl⟩

theorem children_strict (name : ObjectName) (role : Role) : (children name role).Strict Reads Fetched := by
  cases role with
  | chunk => trivial
  | tree =>
    refine .bind (.bind (get_object_strict name) fun object => ?_) fun _ => trivial
    cases object <;> trivial
  | blob =>
    refine .bind (.bind (get_object_strict name) fun object => ?_) fun _ => trivial
    cases object <;> trivial

theorem walk_strict (visits : Nat) (stack : List (ObjectName × Role)) (seen : Finset ObjectName)
    (found : List ObjectName) : (walk visits stack seen found).Strict Reads Fetched := by
  induction visits generalizing stack seen found with
  | zero =>
    rw [walk]
    split <;> trivial
  | succ visits ih =>
    rw [walk]
    split
    next => trivial
    next => exact .bind (children_strict _ _) fun below => ih _ _ _

theorem fetched_lasts {command : Cmd} {before after : World} (reads : Reads command)
    (fetched : Fetched command (exec corpus command before).1) (grown : before.backend ⊆ after.backend) :
    (exec corpus command after).1 = (exec corpus command before).1 := by
  obtain ⟨name, rfl⟩ := reads
  obtain ⟨object, same⟩ := fetched
  simp only [exec] at same ⊢
  by_cases stored : name ∈ before.backend
  next => rw [if_pos stored, if_pos (grown stored)]
  next => rw [if_neg stored] at same; cases same

/-- From here on, walking the tree goes through. -/
def Publication.Readable (publication : Publication) (corpus : Corpus) (start : Option ObjectName) (party : ι)
    (tree : ObjectName) (journal : Journal ι) : Prop :=
  ∀ later : Journal ι, journal.state.backend ⊆ later.state.backend →
    (tree_closure tree).Meets (publisher corpus party) (publication.contract corpus start party)
      (fun outcome _ => ∃ names, outcome = .ok names) later

theorem readable_stable (tree : ObjectName) :
    Stable publication.env publication.ref corpus start party (publication.Readable corpus start party tree) :=
  fun _ _ passes readable later grown => readable later (Finset.Subset.trans passes.1.2.2 grown)

theorem closure_repeats (tree : ObjectName) (stable : Stable publication.env publication.ref corpus start party held)
    (holds : held journal) :
    (tree_closure tree).Meets (publisher corpus party) (publication.contract corpus start party)
      (fun outcome after => held after ∧ ∀ names, outcome = .ok names →
        publication.Readable corpus start party tree after) journal := by
  have still := still_meets stable ((@tree_closure_yields corpus tree).mono reads_still fun _ _ => trivial) holds
  have again := @Prog.Meets.again _ _ _ _ _ _ (publisher corpus party) (publication.contract corpus start party) journal
    Fetched (fun before after => before.state.backend ⊆ after.state.backend) _ (walk_strict NAMES [(tree, .tree)] ∅ [])
    Finset.Subset.trans (fun _ _ passes => passes.1.2.2)
    (fun _ _ reads _ => ⟨(still_passes (reads_still _ reads)).1, @still_backend _ publication.env _ (reads_still _ reads) _⟩)
    (fun _ _ _ reads fetched grown => fetched_lasts reads fetched grown)
  refine (still.and again).mono fun outcome after met => ⟨met.1.1, fun names same => ?_⟩
  subst same
  exact met.2.2

/-! ## What comes after the move -/

def Unconditional : WriteOp → Prop
  | .put _ _ condition _ _ => condition = none
  | .delete _ condition => condition = none
  | .emit _ => True

theorem transact_unconditional {writes : List WriteOp} (free : ∀ write ∈ writes, Unconditional write)
    (partition : Partition) : ∃ after, partition.transact_write writes = .ok after := by
  induction writes generalizing partition with
  | nil => exact ⟨partition, rfl⟩
  | cons write writes ih =>
    have first : ∃ middle, apply partition write = .ok middle := by
      have unconditional := free write List.mem_cons_self
      cases write with
      | emit => exact ⟨_, rfl⟩
      | put key body condition generation expires_at_us =>
        obtain rfl : condition = none := unconditional
        exact ⟨_, apply_put.mpr ⟨rfl, rfl⟩⟩
      | delete key condition =>
        obtain rfl : condition = none := unconditional
        exact ⟨_, apply_delete.mpr ⟨rfl, rfl⟩⟩
    obtain ⟨middle, applied⟩ := first
    obtain ⟨after, rest⟩ := ih (fun later member => free later (List.mem_cons_of_mem _ member)) middle
    exact ⟨after, transact_ok.mpr ⟨middle, applied, rest⟩⟩

/-- A transaction without conditions goes through. -/
def Obliges : (command : Cmd) → command.Response → Prop
  | .transact_write _ writes, response => (∀ write ∈ writes, Unconditional write) → response = .ok ()
  | _, _ => True

theorem obliged (command : Cmd) (world : World) : Obliges command (exec corpus command world).1 := by
  cases command with
  | transact_write pk writes =>
    intro free
    obtain ⟨after, applied⟩ := transact_unconditional free (world.partition pk)
    simp only [exec, applied]
  | _ => trivial

theorem graduate_unfailing (env : EnvId) (names : List ObjectName) :
    (GarbageCollector.graduate env names).Unfailing (Still env) Obliges :=
  .bind (.mapM fun _ _ => .ask trivial) fun _ => trivial

theorem end_session_unfailing (env : EnvId) (session : SessionId) :
    (end_session env session).Unfailing (Still env) Obliges := by
  refine .bind (.ask trivial) fun pages => ?_
  have free : ∀ write ∈ pages.map (fun page : SessionPage × Item (List ObjectName) =>
      WriteOp.delete (.session_page page.1) none) ++ [.delete (.session session) none],
      Unconditional write ∧ SessionWrite write := by
    intro write member
    rcases List.mem_append.mp member with page | last
    next =>
      obtain ⟨row, -, rfl⟩ := List.mem_map.mp page
      exact ⟨rfl, trivial⟩
    next =>
      rw [List.mem_singleton.mp last]
      exact ⟨rfl, trivial⟩
  refine ⟨fun _ write member => (free write member).2, fun response answered => ?_⟩
  rw [answered fun write member => (free write member).1]
  trivial

theorem unfailing_meets {α : Type} {act : Act α} (stable : Stable publication.env publication.ref corpus start party held)
    (sure : act.Unfailing (Still publication.env) Obliges) (holds : held journal) :
    act.Meets (publisher corpus party) (publication.contract corpus start party)
      (fun outcome after => held after ∧ ∃ value, outcome = .ok value) journal :=
  Prog.Meets.unfailing sure holds stable (fun command before _ => obliged command before.state)
    fun _ _ still _ held => ⟨(still_passes still).1, stable _ _ (still_passes still).2 held⟩

/-- What a publish comes to: its commit is put once, or it has put none. -/
def Publication.Reports (publication : Publication) (corpus : Corpus) (start : Option ObjectName) (party : ι) :
    Except PyError CommitResult → Journal ι → Prop
  | .ok result, after =>
      result.replayed = false ∧ Put publication.env publication.ref corpus start party [result.commit] after ∨
        result.replayed = true ∧ publication.Starting corpus start party after
  | .error _, after => publication.Starting corpus start party after

theorem reports_stable (outcome : Except PyError CommitResult) :
    Stable publication.env publication.ref corpus start party (publication.Reports corpus start party outcome) := by
  intro before after passes reports
  cases outcome with
  | error => exact put_stable _ _ _ passes reports
  | ok result =>
    rcases reports with ⟨fresh, put⟩ | ⟨again, put⟩
    next => exact .inl ⟨fresh, put_stable _ _ _ passes put⟩
    next => exact .inr ⟨again, put_stable _ _ _ passes put⟩

/-- The ref has been read, and nothing has been put. -/
def Publication.Opened (publication : Publication) (corpus : Corpus) (start : Option ObjectName) (party : ι)
    (current : Option Ref) (journal : Journal ι) : Prop :=
  publication.Starting corpus start party journal ∧ publication.Has journal current

theorem opened_stable (current : Option Ref) :
    Stable publication.env publication.ref corpus start party (publication.Opened corpus start party current) := by
  intro before after passes opened
  refine ⟨put_stable _ _ _ passes opened.1, fun body same => ?_⟩
  obtain ⟨item, rfl, read⟩ := opened.2 body same
  exact ⟨item, rfl, passes.1.2.1 item read⟩

theorem stable_and {other : Journal ι → Prop} (stable : Stable publication.env publication.ref corpus start party held)
    (too : Stable publication.env publication.ref corpus start party other) :
    Stable publication.env publication.ref corpus start party fun after => held after ∧ other after :=
  fun _ _ passes both => ⟨stable _ _ passes both.1, too _ _ passes both.2⟩

theorem stored_stable (name : ObjectName) :
    Stable publication.env publication.ref corpus start party fun after => name ∈ after.state.backend :=
  fun _ _ passes stored => passes.1.2.2 stored

/-- Once the ref has moved, nothing raises any more. -/
theorem moved_meets {tree : ObjectName} {result : CommitResult} (reports : publication.Reports corpus start party (.ok result) journal)
    (readable : publication.Readable corpus start party tree journal) (name : ObjectName) :
    (do
      let kept ← tree_closure tree
      let _ ← GarbageCollector.graduate publication.env (name :: kept)
      return result : Act CommitResult).Meets (publisher corpus party) (publication.contract corpus start party)
      (publication.Reports corpus start party) journal := by
  have walks := (still_meets (reports_stable (.ok result)) ((@tree_closure_yields corpus tree).mono reads_still
    fun _ _ => trivial) reports).and (readable journal (Finset.Subset.refl _))
  refine walks.andThen (fun error after met => ?_) fun kept after met => ?_
  next =>
    obtain ⟨-, value, impossible⟩ := met
    cases impossible
  next =>
    refine (unfailing_meets (reports_stable (.ok result)) (graduate_unfailing _ _) met.1.1).andThen
      (fun error after met => ?_) fun _ last met => fun final passes => reports_stable _ _ _ passes met.1
    obtain ⟨-, value, impossible⟩ := met
    cases impossible

theorem finish_reports {current : Option Ref} (session : SessionId) (request : Request) (tree : ObjectName)
    (stats : IngestStats) (opened : publication.Opened corpus start party current journal) :
    (publication.finish corpus session current request tree stats).Meets (publisher corpus party)
      (publication.contract corpus start party) (publication.Reports corpus start party) journal := by
  refine still_then (opened_stable current) (.ask trivial fun _ _ => trivial) opened (fun _ _ opened => opened.1)
    fun timestamp_us after opened _ => ?_
  refine (put_object_stores _ (opened_stable current) opened).andThen (fun _ _ met => met.1.1) fun outcome after met => ?_
  obtain ⟨named, stored⟩ := met.2 outcome rfl
  have stable := stable_and (@opened_stable _ _ corpus publication start party current) (stored_stable outcome.name)
  refine (closure_repeats tree stable ⟨met.1, stored⟩).andThen (fun _ _ met => met.1.1.1) fun below after met => ?_
  have readable := met.2 below rfl
  refine still_then (stable_and stable (readable_stable tree)) ((record_uploaded_yields session _).mono session_still
    fun _ _ => trivial) ⟨met.1, readable⟩ (fun _ _ held => held.1.1.1) fun _ after held _ => ?_
  obtain ⟨⟨opened, stored⟩, readable⟩ := held
  have parent : FirstParent corpus outcome.name (current.map Ref.target) :=
    ⟨_, named, by cases current <;> rfl⟩
  -- The walk after the move is the one that has gone through before it.
  refine ((move_meets request parent opened.1 stored opened.2).kept (readable_stable tree)
    (fun _ _ within readable later grown => readable later (Finset.Subset.trans within.1.2.2 grown)) readable).andThen
    (fun _ _ met => met.1) fun update after met => ?_
  refine moved_meets ?_ met.2 outcome.name
  rcases met.1 with ⟨fresh, puts, put⟩ | ⟨again, put⟩
  next => exact .inl ⟨fresh, puts ▸ put⟩
  next => exact .inr ⟨again, put⟩

theorem body_reports {current : Option Ref} (builder : Builder corpus) (session : SessionId)
    (opened : publication.Opened corpus start party current journal) :
    (publication.body corpus builder.build current session).Meets (publisher corpus party)
      (publication.contract corpus start party) (publication.Reports corpus start party) journal := by
  refine still_then (opened_stable current) ((builder.builds current).mono building_still fun _ _ => trivial) opened
    (fun _ _ opened => opened.1) fun built after opened _ => ?_
  obtain ⟨tree, stats⟩ := built
  have known : (publication.recorded (.commit publication.ref tree)).Yields (Still publication.env) (answers corpus)
      fun _ => True := by
    rw [Publication.recorded]
    cases publication.idempotency_key with
    | none => trivial
    | some key => exact recorded_outcome_yields _ trivial
  refine still_then (opened_stable current) known opened (fun _ _ opened => opened.1) fun recorded after opened _ => ?_
  cases recorded with
  | none => exact finish_reports session _ tree stats opened
  | some recorded =>
    refine still_then (opened_stable current) ((@get_ref_yields _ _ (fun _ => False) publication.ref).mono ref_still
      fun _ _ => trivial) opened (fun _ _ opened => opened.1) fun published after opened _ => ?_
    exact fun later passes => .inr ⟨rfl, put_stable _ _ _ passes opened.1⟩

theorem publish_reports (builder : Builder corpus) (starting : publication.Starting corpus start party journal) :
    (publish corpus publication builder.build).Meets (publisher corpus party) (publication.contract corpus start party)
      (publication.Reports corpus start party) journal := by
  refine (@read_ref_meets _ _ _ _ _ _ _ _ (fun _ => True) (put_stable []) (fun _ _ _ _ => trivial) starting).andThen
    (fun _ _ met => met.1) fun current after met => ?_
  have opened : publication.Opened corpus start party current after := by
    refine ⟨met.1, fun body same => ?_⟩
    obtain ⟨item, same, read, -⟩ := met.2 body (congrArg Except.ok same)
    exact ⟨item, same, read⟩
  refine still_then (opened_stable current) ((begin_write_yields _ _ _).mono session_still fun _ _ => trivial) opened
    (fun _ _ opened => opened.1) fun session after opened _ => ?_
  refine Prog.Meets.bind (Prog.Meets.attempt ((body_reports builder session.session_id opened).mono
    fun outcome after reports => ?_))
  refine (unfailing_meets (reports_stable outcome) (end_session_unfailing _ _) reports).andThen
    (fun error after met => ?_) fun _ after met => ?_
  next =>
    obtain ⟨-, value, impossible⟩ := met
    cases impossible
  next =>
    cases outcome with
    | ok result => exact fun later passes => reports_stable _ _ _ passes met.1
    | error error => exact fun later passes => reports_stable (.error error) _ _ passes met.1

end Publish

/-- BLAKE3 is injective: objects of one name have one encoding. -/
def Injective (corpus : Corpus) : Prop :=
  ∀ left right name, corpus.name_of left = .ok name → corpus.name_of right = .ok name →
    ∃ framed, encode left = .ok framed ∧ encode right = .ok framed

theorem first_parent_unique {corpus : Corpus} (injective : Injective corpus) (name : ObjectName)
    (first second : Option ObjectName) (parent : FirstParent corpus name first)
    (parent' : FirstParent corpus name second) : first = second := by
  obtain ⟨node, named, rfl⟩ := parent
  obtain ⟨node', named', rfl⟩ := parent'
  obtain ⟨framed, encoded, encoded'⟩ := injective _ _ name named named'
  rw [encoded_parents encoded encoded']

theorem unrelated_onward {ι : Type} {corpus : Corpus} {env : EnvId} {ref : RefName} {start : Option ObjectName}
    {before after : Journal ι} (unrelated : Unrelated env ref before after) : Onward env ref corpus start before after := by
  obtain ⟨trace, refs, backend⟩ := unrelated
  have same : placements env ref after = placements env ref before := by rw [placements, trace, placements]
  have read (item : Item Ref) : HasRead env after ref item ↔ HasRead env before ref item := by
    rw [HasRead, trace, HasRead]
  refine ⟨fun linear => ⟨?_, fun put member => ?_, fun item now => ?_⟩, fun item now => (read item).mpr now, backend⟩
  next =>
    rw [same, World.ref_target, refs]
    exact linear.path
  next =>
    rw [same] at member
    exact backend (linear.stored put member)
  next =>
    rw [refs]
    exact linear.seen item ((read item).mp now)

theorem unrelated_passes {ι : Type} [DecidableEq ι] {corpus : Corpus} {env : EnvId} {ref : RefName}
    {start : Option ObjectName} (party : ι) (before after : Journal ι) (unrelated : Unrelated env ref before after) :
    (advancing env ref corpus start party).rely before after :=
  ⟨unrelated_onward unrelated, by rw [won, placements, unrelated.1, won, placements]⟩

theorem mem_won {ι : Type} [DecidableEq ι] {env : EnvId} {ref : RefName} {party : ι} {journal : Journal ι}
    {name : ObjectName} : name ∈ won env ref party journal ↔ (party, name) ∈ placements env ref journal := by
  simp only [won, List.mem_map, List.mem_filter, decide_eq_true_eq, Prod.exists]
  constructor
  next => rintro ⟨_, _, ⟨member, rfl⟩, rfl⟩; exact member
  next => intro member; exact ⟨party, name, ⟨member, rfl⟩, rfl⟩

/-- A program that has come to its end, with a result or an error. -/
def Ended {α : Type} (act : Act α) : Prop := (∃ value, act = .done value) ∨ ∃ error, act = .fail error

/-- However publishes to one ref interleave, the ref ends at a commit from which first parents lead down to
where the ref was before, past every commit that was reported as published, each once, and when all have
come to their end past no other. -/
theorem published_history {ι : Type} [DecidableEq ι] (corpus : Corpus) (injective : Injective corpus) (env : EnvId)
    (ref : RefName) (publications : ι → Publication) (builders : ι → Builder corpus) (world : World)
    (rooted : ∀ target, world.ref_target env ref = some target →
      ¬ Relation.TransGen (Descent.Leads (FirstParent corpus)) target target)
    {after : Pool ι Cmd Cmd.Response PyError (fun _ => CommitResult) (Journal ι)}
    (run : Pool.Run (publisher corpus) (Unrelated env ref) (publishes corpus env ref publications builders world) after) :
    ∃ chain, Descent.Path (FirstParent corpus) (world.ref_target env ref) (after.shared.state.ref_target env ref) chain ∧
      chain.Nodup ∧
      (∀ name ∈ chain, name ∈ after.shared.state.backend ∧ ∀ target, world.ref_target env ref = some target →
        ¬ Relation.ReflTransGen (Descent.Leads (FirstParent corpus)) target name) ∧
      (∀ party result, after.procs party = .done result → result.replayed = false → result.commit ∈ chain) ∧
      ((∀ party, Ended (after.procs party)) → ∀ name ∈ chain,
        ∃ party result, after.procs party = .done result ∧ result.replayed = false ∧ result.commit = name) := by
  have start : Linear env ref corpus (world.ref_target env ref) (⟨world, []⟩ : Journal ι) := by
    refine ⟨.here, fun put impossible => ?_, fun item impossible => ?_⟩
    next => cases impossible
    next =>
      obtain ⟨_, member⟩ := impossible
      cases member
  have starts : (publishes corpus env ref publications builders world).Meets (publisher corpus)
      (advancing env ref corpus (world.ref_target env ref))
      (fun party => ({ publications party with env, ref } : Publication).Reports corpus (world.ref_target env ref) party) :=
    fun party => @publish_reports _ _ corpus { publications party with env, ref } _ party _ (builders party) ⟨start, rfl⟩
  have compatible (party other : ι) (different : party ≠ other) (first second : Journal ι)
      (kept : (advancing env ref corpus (world.ref_target env ref) other).guarantee first second) :
      (advancing env ref corpus (world.ref_target env ref) party).rely first second := ⟨kept.1, kept.2 party different⟩
  have linear : Linear env ref corpus (world.ref_target env ref) after.shared :=
    Pool.run_holds compatible unrelated_passes (fun _ _ _ kept => kept.1.1)
      (fun _ _ unrelated => (unrelated_onward unrelated).1) starts start run
  have reports := Pool.run_meets compatible unrelated_passes starts run
  refine ⟨(placements env ref after.shared).map Prod.snd, linear.path,
    linear.path.nodup (first_parent_unique injective) rooted, fun name member => ?_, fun party result done fresh => ?_,
    fun ended name member => ?_⟩
  next =>
    obtain ⟨put, among, rfl⟩ := List.mem_map.mp member
    exact ⟨linear.stored put among, fun target started => linear.path.apart rooted member started⟩
  next =>
    rcases reports.returned done with ⟨-, -, put⟩ | ⟨again, -⟩
    next =>
      have won : result.commit ∈ won env ref party after.shared := by rw [put]; exact List.mem_singleton_self _
      exact List.mem_map_of_mem (mem_won.mp won)
    next => rw [fresh] at again; cases again
  next =>
    obtain ⟨⟨party, _⟩, among, rfl⟩ := List.mem_map.mp member
    have mine := mem_won.mpr among
    rcases ended party with ⟨result, done⟩ | ⟨error, failed⟩
    next =>
      rcases reports.returned done with ⟨fresh, -, put⟩ | ⟨-, -, none⟩
      next =>
        rw [put] at mine
        exact ⟨party, result, done, fresh, (List.mem_singleton.mp mine).symm⟩
      next => rw [none] at mine; cases mine
    next =>
      have outcome := reports party
      rw [failed] at outcome
      obtain ⟨-, none⟩ := outcome _ ((advancing env ref corpus _ party).rely_refl _)
      rw [none] at mine
      cases mine

theorem injective_ofBytes {blake3 : Blake3} {play : List Wire.Bytes} {occupied : Wire.Bytes → Nat}
    (apart : ∀ left ∈ play, ∀ right ∈ play,
      name_of_encoded blake3 left = name_of_encoded blake3 right → left = right) :
    Injective (.ofBytes blake3 play occupied apart) := by
  intro left right name named named'
  simp only [Corpus.ofBytes, Monads.except_bind_ok, ensure_ok, pure, Except.pure, Except.ok.injEq] at named named'
  obtain ⟨framed, encoded, _, member, rfl⟩ := named
  obtain ⟨framed', encoded', _, member', same⟩ := named'
  rw [apart framed' member' framed member same] at encoded'
  exact ⟨framed, encoded, encoded'⟩

theorem writing_builds (corpus : Corpus) (objects : List LedgerObject) (tree : ObjectName) :
    (writing corpus objects tree).Yields Building (answers corpus) fun _ => True := by
  refine .bind ((Prog.Yields.mapM fun object _ => ?_).mono (fun _ fits => fits) fun _ _ => trivial)
  refine .bind (.ofExcept fun name _ => .bind (.ask trivial fun stored _ => ?_))
  cases stored
  next => exact ⟨trivial, fun _ _ => ⟨trivial, fun _ _ => ⟨trivial, fun _ _ => ⟨trivial, fun _ _ => trivial⟩⟩⟩⟩
  next => exact ⟨trivial, fun _ _ => trivial⟩

def Work.assembles (corpus : Corpus) (work : Work) : Builder corpus :=
  ⟨work.builder corpus, fun current => writing_builds corpus (work.objects current) (work.tree current)⟩

/-- One of two publishers has read that there is no ref when the other publishes. -/
def overtaken : Pool Bool Cmd Cmd.Response PyError (fun _ => CommitResult) (Journal Bool) :=
  [(false, 1), (true, 100), (false, 100)].foldl (fun before turn => before.turn (publisher oneCommit) turn.1 turn.2)
    (publishes oneCommit ⟨"env"⟩ DEFAULT_REF (fun _ => firstPublication) (fun _ => firstWork.assembles oneCommit)
      abandonedTree)

theorem published_history_overtaken :
    Descent.Path (FirstParent oneCommit) none (overtaken.shared.state.ref_target ⟨"env"⟩ DEFAULT_REF)
      [firstCommitName] := by
  have fresh : abandonedTree.ref_target ⟨"env"⟩ DEFAULT_REF = none := by decide
  obtain ⟨chain, path, once, -, reported, complete⟩ := published_history oneCommit (injective_ofBytes _) ⟨"env"⟩ DEFAULT_REF
    (fun _ : Bool => firstPublication) (fun _ => firstWork.assembles oneCommit) abandonedTree
    (fun target found => by rw [fresh] at found; cases found)
    (Pool.Run.turns (fun _ _ _ => trivial) [(false, 1), (true, 100), (false, 100)] _)
  have won : (overtaken.procs true).value.any
      (fun result => decide (result.commit = firstCommitName ∧ result.replayed = false)) = true := by decide +kernel
  have lost : (overtaken.procs false).raised.isSome = true := by decide +kernel
  obtain ⟨result, results, facts⟩ := (Option.any_eq_true _ _).mp won
  obtain ⟨commit, new⟩ := of_decide_eq_true facts
  have done : overtaken.procs true = .done result := Prog.value_eq_some.mp results
  obtain ⟨error, raises⟩ := Option.isSome_iff_exists.mp lost
  have failed : overtaken.procs false = .fail error := Prog.raised_eq_some.mp raises
  have ended (party : Bool) : Ended (overtaken.procs party) := by
    cases party with
    | false => exact .inr ⟨error, failed⟩
    | true => exact .inl ⟨result, done⟩
  have only (name : ObjectName) (member : name ∈ chain) : name = result.commit := by
    obtain ⟨party, other, done', -, rfl⟩ := complete ended name member
    cases party with
    | false => cases failed.symm.trans done'
    | true => rw [Prog.done.inj (done.symm.trans done')]
  have single : chain = [result.commit] := by
    refine List.perm_singleton.mp ((List.perm_ext_iff_of_nodup once (List.nodup_singleton _)).mpr fun name => ?_)
    exact ⟨fun member => List.mem_singleton.mpr (only name member),
      fun member => List.mem_singleton.mp member ▸ reported true result done new⟩
  rw [fresh, single, commit] at path
  exact path

end LedgerVcs
