import LedgerVcs.Meta.Repository

set_option autoImplicit false

/-! What the repository's operations write, whatever they are told. -/

namespace LedgerVcs

open Prog (ofExcept)

/-! ## The transactions that change a ref -/

/-- What one of them is about. -/
structure Move where
  name : RefName
  /-- The ref's new state, or nothing when it is deleted. -/
  placed : Option Ref
  condition : Condition
  sequence : Nat
  version : Nat
  entry : OpLogEntry

def Move.write (move : Move) : WriteOp :=
  match move.placed with
  | some ref => .put (.ref move.name) ref (some move.condition) (some ref.generation) ref.expires_at_us
  | none => .delete (.ref move.name) (some move.condition)

/-- Writes beside the ref, the counter and the log. -/
def Accessory : WriteOp → Prop
  | .put (.change _) _ _ _ _ => True
  | .put (.idem _) _ _ _ _ => True
  | .emit _ => True
  | _ => False

/-- The writes that carry out a move. -/
def Carries (move : Move) (writes : List WriteOp) : Prop :=
  move.entry.sequence = move.sequence ∧ move.entry.ref = some move.name ∧
    move.entry.after = move.placed.map Ref.target ∧
    ∃ accessories, (∀ write ∈ accessories, Accessory write) ∧
      writes = move.write :: counter_writes move.sequence move.version ++ op_write move.entry :: accessories

/-- Commands of an operation on a ref, with what its moves may be. -/
def RefCmd (env : EnvId) (moves : Move → Prop) : Cmd → Prop
  | .now_us => True
  | .meta_get pk _ => pk = env
  | .transact_write pk writes => pk = env ∧ ∃ move, Carries move writes ∧ moves move
  | _ => False

/-- The outcome's record under its key, when there is a key. -/
def Recording : Option String → List WriteOp → Prop
  | none, recording => recording = []
  | some key, recording =>
      ∃ record expires_at_us, recording = [.put (.idem key) record (some .absent) none expires_at_us]

/-- Commands of an operation on a ref that carries the key. -/
def KeyedCmd (env : EnvId) (key : Option String) (moves : Move → Prop) : Cmd → Prop
  | .now_us => True
  | .meta_get pk _ => pk = env
  | .transact_write pk writes =>
      pk = env ∧ ∃ move built recording, writes = built ++ recording ∧ Carries move built ∧ moves move ∧
        Recording key recording
  | _ => False

/-- The reads of the commit path, beside those of what builds its writes. -/
structure CommitReads (env : EnvId) (commands : Cmd → Prop) : Prop where
  clock : commands .now_us
  seq : commands (.meta_get env .seq)
  idem : ∀ key, commands (.meta_get env (.idem key))

/-- Commands of an operation on an upload session. -/
def SessionWrite : WriteOp → Prop
  | .put (.session _) _ _ _ _ => True
  | .put (.session_page _) _ _ _ _ => True
  | .delete (.session _) _ => True
  | .delete (.session_page _) _ => True
  | _ => False

def SessionCmd (env : EnvId) : Cmd → Prop
  | .now_us => True
  | .meta_get pk _ => pk = env
  | .meta_query pk _ _ => pk = env
  | .transact_write pk writes => pk = env ∧ ∀ write ∈ writes, SessionWrite write
  | _ => False

section Refs

variable {env : EnvId} {answers : (command : Cmd) → command.Response → Prop} {tally : Nat → Nat → Prop}
  {moves more : Move → Prop}

theorem RefCmd.mono (weaken : ∀ move, moves move → more move) (command : Cmd) (fits : RefCmd env moves command) :
    RefCmd env more command := by
  cases command with
  | transact_write pk writes =>
    obtain ⟨same, move, carries, met⟩ := fits
    exact ⟨same, move, carries, weaken move met⟩
  | _ => exact fits

theorem KeyedCmd.mono {key : Option String} (weaken : ∀ move, moves move → more move) (command : Cmd)
    (fits : KeyedCmd env key moves command) : KeyedCmd env key more command := by
  cases command with
  | transact_write pk writes =>
    obtain ⟨same, move, built, recording, split, carries, met, recorded⟩ := fits
    exact ⟨same, move, built, recording, split, carries, weaken move met, recorded⟩
  | _ => exact fits

theorem recording_accessory {key : Option String} {recording : List WriteOp} (recorded : Recording key recording) :
    ∀ write ∈ recording, Accessory write := by
  intro write member
  cases key with
  | none =>
    rw [show recording = [] from recorded] at member
    cases member
  | some key =>
    obtain ⟨record, expires_at_us, rfl⟩ := recorded
    rw [List.mem_singleton.mp member]
    trivial

theorem carries_append {move : Move} {writes more : List WriteOp} (carries : Carries move writes)
    (accessories : ∀ write ∈ more, Accessory write) : Carries move (writes ++ more) := by
  obtain ⟨sequence, ref, after, accessories', fit, rfl⟩ := carries
  refine ⟨sequence, ref, after, accessories' ++ more, fun write member => ?_, by simp⟩
  rcases List.mem_append.mp member with first | second
  next => exact fit write first
  next => exact accessories write second

theorem KeyedCmd.ref {key : Option String} (command : Cmd) (fits : KeyedCmd env key moves command) :
    RefCmd env moves command := by
  cases command with
  | transact_write pk writes =>
    obtain ⟨same, move, built, recording, rfl, carries, met, recorded⟩ := fits
    exact ⟨same, move, carries_append carries (recording_accessory recorded), met⟩
  | _ => exact fits

theorem recorded_outcome_yields {commands : Cmd → Prop} {key : String} (request : Request)
    (reads : commands (.meta_get env (.idem key))) :
    (recorded_outcome env key request).Yields commands answers fun _ => True := by
  refine .bind (.ofExcept fun _ _ => ?_)
  refine .bind (.ask reads fun item _ => ?_)
  cases item with
  | none => trivial
  | some item =>
    dsimp only
    split
    next => trivial
    next => trivial

theorem replay_yields {commands : Cmd → Prop} {key : String} (request : Request)
    (reads : commands (.meta_get env (.idem key))) :
    (replay env key request).Yields commands answers fun _ => True :=
  .bind ((recorded_outcome_yields request reads).mono (fun _ fits => fits) fun _ _ => trivial)

theorem idempotency_write_yields {commands : Cmd → Prop} (key : String) (request : Request) (outcome : Outcome)
    (sequence : Nat) (clock : commands .now_us) :
    (idempotency_write key request outcome sequence).Yields commands answers fun write =>
      Recording (some key) [write] := by
  refine .bind (.ask clock fun _ _ => ?_)
  refine .bind (.ask clock fun _ _ => ?_)
  exact .bind (.ofExcept fun _ _ => ⟨_, _, rfl⟩)

theorem change_write_yields {commands : Cmd → Prop} {change : ChangeId} (commit : ObjectName)
    (reads : commands (.meta_get env (.change change))) :
    (change_write env change commit).Yields commands answers Accessory :=
  .bind (.ask reads fun _ _ => trivial)

theorem next_sequence_yields {commands : Cmd → Prop} (reads : commands (.meta_get env .seq))
    (counted : ∀ item, answers (.meta_get env .seq) (some item) → tally item.body item.version) :
    (next_sequence env).Yields commands answers fun counter => tally counter.1 counter.2 := by
  refine .bind (.ask reads fun item fits => ?_)
  cases item with
  | none => trivial
  | some item => exact counted item fits

/-- The commit path commits what is built, with the record under the key. -/
theorem commit_attempts_yields {commands : Cmd → Prop} {built : List WriteOp → Prop}
    {build : Nat → Nat → Act (List WriteOp)} {key : Option String} (request : Request) (outcome : Outcome)
    (retries : Nat) (reads : CommitReads env commands)
    (counted : ∀ item, answers (.meta_get env .seq) (some item) → tally item.body item.version)
    (builds : ∀ sequence version, tally sequence version → (build sequence version).Yields commands answers built)
    (commits : ∀ writes recording, built writes → Recording key recording →
      commands (.transact_write env (writes ++ recording))) :
    (commit_attempts env build key request outcome retries).Yields commands answers fun _ => True := by
  induction retries with
  | zero => trivial
  | succ retries ih =>
    refine .bind ((next_sequence_yields reads.seq counted).mono (fun _ fits => fits) ?_)
    rintro ⟨sequence, version⟩ tallied
    refine .bind ((builds sequence version tallied).mono (fun _ fits => fits) fun writes made => ?_)
    -- The writes of the key's record, if there is a key, come in one of two ways and go on as one.
    extract_lets settle
    have rest (recording : List WriteOp) (recorded : Recording key recording) :
        (settle recording).Yields commands answers fun _ => True := by
      refine .bind (.ask (commits writes recording made recorded) fun response _ => ?_)
      cases response with
      | ok => trivial
      | error error =>
        cases error with
        | conflict message sk =>
          dsimp only
          split
          next => exact ih
          next =>
            cases key with
            | none => trivial
            | some key =>
              refine .bind ((replay_yields request (reads.idem key)).mono (fun _ fits => fits) fun recorded _ => ?_)
              cases recorded with
              | none => trivial
              | some => trivial
        | _ => trivial
    clear_value settle
    cases key with
    | none => exact rest [] rfl
    | some key =>
      exact .bind ((idempotency_write_yields key request outcome sequence reads.clock).mono (fun _ fits => fits)
        fun write recorded => rest [write] recorded)

theorem commit_with_counter_yields {commands : Cmd → Prop} {built : List WriteOp → Prop}
    {build : Nat → Nat → Act (List WriteOp)} {key : Option String} (request : Request) (outcome : Outcome)
    (reads : CommitReads env commands)
    (counted : ∀ item, answers (.meta_get env .seq) (some item) → tally item.body item.version)
    (builds : ∀ sequence version, tally sequence version → (build sequence version).Yields commands answers built)
    (commits : ∀ writes recording, built writes → Recording key recording →
      commands (.transact_write env (writes ++ recording))) :
    (commit_with_counter env build key request outcome).Yields commands answers fun _ => True := by
  delta commit_with_counter
  extract_lets settle
  have rest (recorded : Option Nat) : (settle recorded).Yields commands answers fun _ => True := by
    cases recorded with
    | some => trivial
    | none => exact commit_attempts_yields request outcome _ reads counted builds commits
  clear_value settle
  cases key with
  | none => exact rest none
  | some key =>
    exact .bind ((replay_yields request (reads.idem key)).mono (fun _ fits => fits) fun recorded _ => rest recorded)

/-- The move puts the ref at the target. -/
def Puts (tally : Nat → Nat → Prop) (name : RefName) (target : ObjectName) (condition : Condition)
    (generation : Int) (before : Option ObjectName) (move : Move) : Prop :=
  move.name = name ∧ move.condition = condition ∧ tally move.sequence move.version ∧ move.entry.before = before ∧
    ∃ ref, move.placed = some ref ∧ ref.name = name ∧ ref.target = target ∧ ref.generation = generation

/-- The move deletes the ref. -/
def Drops (tally : Nat → Nat → Prop) (name : RefName) (condition : Condition) (before : Option ObjectName)
    (move : Move) : Prop :=
  move.name = name ∧ move.condition = condition ∧ tally move.sequence move.version ∧ move.entry.before = before ∧
    move.placed = none

abbrev Mutation.Makes (mutation : Mutation) (tally : Nat → Nat → Prop) : Move → Prop :=
  Puts tally mutation.name mutation.target mutation.condition mutation.generation mutation.before

theorem build_yields {commands : Cmd → Prop} (mutation : Mutation) {ref : Ref} (now : Int) {sequence version : Nat}
    (reads : ∀ change, commands (.meta_get env (.change change)))
    (tallied : tally sequence version) (name : ref.name = mutation.name) (target : ref.target = mutation.target)
    (generation : ref.generation = mutation.generation) :
    (mutation.build env ref now sequence version).Yields commands answers
      fun writes => ∃ move, Carries move writes ∧ mutation.Makes tally move := by
  delta Mutation.build
  extract_lets moved settle
  have rest (changed : List WriteOp) (accessories : ∀ write ∈ changed, Accessory write) :
      (settle changed).Yields commands answers fun writes => ∃ move, Carries move writes ∧ mutation.Makes tally move := by
    let entry : OpLogEntry :=
      { sequence, kind := mutation.kind, ref := some mutation.name, before := mutation.before,
        after := some mutation.target, principal := mutation.principal, at_us := now }
    let emitted : WriteOp :=
      .emit (.ref_updated mutation.name mutation.before mutation.target mutation.generation sequence)
    refine ⟨⟨mutation.name, some ref, mutation.condition, sequence, version, entry⟩,
      ⟨rfl, rfl, congrArg some target.symm, changed ++ [emitted], fun write member => ?_, ?_⟩,
      ⟨rfl, rfl, tallied, rfl, ref, rfl, name, target, generation⟩⟩
    next =>
      rcases List.mem_append.mp member with before | last
      next => exact accessories write before
      next => rw [List.mem_singleton.mp last]; trivial
    next => simp [moved, Move.write, generation, counter_writes, entry, emitted]
  clear_value settle
  cases mutation.change_id with
  | none => exact rest [] fun write member => nomatch member
  | some change =>
    refine .bind ((change_write_yields mutation.target (reads change)).mono (fun _ fits => fits) fun write fits => ?_)
    exact rest [write] fun other member => List.mem_singleton.mp member ▸ fits

theorem keyed_reads (key : Option String) : CommitReads env (KeyedCmd env key moves) := ⟨trivial, rfl, fun _ => rfl⟩

theorem describe_conflict_yields {key : Option String} (name : RefName) :
    (describe_conflict env name).Yields (KeyedCmd env key moves) answers fun _ => True := by
  refine .bind (.bind (.ask rfl fun _ _ => ?_))
  trivial

theorem get_ref_keyed {key : Option String} (name : RefName) :
    (get_ref env name).Yields (KeyedCmd env key moves) answers fun _ => True := by
  refine .bind (.ask rfl fun item _ => ?_)
  cases item <;> trivial

theorem get_ref_yields (name : RefName) : (get_ref env name).Yields (RefCmd env moves) answers fun _ => True :=
  (@get_ref_keyed _ _ _ none name).mono KeyedCmd.ref fun _ met => met

theorem mutate_ref_keyed (mutation : Mutation)
    (counted : ∀ item, answers (.meta_get env .seq) (some item) → tally item.body item.version) :
    (mutate_ref env mutation).Yields (KeyedCmd env mutation.idempotency_key (mutation.Makes tally)) answers
      fun update => update.replayed = false → update.ref.target = mutation.target := by
  refine .bind (.ask trivial fun now _ => ?_)
  refine .bind (.ofExcept fun _ _ => ?_)
  refine .bind (@Prog.Yields.mono _ _ _ _ _ _ (fun _ => True) _ _ _ ?_ (fun _ fits => fits) ?_)
  next =>
    refine .handling ?_ fun error => ?_
    next =>
      refine commit_with_counter_yields _ _ (keyed_reads _) counted
        (fun sequence version tallied => build_yields mutation now (fun _ => rfl) tallied rfl rfl rfl) ?_
      rintro writes recording ⟨move, carries, makes⟩ recorded
      exact ⟨rfl, move, writes, recording, rfl, carries, makes, recorded⟩
    next =>
      cases error with
      | conflict message sk =>
        exact .bind ((describe_conflict_yields mutation.name).mono (fun _ fits => fits) fun _ _ => trivial)
      | _ => trivial
  next =>
    rintro ⟨sequence, replayed⟩ -
    cases replayed with
    | true =>
      refine .bind ((get_ref_keyed mutation.name).mono (fun _ fits => fits) fun _ _ => ?_)
      intro impossible
      cases impossible
    | false => exact fun _ => rfl

/-! ## Each operation -/

theorem create_ref_keyed (name : RefName) (target : ObjectName) (principal : String) (lifecycle : RefLifecycle)
    (ttl_us : Option Int) (change_id : Option ChangeId) (key : Option String) (request : Option Request)
    (counted : ∀ item, answers (.meta_get env .seq) (some item) → tally item.body item.version) :
    (create_ref env name target principal lifecycle ttl_us change_id key request).Yields
      (KeyedCmd env key (Puts tally name target .absent 1 none)) answers fun update =>
        update.replayed = false → update.ref.target = target := by
  rw [create_ref]
  exact (mutate_ref_keyed _ counted).mono (fun _ fits => fits) fun _ met => met

theorem update_ref_keyed (name : RefName) (expected : Int) (target : ObjectName) (principal : String)
    (change_id : Option ChangeId) (key : Option String) (request : Option Request) (kind : OpKind)
    (counted : ∀ item, answers (.meta_get env .seq) (some item) → tally item.body item.version) :
    (update_ref env name expected target principal change_id key request kind).Yields
      (KeyedCmd env key fun move => ∃ item, answers (.meta_get env (.ref name)) (some item) ∧
        Puts tally name target (.generation_is expected) (item.body.generation + 1) (some item.body.target) move)
      answers fun update => update.replayed = false → update.ref.target = target := by
  refine .bind (.bind (.ask rfl fun item fits => ?_))
  cases item with
  | none => trivial
  | some item =>
    refine .bind (.ofExcept fun _ _ => ?_)
    exact (mutate_ref_keyed _ counted).mono (KeyedCmd.mono fun move puts => ⟨item, fits, puts⟩) fun _ met => met

theorem delete_build_yields {commands : Cmd → Prop} {name : RefName} {expected : Int} {before : ObjectName}
    {principal : String} {sequence version : Nat} (clock : commands .now_us) (tallied : tally sequence version) :
    (do
      let at_us ← issue .now_us
      return .delete (.ref name) (some (.generation_is expected)) ::
        counter_writes sequence version ++
        [op_write
          { sequence, kind := .delete_ref, ref := some name, before := some before, after := none, principal, at_us },
        .emit (.ref_deleted name before sequence)] : Act (List WriteOp)).Yields commands answers
      fun writes => ∃ move, Carries move writes ∧ Drops tally name (.generation_is expected) (some before) move := by
  refine .bind (.ask clock fun at_us _ => ?_)
  let entry : OpLogEntry :=
    { sequence, kind := .delete_ref, ref := some name, before := some before, after := none, principal, at_us }
  refine ⟨⟨name, none, .generation_is expected, sequence, version, entry⟩,
    ⟨rfl, rfl, rfl, [.emit (.ref_deleted name before sequence)], ?_, rfl⟩, rfl, rfl, tallied, rfl, rfl⟩
  intro write member
  rw [List.mem_singleton.mp member]
  trivial

theorem delete_ref_keyed (name : RefName) (expected : Int) (principal : String) (key : Option String)
    (counted : ∀ item, answers (.meta_get env .seq) (some item) → tally item.body item.version) :
    (delete_ref env name expected principal key).Yields
      (KeyedCmd env key fun move => ∃ item, answers (.meta_get env (.ref name)) (some item) ∧
        Drops tally name (.generation_is expected) (some item.body.target) move) answers fun _ => True := by
  refine .bind (.bind (.ask rfl fun item fits => ?_))
  cases item with
  | none => trivial
  | some item =>
    refine .bind (@Prog.Yields.mono _ _ _ _ _ _ (fun _ => True) _ _ _ ?_ (fun _ fits => fits) fun _ _ => trivial)
    refine commit_with_counter_yields _ _ (keyed_reads _) counted
      (fun sequence version tallied => delete_build_yields trivial tallied) ?_
    rintro writes recording ⟨move, carries, drops⟩ recorded
    exact ⟨rfl, move, writes, recording, rfl, carries, ⟨item, fits, drops⟩, recorded⟩

/-- The moves that `undo` can make, from the entry it reads and the ref as it reads it. -/
def Undoes (answers : (command : Cmd) → command.Response → Prop) (tally : Nat → Nat → Prop) (env : EnvId)
    (sequence : Nat) (move : Move) : Prop :=
  ∃ item name, answers (.meta_get env (.op sequence)) (some item) ∧ item.body.ref = some name ∧
    ((∃ seen read, answers (.meta_get env (.ref name)) (some seen) ∧ answers (.meta_get env (.ref name)) (some read) ∧
        Drops tally name (.generation_is seen.body.generation) (some read.body.target) move) ∨
      (∃ target, item.body.before = some target ∧ answers (.meta_get env (.ref name)) none ∧
        Puts tally name target .absent 1 none move) ∨
      (∃ target seen read, item.body.before = some target ∧ answers (.meta_get env (.ref name)) (some seen) ∧
        answers (.meta_get env (.ref name)) (some read) ∧
        Puts tally name target (.generation_is seen.body.generation) (read.body.generation + 1)
          (some read.body.target) move))

theorem undo_keyed (sequence : Nat) (principal : String) (key : Option String)
    (counted : ∀ item, answers (.meta_get env .seq) (some item) → tally item.body item.version) :
    (undo env sequence principal key).Yields (KeyedCmd env key (Undoes answers tally env sequence)) answers
      fun _ => True := by
  refine .bind (.bind (.ask rfl fun item entered => ?_))
  cases item with
  | none => trivial
  | some item =>
    simp only [Prog.Yields, pure]
    cases moved : item.body.ref with
    | none => trivial
    | some name =>
      refine .bind (.bind (.ask rfl fun seen fits => ?_))
      cases earlier : item.body.before with
      | none =>
        cases seen with
        | none => trivial
        | some seen =>
          refine .bind ((delete_ref_keyed name _ principal key counted).mono (KeyedCmd.mono ?_) fun _ _ => trivial)
          rintro move ⟨read, again, drops⟩
          exact ⟨item, name, entered, moved, .inl ⟨seen, read, fits, again, drops⟩⟩
      | some target =>
        cases seen with
        | none =>
          refine (create_ref_keyed name target principal _ _ _ key _ counted).mono (KeyedCmd.mono ?_) fun _ _ => trivial
          intro move puts
          exact ⟨item, name, entered, moved, .inr (.inl ⟨target, earlier, fits, puts⟩)⟩
        | some seen =>
          refine (update_ref_keyed name _ target principal _ key _ _ counted).mono (KeyedCmd.mono ?_) fun _ _ => trivial
          rintro move ⟨read, again, puts⟩
          exact ⟨item, name, entered, moved, .inr (.inr ⟨target, seen, read, earlier, fits, again, puts⟩)⟩

theorem create_ref_yields (name : RefName) (target : ObjectName) (principal : String) (lifecycle : RefLifecycle)
    (ttl_us : Option Int) (change_id : Option ChangeId) (key : Option String) (request : Option Request)
    (counted : ∀ item, answers (.meta_get env .seq) (some item) → tally item.body item.version) :
    (create_ref env name target principal lifecycle ttl_us change_id key request).Yields
      (RefCmd env (Puts tally name target .absent 1 none)) answers fun update =>
        update.replayed = false → update.ref.target = target :=
  (create_ref_keyed name target _ _ _ _ _ _ counted).mono KeyedCmd.ref fun _ met => met

theorem update_ref_yields (name : RefName) (expected : Int) (target : ObjectName) (principal : String)
    (change_id : Option ChangeId) (key : Option String) (request : Option Request) (kind : OpKind)
    (counted : ∀ item, answers (.meta_get env .seq) (some item) → tally item.body item.version) :
    (update_ref env name expected target principal change_id key request kind).Yields
      (RefCmd env fun move => ∃ item, answers (.meta_get env (.ref name)) (some item) ∧
        Puts tally name target (.generation_is expected) (item.body.generation + 1) (some item.body.target) move)
      answers fun update => update.replayed = false → update.ref.target = target :=
  (update_ref_keyed name expected target _ _ _ _ _ counted).mono KeyedCmd.ref fun _ met => met

end Refs

/-! ## Sessions -/

section Sessions

variable {env : EnvId} {answers : (command : Cmd) → command.Response → Prop}

theorem transact_yields {commands : Cmd → Prop} {writes : List WriteOp}
    (fits : commands (.transact_write env writes)) :
    (transact env writes).Yields commands answers fun _ => True :=
  .bind (.ask fits fun _ _ => .ofExcept fun _ _ => trivial)

theorem begin_write_yields (drawn : SessionId) (principal : String) (ttl_us : Int) :
    (begin_write env drawn principal ttl_us).Yields (SessionCmd env) answers fun session =>
      session.session_id = drawn := by
  refine .bind (.ask trivial fun now _ => .bind (.ask trivial fun created_at_us _ => ?_))
  refine .bind ((transact_yields ⟨rfl, fun write member => ?_⟩).mono (fun _ fits => fits) fun _ _ => rfl)
  rw [List.mem_singleton.mp member]
  trivial

theorem get_session_yields (session : SessionId) :
    (get_session env session).Yields (SessionCmd env) answers fun _ => True := by
  refine .bind (.ask rfl fun item _ => ?_)
  cases item <;> trivial

theorem session_pages_yields (session : SessionId) :
    (session_pages env session).Yields (SessionCmd env) answers fun _ => True :=
  .ask rfl fun _ _ => trivial

theorem uploaded_objects_yields (session : SessionId) :
    (uploaded_objects env session).Yields (SessionCmd env) answers fun _ => True :=
  .bind ((session_pages_yields session).mono (fun _ fits => fits) fun _ _ => trivial)

theorem record_uploaded_yields (session : SessionId) (names : List ObjectName) :
    (record_uploaded env session names).Yields (SessionCmd env) answers fun _ => True := by
  rw [record_uploaded]
  split
  next => exact .bind ((uploaded_objects_yields session).mono (fun _ fits => fits) fun _ _ => trivial)
  next =>
    refine .bind ((get_session_yields session).mono (fun _ fits => fits) fun current _ => ?_)
    refine .bind ((session_pages_yields session).mono (fun _ fits => fits) fun pages _ => ?_)
    dsimp only
    split
    next => trivial
    next =>
      refine .bind ((transact_yields ⟨rfl, fun write member => ?_⟩).mono (fun _ fits => fits) fun _ _ => trivial)
      obtain ⟨page, -, rfl⟩ := List.mem_map.mp member
      trivial

theorem renew_session_yields (session : SessionId) (ttl_us : Int) :
    (renew_session env session ttl_us).Yields (SessionCmd env) answers fun _ => True := by
  refine .bind ((get_session_yields session).mono (fun _ fits => fits) fun current _ => ?_)
  refine .bind (.ask trivial fun now _ => .bind (.ofExcept fun _ _ => ?_))
  refine .bind ((session_pages_yields session).mono (fun _ fits => fits) fun pages _ => ?_)
  refine .bind ((transact_yields ⟨rfl, fun write member => ?_⟩).mono (fun _ fits => fits) fun _ _ => trivial)
  rcases List.mem_cons.mp member with rfl | page
  next => trivial
  next =>
    obtain ⟨row, -, rfl⟩ := List.mem_map.mp page
    trivial

theorem end_session_yields (session : SessionId) :
    (end_session env session).Yields (SessionCmd env) answers fun _ => True := by
  refine .bind ((session_pages_yields session).mono (fun _ fits => fits) fun pages _ => ?_)
  refine transact_yields ⟨rfl, fun write member => ?_⟩
  rcases List.mem_append.mp member with page | last
  next =>
    obtain ⟨row, -, rfl⟩ := List.mem_map.mp page
    trivial
  next => rw [List.mem_singleton.mp last]; trivial

end Sessions

end LedgerVcs
