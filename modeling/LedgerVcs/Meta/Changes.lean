import LedgerVcs.Lib.Recall
import LedgerVcs.Lib.Script
import LedgerVcs.Meta.Generations

set_option autoImplicit false

/-! What is recorded of a change, in any interleaving of the mutations that carry it. -/

namespace LedgerVcs

open Prog (Actor Exchange Pool Traced)

/-! ## What a client knows when it commits -/

section Reads

variable (env : EnvId)

/-- The record of the change was read, and before that a counter of the version. -/
def ReadSince (version : Nat) (change : ChangeId) (record : Option (Item ChangeRecord)) :
    List (Exchange Cmd Cmd.Response) → Prop
  | [] => False
  | exchange :: earlier =>
      (exchange = ⟨.meta_get env (.change change), record⟩ ∧
        ∃ item : Item Nat, ⟨.meta_get env .seq, some item⟩ ∈ earlier ∧ item.version = version) ∨
      ReadSince version change record earlier

theorem ReadSince.suffix {env : EnvId} {version : Nat} {change : ChangeId} {record : Option (Item ChangeRecord)}
    {told later : List (Exchange Cmd Cmd.Response)} (grown : told <:+ later)
    (reads : ReadSince env version change record told) : ReadSince env version change record later := by
  obtain ⟨more, rfl⟩ := grown
  induction more with
  | nil => exact reads
  | cons exchange more ih => exact .inr ih

theorem ReadSince.counter {env : EnvId} {version : Nat} {change : ChangeId} {record : Option (Item ChangeRecord)}
    {told : List (Exchange Cmd Cmd.Response)} (reads : ReadSince env version change record told) :
    ∃ item : Item Nat, ⟨.meta_get env .seq, some item⟩ ∈ told ∧ item.version = version := by
  induction told with
  | nil => cases reads
  | cons exchange earlier ih =>
    rcases reads with ⟨-, item, member, same⟩ | before
    next => exact ⟨item, List.mem_cons_of_mem _ member, same⟩
    next =>
      obtain ⟨item, member, same⟩ := ih before
      exact ⟨item, List.mem_cons_of_mem _ member, same⟩

def recorded_by : WriteOp → Option (ChangeId × List ObjectName)
  | .put (.change change) record _ _ _ => some (change, record.commits)
  | _ => none

/-- The commits that a change is on record with. -/
def listed_commits : Option (Item ChangeRecord) → List ObjectName
  | some item => item.body.commits
  | none => []

/-- What the writes of a move record of changes: with a change, the move's commit before those that were on
record, as they were read since the counter was; without one, nothing. -/
def Extending (change : Option ChangeId) (told : List (Exchange Cmd Cmd.Response)) (move : Move)
    (writes : List WriteOp) : Prop :=
  match change with
  | none => writes.filterMap recorded_by = []
  | some change => ∃ ref record, move.placed = some ref ∧ ReadSince env move.version change record told ∧
      writes.filterMap recorded_by = [(change, ref.target :: listed_commits record)]

/-- The commands of a call that carries the change. -/
def Changing (change : Option ChangeId) (told : List (Exchange Cmd Cmd.Response)) : Cmd → Prop
  | .now_us => True
  | .meta_get pk _ => pk = env
  | .transact_write pk writes =>
      pk = env ∧ ∃ move, Carries move writes ∧ move.sequence = move.version ∧ Extending env change told move writes
  | _ => False

end Reads

/-! ## What the calls do -/

section Calls

variable {env : EnvId} {change : Option ChangeId} {told : List (Exchange Cmd Cmd.Response)}

abbrev Recalling {α : Type} (env : EnvId) (change : Option ChangeId) (act : Act α)
    (post : Except PyError α → List (Exchange Cmd Cmd.Response) → Prop) (told : List (Exchange Cmd Cmd.Response)) : Prop :=
  act.Recalls (Changing env change) (Counted env) post told

/-- Reads of the environment. -/
def Looking (env : EnvId) : Cmd → Prop
  | .now_us => True
  | .meta_get pk _ => pk = env
  | _ => False

theorem looking {α : Type} {act : Act α} {result : α → Prop} (yields : act.Yields (Looking env) (Counted env) result) :
    Recalling env change act (fun outcome _ => ∀ value, outcome = .ok value → result value) told := by
  refine .anyhow yields fun command told fits => ?_
  cases command with
  | now_us | meta_get => exact fits
  | _ => cases fits

theorem next_sequence_recalls :
    Recalling env change (next_sequence env) (fun outcome later => ∀ sequence version, outcome = .ok (sequence, version) →
      sequence = version ∧ ∃ item : Item Nat, ⟨.meta_get env .seq, some item⟩ ∈ later ∧ item.version = version) told := by
  refine .asking rfl fun item counted => ?_
  cases item with
  | none => exact fun _ _ impossible => by cases impossible
  | some item =>
    intro sequence version same
    cases same
    exact ⟨counted rfl item rfl, item, List.mem_cons_self, rfl⟩

/-- Only what the writes record of changes counts. -/
theorem Extending.alike {told : List (Exchange Cmd Cmd.Response)} {move : Move} {writes more : List WriteOp}
    (extending : Extending env change told move writes) (same : more.filterMap recorded_by = writes.filterMap recorded_by) :
    Extending env change told move more := by
  cases change with
  | none => exact same.trans extending
  | some change =>
    obtain ⟨ref, record, placed, reads, records⟩ := extending
    exact ⟨ref, record, placed, reads, same.trans records⟩

theorem Extending.suffix {told later : List (Exchange Cmd Cmd.Response)} {move : Move} {writes : List WriteOp}
    (extending : Extending env change told move writes) (grown : told <:+ later) :
    Extending env change later move writes := by
  cases change with
  | none => exact extending
  | some change =>
    obtain ⟨ref, record, placed, reads, records⟩ := extending
    exact ⟨ref, record, placed, reads.suffix grown, records⟩

theorem Extending.append {told later : List (Exchange Cmd Cmd.Response)} {move : Move} {writes recording : List WriteOp}
    {key : Option String} (extending : Extending env change told move writes) (recorded : Recording key recording)
    (grown : told <:+ later) : Extending env change later move (writes ++ recording) := by
  refine (extending.suffix grown).alike ?_
  cases key with
  | none => rw [show recording = [] from recorded, List.append_nil]
  | some key =>
    obtain ⟨record, expires_at_us, rfl⟩ := recorded
    simp [List.filterMap_append, recorded_by]

/-- What a call builds at a counter that it has read. -/
def Builds (env : EnvId) (change : Option ChangeId) (build : Nat → Nat → Act (List WriteOp)) : Prop :=
  ∀ version (item : Item Nat) told, ⟨.meta_get env .seq, some item⟩ ∈ told → item.version = version →
    Recalling env change (build version version) (fun outcome later => ∀ writes, outcome = .ok writes →
      ∃ move, Carries move writes ∧ move.sequence = move.version ∧ Extending env change later move writes) told

theorem commit_attempts_recalls {build : Nat → Nat → Act (List WriteOp)} {key : Option String} (request : Request)
    (outcome : Outcome) (retries : Nat) (builds : Builds env change build) :
    Recalling env change (commit_attempts env build key request outcome retries) (fun _ _ => True) told := by
  induction retries generalizing told with
  | zero => trivial
  | succ retries ih =>
    refine next_sequence_recalls.andThen (fun _ _ _ => trivial) ?_
    rintro ⟨sequence, version⟩ counted read
    obtain ⟨rfl, item, seen, held⟩ := read sequence version rfl
    refine (builds sequence item counted seen held).andThen (fun _ _ _ => trivial) fun writes later made => ?_
    obtain ⟨move, carries, tallied, extending⟩ := made writes rfl
    extract_lets settle
    -- Whatever was told since, the record that was read came after the counter.
    have rest (recording : List WriteOp) (last : List (Exchange Cmd Cmd.Response)) (recorded : Recording key recording)
        (grown : later <:+ last) : Recalling env change (settle recording) (fun _ _ => True) last := by
      have extends_ : Extending env change last move (writes ++ recording) := extending.append recorded grown
      refine .asking ⟨rfl, move, carries_append carries (recording_accessory recorded), tallied, extends_⟩
        fun response _ => ?_
      cases response with
      | ok => trivial
      | error error =>
        cases error with
        | conflict message sk =>
          dsimp only
          split
          next => exact ih
          next =>
            cases key with
            | none => trivial
            | some key =>
              refine (looking (replay_yields request rfl)).andThen (fun _ _ _ => trivial) fun found _ _ => ?_
              cases found <;> trivial
        | _ => trivial
    clear_value settle
    cases key with
    | none => exact rest [] later rfl List.suffix_rfl
    | some key =>
      refine (looking (idempotency_write_yields key request outcome sequence trivial)).suffix.andThen
        (fun _ _ _ => trivial) fun write last met => ?_
      exact rest [write] last (met.1 write rfl) met.2

theorem commit_with_counter_recalls {build : Nat → Nat → Act (List WriteOp)} {key : Option String} (request : Request)
    (outcome : Outcome) (builds : Builds env change build) :
    Recalling env change (commit_with_counter env build key request outcome) (fun _ _ => True) told := by
  delta commit_with_counter
  extract_lets settle
  have rest (found : Option Nat) (later : List (Exchange Cmd Cmd.Response)) :
      Recalling env change (settle found) (fun _ _ => True) later := by
    cases found with
    | some => trivial
    | none => exact commit_attempts_recalls request outcome _ builds
  clear_value settle
  cases key with
  | none => exact rest none told
  | some key =>
    exact (looking (replay_yields request rfl)).andThen (fun _ _ _ => trivial) fun found later _ => rest found later

theorem build_recalls (mutation : Mutation) {ref : Ref} (now : Int) (target : ref.target = mutation.target)
    (generation : ref.generation = mutation.generation) :
    Builds env mutation.change_id (mutation.build env ref now) := by
  intro version item told seen held
  delta Mutation.build
  extract_lets moved settle
  let entry : OpLogEntry :=
    { sequence := version, kind := mutation.kind, ref := some mutation.name, before := mutation.before,
      after := some mutation.target, principal := mutation.principal, at_us := now }
  let emitted : WriteOp :=
    .emit (.ref_updated mutation.name mutation.before mutation.target mutation.generation version)
  let move : Move := ⟨mutation.name, some ref, mutation.condition, version, version, entry⟩
  have rest (changed : List WriteOp) (later : List (Exchange Cmd Cmd.Response))
      (accessories : ∀ write ∈ changed, Accessory write)
      (extending : Extending env mutation.change_id later move changed) :
      Recalling env mutation.change_id (settle changed) (fun outcome later => ∀ writes, outcome = .ok writes →
        ∃ move, Carries move writes ∧ move.sequence = move.version ∧
          Extending env mutation.change_id later move writes) later := by
    intro writes same
    cases same
    refine ⟨move, ⟨rfl, rfl, congrArg some target.symm, changed ++ [emitted], fun write member => ?_, ?_⟩, rfl, ?_⟩
    next =>
      rcases List.mem_append.mp member with before | last
      next => exact accessories write before
      next => rw [List.mem_singleton.mp last]; trivial
    next => simp [moved, move, Move.write, generation, counter_writes, entry, emitted]
    next => exact extending.alike (by simp [moved, counter_writes, op_write, List.filterMap_cons, recorded_by])
  clear_value settle
  cases carried : mutation.change_id with
  | none =>
    rw [carried] at rest
    exact rest [] told (fun _ member => absurd member List.not_mem_nil) rfl
  | some change =>
    rw [carried] at rest
    refine .bind (.asking rfl fun record _ => ?_)
    refine rest _ _ (fun write member => ?_) ⟨ref, record, rfl, .inl ⟨rfl, item, seen, held⟩, ?_⟩
    next => rw [List.mem_singleton.mp member]; trivial
    next => rw [target]; cases record <;> rfl

theorem mutate_ref_recalls (mutation : Mutation) :
    Recalling env mutation.change_id (mutate_ref env mutation) (fun _ _ => True) told := by
  refine .asking trivial fun now _ => ?_
  refine Prog.Recalls.andThen (Q := fun _ _ => True) (.ofExcept trivial) (fun _ _ _ => trivial) fun _ _ _ => ?_
  refine Prog.Recalls.andThen (Q := fun _ _ => True) ?_ (fun _ _ _ => trivial) fun value later _ => ?_
  next =>
    refine .handling (commit_with_counter_recalls _ _ (build_recalls mutation now rfl rfl)) (fun _ _ _ => trivial)
      fun error later _ => ?_
    cases error with
    | conflict message sk => exact .bind (.bind (.asking rfl fun _ _ => trivial))
    | _ => trivial
  next =>
    obtain ⟨sequence, replayed⟩ := value
    cases replayed with
    | true =>
      refine .bind (.asking rfl fun current _ => ?_)
      cases current <;> trivial
    | false => trivial

theorem create_ref_recalls (name : RefName) (target : ObjectName) (principal : String) (lifecycle : RefLifecycle)
    (ttl_us : Option Int) (key : Option String) (request : Option Request) :
    Recalling env change (create_ref env name target principal lifecycle ttl_us change key request) (fun _ _ => True)
      told :=
  mutate_ref_recalls
    { name, target, condition := .absent, generation := 1, kind := .create_ref, principal, lifecycle, ttl_us,
      change_id := change, idempotency_key := key, before := none, idempotency_request := request,
      keep_expiry := none }

theorem update_ref_recalls (name : RefName) (expected : Int) (target : ObjectName) (principal : String)
    (key : Option String) (request : Option Request) (kind : OpKind) :
    Recalling env change (update_ref env name expected target principal change key request kind) (fun _ _ => True)
      told := by
  refine .bind (.asking rfl fun item _ => ?_)
  cases item with
  | none => trivial
  | some item =>
    refine Prog.Recalls.andThen (Q := fun _ _ => True) (.ofExcept trivial) (fun _ _ _ => trivial) fun _ _ _ => ?_
    exact mutate_ref_recalls
      { name, target, condition := .generation_is expected, generation := item.body.generation + 1, kind, principal,
        lifecycle := item.body.lifecycle, ttl_us := none, change_id := change, idempotency_key := key,
        before := some item.body.target, idempotency_request := request, keep_expiry := item.body.expires_at_us }

theorem delete_ref_recalls (name : RefName) (expected : Int) (principal : String) (key : Option String) :
    Recalling env none (delete_ref env name expected principal key) (fun _ _ => True) told := by
  refine .bind (.asking rfl fun item _ => ?_)
  cases item with
  | none => trivial
  | some item =>
    refine Prog.Recalls.andThen (Q := fun _ _ => True) (commit_with_counter_recalls _ _ ?_) (fun _ _ _ => trivial)
      fun _ _ _ => trivial
    intro version counter told seen held
    refine .asking trivial fun at_us _ writes same => ?_
    cases same
    let entry : OpLogEntry :=
      { sequence := version, kind := .delete_ref, ref := some name, before := some item.body.target, after := none,
        principal, at_us }
    refine ⟨⟨name, none, .generation_is expected, version, version, entry⟩,
      ⟨rfl, rfl, rfl, [.emit (.ref_deleted name item.body.target version)], fun write member => ?_, rfl⟩, rfl, rfl⟩
    rw [List.mem_singleton.mp member]
    trivial

theorem undo_recalls (sequence : Nat) (principal : String) (key : Option String) :
    Recalling env none (undo env sequence principal key) (fun _ _ => True) told := by
  refine .bind (.asking rfl fun item _ => ?_)
  cases item with
  | none => trivial
  | some item =>
    simp only [Prog.Recalls, pure]
    cases item.body.ref with
    | none => trivial
    | some name =>
      refine .bind (.asking rfl fun current _ => ?_)
      simp only [Prog.Recalls, pure]
      cases item.body.before with
      | none =>
        cases current with
        | none => trivial
        | some current => exact (delete_ref_recalls name _ principal key).andThen (fun _ _ _ => trivial) fun _ _ _ => trivial
      | some before =>
        cases current with
        | none => exact create_ref_recalls name before principal _ _ key _
        | some current => exact update_ref_recalls name _ before principal key _ _

/-- The change that a call carries. -/
def RefCall.change_id : RefCall → Option ChangeId
  | .create _ _ _ _ _ change_id _ _ | .update _ _ _ _ change_id _ _ _ => change_id
  | .delete _ _ _ _ | .undo _ _ _ => none

theorem code_recalls (call : RefCall) : Recalling env call.change_id (call.code env) (fun _ _ => True) told := by
  cases call with
  | create name target principal lifecycle ttl_us change_id key request =>
    exact (create_ref_recalls name target principal lifecycle ttl_us key request).andThen (fun _ _ _ => trivial)
      fun _ _ _ => trivial
  | update name expected target principal change_id key request kind =>
    exact (update_ref_recalls name expected target principal key request kind).andThen (fun _ _ _ => trivial)
      fun _ _ _ => trivial
  | delete name expected principal key =>
    exact (delete_ref_recalls name expected principal key).andThen (fun _ _ _ => trivial) fun _ _ _ => trivial
  | undo sequence principal key =>
    exact (undo_recalls sequence principal key).andThen (fun _ _ _ => trivial) fun _ _ _ => trivial

end Calls

/-! ## What a transaction does to the records -/

section Writes

variable {partition after : Partition} {move : Move} {writes : List WriteOp}

/-- No record is deleted. -/
def KeepsChanges (write : WriteOp) : Prop := ∀ change condition, write ≠ .delete (.change change) condition

theorem carries_keeping (carries : Carries move writes) : ∀ write ∈ writes, KeepsChanges write := by
  obtain ⟨-, -, -, accessories, fit, rfl⟩ := carries
  intro write member change condition same
  subst same
  simp only [List.cons_append, counter_writes, List.mem_cons, List.nil_append, op_write, reduceCtorEq, false_or] at member
  rcases member with moved | accessory
  next =>
    rw [Move.write] at moved
    split at moved <;> cases moved
  next => exact fit _ accessory

theorem apply_changes {write : WriteOp} (keeping : KeepsChanges write) (applied : apply partition write = .ok after) :
    match recorded_by write with
    | none => after.changes = partition.changes
    | some (change, commits) => ∃ item : Item ChangeRecord, item.body.commits = commits ∧
        after.changes = partition.changes.insert change item := by
  cases write with
  | emit event => cases applied; rfl
  | put key body condition generation expires_at_us =>
    obtain ⟨-, rfl⟩ := apply_put.mp applied
    cases key with
    | change change => exact ⟨_, rfl, rfl⟩
    | _ => rfl
  | delete key condition =>
    obtain ⟨-, rfl⟩ := apply_delete.mp applied
    cases key with
    | change change => exact absurd rfl (keeping change condition)
    | _ => rfl

theorem transact_unrecorded (keeping : ∀ write ∈ writes, KeepsChanges write) (none : writes.filterMap recorded_by = [])
    (applied : partition.transact_write writes = .ok after) : after.changes = partition.changes := by
  induction writes generalizing partition with
  | nil => cases applied; rfl
  | cons write writes ih =>
    obtain ⟨middle, first, rest⟩ := transact_ok.mp applied
    have step := apply_changes (keeping write List.mem_cons_self) first
    rw [List.filterMap_eq_nil_iff] at none
    rw [none write List.mem_cons_self] at step
    rw [← step]
    exact ih (fun other member => keeping other (List.mem_cons_of_mem _ member))
      (List.filterMap_eq_nil_iff.mpr fun other member => none other (List.mem_cons_of_mem _ member)) rest

theorem transact_commits_recorded {change : ChangeId} {commits : List ObjectName} (keeping : ∀ write ∈ writes, KeepsChanges write)
    (one : writes.filterMap recorded_by = [(change, commits)]) (applied : partition.transact_write writes = .ok after) :
    ∃ item : Item ChangeRecord, item.body.commits = commits ∧ after.changes = partition.changes.insert change item := by
  induction writes generalizing partition with
  | nil => cases one
  | cons write writes ih =>
    obtain ⟨middle, first, rest⟩ := transact_ok.mp applied
    have step := apply_changes (keeping write List.mem_cons_self) first
    have later (other : WriteOp) (member : other ∈ writes) : KeepsChanges other := keeping other (List.mem_cons_of_mem _ member)
    rw [List.filterMap_cons] at one
    cases recorded : recorded_by write with
    | none =>
      rw [recorded] at one step
      rw [← step]
      exact ih later one rest
    | some pair =>
      rw [recorded] at one step
      obtain ⟨rfl, none⟩ := List.cons.inj one
      rw [transact_unrecorded later none rest]
      exact step

end Writes

/-! ## Every interleaving -/

/-- The commit that a write sets a ref to. -/
def set_by : WriteOp → Option ObjectName
  | .put (.ref _) ref _ _ _ => some ref.target
  | _ => none

/-- The operation that a write logs. -/
def logged_by : WriteOp → Option Nat
  | .put (.op sequence) _ _ _ _ => some sequence
  | _ => none

section Steps

variable {ι : Type} (env : EnvId) (calls : ι → RefCall)

/-- What a mutation that carries the change sets when it succeeds: its operation, and the commit. -/
def carried_by (change : ChangeId) : Prog.Event ι Cmd Cmd.Response → Option (Nat × ObjectName)
  | ⟨client, .transact_write pk writes, .ok ()⟩ =>
      if pk = env ∧ (calls client).change_id = some change then do
        let sequence ← writes.findSome? logged_by
        let commit ← writes.findSome? set_by
        return (sequence, commit)
      else none
  | _ => none

/-- What the mutations that carried the change have set, the latest first. -/
def carried (change : ChangeId) (trace : List (Prog.Event ι Cmd Cmd.Response)) : List (Nat × ObjectName) :=
  trace.filterMap (carried_by env calls change)

variable [DecidableEq ι]

structure Accounted (journal : Journal ι) : Prop where
  counts : Counts (journal.state.partition env)
  seen : ∀ client (item : Item Nat), ⟨.meta_get env .seq, some item⟩ ∈ journal.told client →
    ∃ current, (journal.state.partition env).seq = some current ∧ item.version ≤ current.version
  /-- A record that was read since the counter is as it was, if the counter is. -/
  current : ∀ client version change record, ReadSince env version change record (journal.told client) →
    (journal.state.partition env).seq.map Item.version = some version →
      (journal.state.partition env).changes[change]? = record
  lists : ∀ change, listed_commits (journal.state.partition env).changes[change]? =
    (carried env calls change journal.trace).map Prod.snd
  logged : ∀ change, ∀ pair ∈ carried env calls change journal.trace,
    ∃ item, (journal.state.partition env).ops[pair.1]? = some item ∧ item.body.after = some pair.2
  ordered : ∀ change, (carried env calls change journal.trace).Pairwise fun newer older => older.1 < newer.1

variable {env calls} {corpus : Corpus} {client : ι} {journal : Journal ι}

theorem carried_move {move : Move} {writes : List WriteOp} {ref : Ref} (carries : Carries move writes)
    (placed : move.placed = some ref) :
    writes.findSome? logged_by = some move.sequence ∧ writes.findSome? set_by = some ref.target := by
  obtain ⟨sequence, -, -, accessories, -, rfl⟩ := carries
  rw [Move.write, placed, ← sequence]
  exact ⟨rfl, rfl⟩

theorem Accounted.still {event : Prog.Event ι Cmd Cmd.Response} {state : World} (accounted : Accounted env calls journal)
    (same : state.partition env = journal.state.partition env)
    (nothing : ∀ change, carried_by env calls change event = none)
    (counter : ∀ item : Item Nat, (⟨event.command, event.response⟩ : Exchange Cmd Cmd.Response) =
      ⟨.meta_get env .seq, some item⟩ → (journal.state.partition env).seq = some item)
    (record : ∀ change found, (⟨event.command, event.response⟩ : Exchange Cmd Cmd.Response) =
      ⟨.meta_get env (.change change), found⟩ → (journal.state.partition env).changes[change]? = found) :
    Accounted env calls ⟨state, event :: journal.trace⟩ := by
  have sets (change : ChangeId) : carried env calls change (event :: journal.trace) =
      carried env calls change journal.trace := by
    rw [carried, List.filterMap_cons, nothing, carried]
  have told (other : ι) : (⟨state, event :: journal.trace⟩ : Journal ι).told other =
      if event.party = other then ⟨event.command, event.response⟩ :: journal.told other else journal.told other := by
    rw [Traced.told, List.filterMap_cons]
    by_cases mine : event.party = other <;> simp [mine, Traced.told]
  refine ⟨same ▸ accounted.counts, fun other item member => ?_, fun other version change found reads held => ?_,
    fun change => ?_, fun change pair member => ?_, fun change => ?_⟩
  next =>
    rw [same]
    rw [told] at member
    split at member
    next =>
      rcases List.mem_cons.mp member with now | before
      next => exact ⟨item, counter item now.symm, le_rfl⟩
      next => exact accounted.seen other item before
    next => exact accounted.seen other item member
  next =>
    rw [same] at held ⊢
    rw [told] at reads
    split at reads
    next =>
      rcases reads with ⟨now, -⟩ | before
      next => exact record change found now
      next => exact accounted.current other version change found before held
    next => exact accounted.current other version change found reads held
  next => rw [same, sets]; exact accounted.lists change
  next => rw [same]; exact accounted.logged change pair (sets change ▸ member)
  next => rw [sets]; exact accounted.ordered change

theorem Accounted.moved {move : Move} {writes : List WriteOp} {after : Partition} (accounted : Accounted env calls journal)
    (carries : Carries move writes) (tallied : move.sequence = move.version)
    (extending : Extending env (calls client).change_id (journal.told client) move writes)
    (applied : (journal.state.partition env).transact_write writes = .ok after) :
    Accounted env calls ⟨journal.state.with_partition env after,
      ⟨client, .transact_write env writes, .ok ()⟩ :: journal.trace⟩ := by
  obtain ⟨-, version, absent, -, seq, ops, -⟩ := transact_move carries applied
  obtain ⟨count, faithful, counted⟩ := accounted.counts
  have now : move.sequence = count + 1 := by
    rw [tallied]
    exact Option.some.inj (version.symm.trans counted)
  have told (other : ι) : (⟨journal.state.with_partition env after,
      ⟨client, .transact_write env writes, .ok ()⟩ :: journal.trace⟩ : Journal ι).told other =
      if client = other then ⟨.transact_write env writes, .ok ()⟩ :: journal.told other else journal.told other := by
    rw [Traced.told, List.filterMap_cons]
    by_cases mine : client = other <;> simp [mine, Traced.told]
  -- Nobody has read a counter as late as this one.
  have earlier (other : ι) (item : Item Nat) (member : ⟨.meta_get env .seq, some item⟩ ∈
      (⟨journal.state.with_partition env after,
        ⟨client, .transact_write env writes, .ok ()⟩ :: journal.trace⟩ : Journal ι).told other) :
      item.version ≤ move.version := by
    have before : ⟨.meta_get env .seq, some item⟩ ∈ journal.told other := by
      rw [told] at member
      split at member
      next => exact (List.mem_cons.mp member).resolve_left fun same => by cases congrArg Exchange.command same
      next => exact member
    obtain ⟨current, found, bound⟩ := accounted.seen other item before
    rw [found] at version
    have held : current.version = move.version := Option.some.inj version
    omega
  have records (change : ChangeId) :
      listed_commits after.changes[change]? =
        if (calls client).change_id = some change then
          ((move.placed.map Ref.target).toList ++ listed_commits (journal.state.partition env).changes[change]?)
        else listed_commits (journal.state.partition env).changes[change]? := by
    cases own : (calls client).change_id with
    | none =>
      rw [own] at extending
      rw [transact_unrecorded (carries_keeping carries) extending applied, if_neg (by simp)]
    | some mine =>
      rw [own] at extending
      obtain ⟨ref, record, placed, reads, records⟩ := extending
      obtain ⟨item, commits, changes⟩ := transact_commits_recorded (carries_keeping carries) records applied
      rw [changes, Std.ExtTreeMap.getElem?_insert]
      by_cases same : mine = change
      next =>
        subst same
        rw [if_pos Std.ReflOrd.compare_self, if_pos rfl, placed, accounted.current client _ _ _ reads version]
        exact commits
      next =>
        rw [if_neg (fun equal => same (Std.LawfulEqOrd.eq_of_compare equal)), if_neg (by simpa using same)]
  have sets (change : ChangeId) :
      carried env calls change (⟨client, .transact_write env writes, .ok ()⟩ :: journal.trace) =
        if (calls client).change_id = some change then
          ((move.placed.map fun ref => (move.sequence, ref.target)).toList ++ carried env calls change journal.trace)
        else carried env calls change journal.trace := by
    rw [carried, List.filterMap_cons, carried_by]
    by_cases own : (calls client).change_id = some change
    next =>
      rw [own] at extending
      obtain ⟨ref, record, placed, -⟩ := extending
      obtain ⟨logged, set⟩ := carried_move carries placed
      simp [own, logged, set, placed, carried]
    next => simp [own, carried]
  refine ⟨?_, fun other item member => ?_, fun other number change found reads held => ?_, fun change => ?_,
    fun change pair member => ?_, fun change => ?_⟩
  next =>
    rw [partition_with_self]
    exact move_counts accounted.counts carries tallied applied
  next =>
    rw [partition_with_self]
    have bound := earlier other item member
    exact ⟨_, seq, by dsimp only; omega⟩
  next =>
    rw [partition_with_self, seq] at held
    obtain ⟨item, member, same⟩ := reads.counter
    have bound := earlier other item member
    have held : move.version + 1 = number := Option.some.inj held
    omega
  next =>
    rw [partition_with_self, records, sets]
    split
    next => rw [List.map_append, accounted.lists change]; cases move.placed <;> rfl
    next => exact accounted.lists change
  next =>
    rw [partition_with_self, ops, Std.ExtTreeMap.getElem?_insert]
    rw [sets] at member
    have old (before : pair ∈ carried env calls change journal.trace) : ∃ item : Item OpLogEntry,
        (if byText OP_SEQ_DIGITS move.sequence pair.1 = .eq then some ⟨move.entry, 1, none, none⟩
          else (journal.state.partition env).ops[pair.1]?) = some item ∧ item.body.after = some pair.2 := by
      obtain ⟨item, found, same⟩ := accounted.logged change pair before
      rw [if_neg fun equal => ?_]
      next => exact ⟨item, found, same⟩
      next =>
        rw [Std.LawfulEqCmp.eq_of_compare equal, found] at absent
        cases absent
    split at member
    next =>
      rcases List.mem_append.mp member with new | before
      next =>
        obtain ⟨ref, placed, rfl⟩ := Option.map_eq_some_iff.mp (Option.mem_toList.mp new)
        rw [if_pos (Std.LawfulEqCmp.compare_eq_iff_eq.mpr rfl)]
        exact ⟨_, rfl, by rw [carries.2.2.1, placed]; rfl⟩
      next => exact old before
    next => exact old member
  next =>
    have below : ∀ pair ∈ carried env calls change journal.trace, pair.1 < move.sequence := by
      intro pair before
      obtain ⟨item, found, -⟩ := accounted.logged change pair before
      have within := (faithful.dense pair.1).mp (by rw [found]; rfl)
      omega
    rw [sets]
    split
    next =>
      cases move.placed with
      | none => exact accounted.ordered change
      | some ref => exact List.pairwise_cons.mpr ⟨below, accounted.ordered change⟩
    next => exact accounted.ordered change

theorem step_accounted {command : Cmd} (fits : Changing env (calls client).change_id (journal.told client) command)
    (accounted : Accounted env calls journal) :
    Accounted env calls (Traced.exec (exec corpus) client command journal).2 := by
  cases command with
  | now_us =>
    exact accounted.still rfl (fun _ => rfl) (fun _ same => by cases congrArg Exchange.command same)
      fun _ _ same => by cases congrArg Exchange.command same
  | meta_get pk key =>
    obtain rfl : pk = env := fits
    refine accounted.still rfl (fun _ => rfl) (fun item same => ?_) fun change found same => ?_
    next =>
      obtain ⟨command, response⟩ := (Exchange.mk.injEq _ _ _ _).mp same
      cases command
      exact eq_of_heq response
    next =>
      obtain ⟨command, response⟩ := (Exchange.mk.injEq _ _ _ _).mp same
      cases command
      exact eq_of_heq response
  | transact_write pk writes =>
    obtain ⟨rfl, move, carries, tallied, extending⟩ := fits
    cases applied : (journal.state.partition pk).transact_write writes with
    | ok after =>
      have done : Traced.exec (exec corpus) client (.transact_write pk writes) journal =
          (.ok (), ⟨journal.state.with_partition pk after,
            ⟨client, .transact_write pk writes, .ok ()⟩ :: journal.trace⟩) := by
        simp only [Traced.exec, exec, applied]
      rw [done]
      exact accounted.moved carries tallied extending applied
    | error error =>
      have done : Traced.exec (exec corpus) client (.transact_write pk writes) journal =
          (.error error, ⟨journal.state, ⟨client, .transact_write pk writes, .error error⟩ :: journal.trace⟩) := by
        simp only [Traced.exec, exec, applied]
      rw [done]
      exact accounted.still rfl (fun _ => rfl) (fun _ same => by cases congrArg Exchange.command same)
        fun _ _ same => by cases congrArg Exchange.command same
  | _ => cases fits

/-- What happens elsewhere, and time passing. -/
def Beside (env : EnvId) (before after : Journal ι) : Prop :=
  after.trace = before.trace ∧ after.state.partition env = before.state.partition env

theorem Accounted.beside {first second : Journal ι} (accounted : Accounted env calls first)
    (passes : Beside env first second) : Accounted env calls second := by
  obtain ⟨trace, same⟩ := passes
  have told (client : ι) : second.told client = first.told client := by rw [Traced.told, trace, Traced.told]
  refine ⟨same ▸ accounted.counts, fun client item member => ?_, fun client version change found reads now => ?_,
    fun change => ?_, fun change pair member => ?_, fun change => ?_⟩
  next => rw [same]; exact accounted.seen client item (told client ▸ member)
  next => rw [same] at now ⊢; exact accounted.current client version change found (told client ▸ reads) now
  next => rw [same, trace]; exact accounted.lists change
  next => rw [same]; exact accounted.logged change pair (trace ▸ member)
  next => rw [trace]; exact accounted.ordered change

end Steps

/-- A client takes its steps as it likes, and what it does is kept. -/
def journaled {ι : Type} (corpus : Corpus) (client : ι) : Actor Cmd Cmd.Response (Journal ι) :=
  ⟨Traced.exec (exec corpus) client, fun _ _ => True⟩

instance {ι : Type} (corpus : Corpus) (client : ι) (command : Cmd) (journal : Journal ι) :
    Decidable ((journaled corpus client).may command journal) := isTrue trivial

/-- In every state that clients of a new environment reach, a change is on record with the commits that the
mutations carrying it have set, the latest operation first. -/
theorem change_recorded {ι : Type} [DecidableEq ι] (corpus : Corpus) (env : EnvId) (calls : ι → RefCall)
    (world : World) (fresh : Fresh (world.partition env)) (unchanged : (world.partition env).changes = ∅)
    {after : Pool ι Cmd Cmd.Response PyError (fun _ => Unit) (Journal ι)}
    (run : Pool.Run (journaled corpus) (Beside env) ⟨⟨world, []⟩, fun client => (calls client).code env⟩ after)
    (change : ChangeId) :
    listed_commits (after.shared.state.partition env).changes[change]? =
        (carried env calls change after.shared.trace).map Prod.snd ∧
      ((carried env calls change after.shared.trace).Pairwise fun newer older => older.1 < newer.1) ∧
      ∀ pair ∈ carried env calls change after.shared.trace,
        ∃ item, (after.shared.state.partition env).ops[pair.1]? = some item ∧ item.body.after = some pair.2 := by
  have start : Accounted env calls ⟨world, []⟩ := by
    refine ⟨fresh_counts fresh, fun _ _ impossible => ?_, fun _ _ _ _ impossible => ?_, fun change => ?_,
      fun _ _ impossible => ?_, fun _ => List.Pairwise.nil⟩
    next => cases impossible
    next => cases impossible
    next => rw [unchanged, Std.ExtTreeMap.getElem?_empty]; rfl
    next => cases impossible
  have recalls (client : ι) : Recalling env (calls client).change_id ((calls client).code env) (fun _ _ => True) [] :=
    code_recalls _
  obtain ⟨accounted, -⟩ := Pool.run_recalls recalls (fun command journal held => exec_counted held.counts command)
    (fun client command journal fits _ held => step_accounted fits held) (fun _ _ passes => passes.1)
    (fun _ _ passes held => held.beside passes) start run
  exact ⟨accounted.lists change, accounted.ordered change, accounted.logged change⟩

/-- Two clients work on different refs for one change. -/
def sharedChange : Bool → RefCall
  | true => .create ⟨"refs/heads/left"⟩ twoTargets.1 "a" .permanent none (some ⟨Text.lit "verifier"⟩) none none
  | false => .create ⟨"refs/heads/right"⟩ twoTargets.2 "b" .permanent none (some ⟨Text.lit "verifier"⟩) none none

/-- One has read the record when the other commits, and starts again. -/
def overlapping : List (Pool.Cue Bool (Journal Bool)) := [.turn true 3, .turn false 4, .turn true 4]

def sharing : Pool Bool Cmd Cmd.Response PyError (fun _ => Unit) (Journal Bool) :=
  Pool.play (journaled .none) overlapping ⟨⟨newEnv, []⟩, fun client => (sharedChange client).code ⟨"env"⟩⟩

theorem change_recorded_overlapping :
    listed_commits (sharing.shared.state.partition ⟨"env"⟩).changes[(⟨Text.lit "verifier"⟩ : ChangeId)]? = [twoTargets.1, twoTargets.2] := by
  have run : Pool.Run (journaled .none) (Beside ⟨"env"⟩)
      ⟨⟨newEnv, []⟩, fun client => (sharedChange client).code ⟨"env"⟩⟩ sharing :=
    Pool.Run.play (fun change member => by simp [overlapping] at member) (by decide)
  have recorded := change_recorded .none ⟨"env"⟩ sharedChange newEnv newEnv_fresh (by rw [newEnv, partition_with_self]; rfl)
    run ⟨Text.lit "verifier"⟩
  exact recorded.1.trans (by decide)

end LedgerVcs
