import LedgerVcs.Lib.Script
import LedgerVcs.Meta.Generations
import LedgerVcs.Service.Forks

set_option autoImplicit false

/-! Updates of one environment's record that overtake each other. -/

namespace LedgerVcs

open Prog (Actor Contract Pool Traced)

/-! ## The updates -/

inductive EnvField
  | name | state | labels | provenance
deriving DecidableEq

inductive EnvUpdate
  | rename (new_name : EnvName)
  | set_state (state : EnvState)
  | set_labels (labels : List (String × String))
  | provenance (fork : Fork) (target : ObjectName)

namespace EnvUpdate

def field : EnvUpdate → EnvField
  | .rename _ => .name
  | .set_state _ => .state
  | .set_labels _ => .labels
  | .provenance _ _ => .provenance

/-- The record that an update makes of the one it has read. -/
def changes : EnvUpdate → Environment → Environment
  | .rename new_name, record => { record with name := new_name }
  | .set_state state, record => { record with state }
  | .set_labels labels, record => { record with labels }
  | .provenance fork target, record => fork.provenance target record

def code (env : EnvId) : EnvUpdate → Act Environment
  | .rename new_name => rename_env env new_name
  | .set_state state => set_env_state env state
  | .set_labels labels => set_env_labels env labels
  | .provenance fork target => replace_env env (fork.provenance target)

/-- The record has in the update's field what the update writes. -/
def Shows : EnvUpdate → Environment → Prop
  | .rename new_name, record => record.name = new_name
  | .set_state state, record => record.state = state
  | .set_labels labels, record => record.labels = labels
  | .provenance fork target, record =>
      record.forked_from_env = some fork.source ∧ record.forked_from_commit = some target

/-- The records differ in the update's field at most. -/
def Agrees (update : EnvUpdate) (read stored : Environment) : Prop := update.changes read = update.changes stored

instance (update : EnvUpdate) (read stored : Environment) : Decidable (update.Agrees read stored) :=
  inferInstanceAs (Decidable (_ = _))

theorem shows_changes (update : EnvUpdate) (record : Environment) : update.Shows (update.changes record) := by
  cases update with
  | provenance => exact ⟨rfl, rfl⟩
  | _ => rfl

theorem shows_beside {update other : EnvUpdate} {read stored : Environment} (apart : update.field ≠ other.field)
    (agrees : update.Agrees read stored) (shows_there : other.Shows stored) : other.Shows (update.changes read) := by
  rw [show update.changes read = update.changes stored from agrees]
  cases update <;> cases other <;> first | exact shows_there | exact absurd rfl apart

end EnvUpdate

/-- A fork writes its provenance with the steps of a replacement. -/
theorem fork_run_provenance (fork : Fork) : fork.run = (do
    let origin ← get_env fork.source
    let head ← get_ref fork.source (fork.from_ref.getD origin.default_ref)
    let created ← create_env fork.drawn_env fork.name (if fork.owner ≠ "" then fork.owner else origin.owner)
      DEFAULT_REF [] fork.idempotency_key
    let provenance ← (EnvUpdate.provenance fork head.target).code created.env_id
    let _ ← create_ref created.env_id created.default_ref head.target fork.placer .permanent none none none none
    let closure ← commit_closure head.target
    fork.retain created.env_id closure
    return ⟨provenance, head.target, closure.length⟩) := by
  simp only [fork_run, Fork.rest, EnvUpdate.code, replace_env, bind_assoc, pure_bind]

/-! ## What has been read and written -/

section Updates

variable {ι : Type} [DecidableEq ι] {corpus : Corpus} {env : EnvId} {updates : ι → EnvUpdate}

def seen (env : EnvId) (party : ι) : Prog.Event ι Cmd Cmd.Response → Option (Item Environment)
  | ⟨reader, .meta_get pk .env, item⟩ => if reader = party ∧ pk = env then item else none
  | _ => none

/-- The records that the party has read of the environment. -/
def reads (env : EnvId) (journal : Journal ι) (party : ι) : List (Item Environment) :=
  journal.trace.filterMap (seen env party)

def landed (env : EnvId) : Prog.Event ι Cmd Cmd.Response → Option ι
  | ⟨party, .transact_write pk _, .ok ()⟩ => if pk = env then some party else none
  | _ => none

/-- Who has written the record, the latest first. -/
def writers (env : EnvId) (journal : Journal ι) : List ι := journal.trace.filterMap (landed env)

/-- A record is written only while what the update has read and what is stored differ in its field at most. -/
def Current (env : EnvId) (party : ι) (update : EnvUpdate) (command : Cmd) (journal : Journal ι) : Prop :=
  transacts command → ∀ read ∈ reads env journal party, ∀ stored ∈ (journal.state.partition env).env,
    update.Agrees read.body stored.body

/-- Each update reads, and then writes over what agrees with what it has read. -/
def updating (corpus : Corpus) (env : EnvId) (updates : ι → EnvUpdate) (party : ι) :
    Actor Cmd Cmd.Response (Journal ι) :=
  ⟨Traced.exec (exec corpus) party, Current env party (updates party)⟩

instance (party : ι) (command : Cmd) (journal : Journal ι) : Decidable ((updating corpus env updates party).may command journal) :=
  inferInstanceAs (Decidable (_ → ∀ read ∈ reads env journal party, ∀ stored ∈ (journal.state.partition env).env,
    (updates party).Agrees read.body stored.body))

/-- The record shows what was written, until another update of the same field is. -/
def Shown (env : EnvId) (updates : ι → EnvUpdate) (journal : Journal ι) : Prop :=
  ∀ late party early, writers env journal = late ++ party :: early →
    (∀ other ∈ late, (updates other).field ≠ (updates party).field) →
      ∃ item, (journal.state.partition env).env = some item ∧ (updates party).Shows item.body

/-- Whatever else goes on leaves the record and the journal alone. -/
def SparesRecord (env : EnvId) (before after : Journal ι) : Prop :=
  after.trace = before.trace ∧ (after.state.partition env).env = (before.state.partition env).env

def showing (env : EnvId) (updates : ι → EnvUpdate) : Contract (Journal ι) where
  rely before after := (Shown env updates before → Shown env updates after) ∧ before.trace ⊆ after.trace
  guarantee before after := (Shown env updates before → Shown env updates after) ∧ before.trace ⊆ after.trace
  rely_refl _ := ⟨id, fun _ held => held⟩
  rely_trans early late := ⟨late.1 ∘ early.1, List.Subset.trans early.2 late.2⟩

theorem exec_record_put (record : Environment) (world : World) :
    ∃ version, exec corpus (.transact_write env [.put .env record none none none]) world =
      (.ok (), world.with_partition env { world.partition env with env := some ⟨record, version, none, none⟩ }) := by
  have applied : (world.partition env).transact_write [.put .env record none none none] =
      .ok ((world.partition env).put .env ⟨record, next_version ((world.partition env).get .env), none, none⟩) :=
    transact_ok.mpr ⟨_, apply_put.mpr ⟨rfl, rfl⟩, rfl⟩
  refine ⟨next_version ((world.partition env).get .env), ?_⟩
  rw [exec, applied]
  rfl

/-- An update's write, over a record that agrees with the one it has read. -/
theorem writing_lasts {party : ι} {journal : Journal ι} {read : Item Environment}
    (known : read ∈ reads env journal party) (lasts : Shown env updates journal)
    (may : Current env party (updates party) (.transact_write env
      [.put .env ((updates party).changes read.body) none none none]) journal) :
    Shown env updates (Traced.exec (exec corpus) party (.transact_write env
        [.put .env ((updates party).changes read.body) none none none]) journal).2 ∧
      party ∈ writers env (Traced.exec (exec corpus) party (.transact_write env
        [.put .env ((updates party).changes read.body) none none none]) journal).2 := by
  obtain ⟨version, wrote⟩ := @exec_record_put corpus env ((updates party).changes read.body) journal.state
  have order : writers env (Traced.exec (exec corpus) party (.transact_write env
      [.put .env ((updates party).changes read.body) none none none]) journal).2 = party :: writers env journal := by
    rw [writers, Traced.exec, wrote]
    simp only [List.filterMap_cons, landed, if_true]
    rfl
  have stored : ((Traced.exec (exec corpus) party (.transact_write env
      [.put .env ((updates party).changes read.body) none none none]) journal).2.state.partition env).env =
        some ⟨(updates party).changes read.body, version, none, none⟩ := by
    rw [Traced.exec, wrote]
    exact congrArg Partition.env (partition_with_self ..)
  refine ⟨fun late writer early split apart => ⟨_, stored, ?_⟩, order ▸ List.mem_cons_self⟩
  rw [order] at split
  cases late with
  | nil =>
    obtain ⟨rfl, -⟩ := List.cons.inj split
    exact EnvUpdate.shows_changes _ _
  | cons last late =>
    obtain ⟨rfl, before⟩ := List.cons.inj split
    obtain ⟨item, found, shows_there⟩ := lasts late writer early before fun other member =>
      apart other (List.mem_cons_of_mem _ member)
    exact EnvUpdate.shows_beside (apart party List.mem_cons_self) (may rfl read known item found) shows_there

omit [DecidableEq ι] in
theorem quiet_lasts {party : ι} {journal : Journal ι} {command : Cmd} (lasts : Shown env updates journal)
    (quiet : landed env (⟨party, command, (exec corpus command journal.state).1⟩ : Prog.Event ι Cmd Cmd.Response) = none)
    (record : ((exec corpus command journal.state).2.partition env).env = (journal.state.partition env).env) :
    Shown env updates (Traced.exec (exec corpus) party command journal).2 := by
  have order : writers env (Traced.exec (exec corpus) party command journal).2 = writers env journal := by
    simp only [writers, Traced.exec, List.filterMap_cons, quiet]
  intro late writer early split apart
  rw [order] at split
  obtain ⟨item, found, shows_there⟩ := lasts late writer early split apart
  exact ⟨item, record.trans found, shows_there⟩

omit [DecidableEq ι] in
theorem exec_trace {party : ι} (command : Cmd) (journal : Journal ι) :
    journal.trace ⊆ (Traced.exec (exec corpus) party command journal).2.trace :=
  List.subset_cons_self _ _

omit [DecidableEq ι] in
theorem writers_later {before after : Journal ι} (grows : before.trace ⊆ after.trace) :
    writers env before ⊆ writers env after :=
  List.filterMap_subset _ grows

theorem reads_later {party : ι} {before after : Journal ι} (grows : before.trace ⊆ after.trace) :
    reads env before party ⊆ reads env after party :=
  List.filterMap_subset _ grows

/-! ## What each update does -/

section Calls

variable {party : ι} {journal : Journal ι}

theorem get_env_meets (lasts : Shown env updates journal) :
    (get_env env).Meets (updating corpus env updates party) (showing env updates)
      (Prog.Meets.Returns fun record after => Shown env updates after ∧
        ∃ item, item ∈ reads env after party ∧ item.body = record) journal := by
  have reads : (issue (.meta_get env .env)).Meets (updating corpus env updates party) (showing env updates)
      (Prog.Meets.Returns fun found after => Shown env updates after ∧
        ∀ item, found = some item → item ∈ reads env after party) journal := by
    refine Prog.Meets.ask ?_ ?_
    next =>
      rintro found before after ⟨stays, grows⟩ ⟨held, known⟩
      exact ⟨stays held, fun item same => reads_later grows (known item same)⟩
    next =>
      rintro later ⟨stays, -⟩ -
      have still := @quiet_lasts _ corpus env updates party later (.meta_get env .env) (stays lasts) rfl rfl
      refine ⟨⟨fun _ => still, exec_trace _ _⟩, still, fun item same => ?_⟩
      refine List.mem_filterMap.mpr ⟨_, List.mem_cons_self, ?_⟩
      rw [show (exec corpus (.meta_get env .env) later.state).1 = some item from same]
      exact if_pos ⟨rfl, rfl⟩
  refine reads.seq fun found after held => ?_
  cases found with
  | none => exact fun _ _ => trivial
  | some item =>
    rintro later ⟨stays, grows⟩
    exact ⟨stays held.1, item, reads_later grows (held.2 item rfl), rfl⟩

theorem put_record_meets {read : Item Environment} (lasts : Shown env updates journal)
    (known : read ∈ reads env journal party) :
    (transact env [.put .env ((updates party).changes read.body) none none none]).Meets (updating corpus env updates party)
      (showing env updates) (Prog.Meets.Returns fun _ after => Shown env updates after ∧ party ∈ writers env after)
        journal := by
  have writes : (issue (.transact_write env [.put .env ((updates party).changes read.body) none none none])).Meets
      (updating corpus env updates party) (showing env updates)
        (Prog.Meets.Returns fun _ after => Shown env updates after ∧ party ∈ writers env after) journal := by
    refine Prog.Meets.ask ?_ ?_
    next =>
      rintro _ before after ⟨stays, grows⟩ ⟨held, member⟩
      exact ⟨stays held, writers_later grows member⟩
    next =>
      rintro later ⟨stays, grows⟩ may
      obtain ⟨still, member⟩ := @writing_lasts _ _ corpus env updates party later read (reads_later grows known) (stays lasts) may
      exact ⟨⟨fun _ => still, exec_trace _ _⟩, still, member⟩
  refine writes.seq fun response after held => Prog.Meets.ofExcept ?_
  rintro _ - later ⟨stays, grows⟩
  exact ⟨stays held.1, writers_later grows held.2⟩

theorem beside_meets {command : Cmd} (quiet : ∀ world, landed env
      (⟨party, command, (exec corpus command world).1⟩ : Prog.Event ι Cmd Cmd.Response) = none)
    (record : ∀ world, ((exec corpus command world).2.partition env).env = (world.partition env).env)
    {held : Journal ι → Prop} (stable : ∀ before after, before.trace ⊆ after.trace → held before → held after)
    (lasts : Shown env updates journal) (now : held journal) :
    (issue command).Meets (updating corpus env updates party) (showing env updates)
      (Prog.Meets.Returns fun _ after => Shown env updates after ∧ held after) journal := by
  refine Prog.Meets.ask ?_ ?_
  next =>
    rintro _ before after ⟨stays, grows⟩ ⟨lasts, here⟩
    exact ⟨stays lasts, stable _ _ grows here⟩
  next =>
    rintro later ⟨stays, grows⟩ -
    have still := @quiet_lasts _ corpus env updates party later command (stays lasts) (quiet _) (record _)
    exact ⟨⟨fun _ => still, exec_trace _ _⟩, still, stable _ _ (List.Subset.trans grows (exec_trace _ _)) now⟩

/-- The update has been written, or it found the name as it wants it. -/
def Settled (env : EnvId) (party : ι) (update : EnvUpdate) (journal : Journal ι) : Prop :=
  party ∈ writers env journal ∨
    ∃ new_name item, update = .rename new_name ∧ item ∈ reads env journal party ∧ item.body.name = new_name

theorem settled_later {update : EnvUpdate} {before after : Journal ι} (grows : before.trace ⊆ after.trace)
    (settled : Settled env party update before) : Settled env party update after := by
  rcases settled with member | ⟨new_name, item, rename, known, named⟩
  next => exact .inl (writers_later grows member)
  next => exact .inr ⟨new_name, item, rename, reads_later grows known, named⟩

theorem replace_env_meets {changes : Environment → Environment} (same : (updates party).changes = changes)
    (lasts : Shown env updates journal) :
    (replace_env env changes).Meets (updating corpus env updates party) (showing env updates)
      (Prog.Meets.Returns fun _ after => Settled env party (updates party) after) journal := by
  refine (get_env_meets lasts).seq ?_
  rintro record after ⟨lasts, read, known, rfl⟩
  rw [← same]
  refine (put_record_meets lasts known).seq ?_
  rintro _ last ⟨-, member⟩ later ⟨-, grows⟩
  exact .inl (writers_later grows member)

theorem rename_env_meets {new_name : EnvName} (same : updates party = .rename new_name)
    (lasts : Shown env updates journal) :
    (rename_env env new_name).Meets (updating corpus env updates party) (showing env updates)
      (Prog.Meets.Returns fun _ after => Settled env party (updates party) after) journal := by
  refine (get_env_meets lasts).seq ?_
  rintro record after ⟨lasts, read, known, rfl⟩
  dsimp only
  split
  next named =>
    rintro later ⟨-, grows⟩
    exact .inr ⟨new_name, read, same, reads_later grows known, named⟩
  next =>
    refine (@beside_meets _ _ corpus env updates party after (.claim_global new_name ⟨env, none⟩) (fun _ => rfl) (fun _ => rfl)
      (fun now => read ∈ reads env now party) (fun _ _ grows held => reads_later grows held) lasts known).seq ?_
    rintro claimed middle ⟨lasts, known⟩
    cases claimed with
    | false => exact fun _ _ => trivial
    | true =>
      have writes := @put_record_meets _ _ corpus env updates party middle read lasts known
      rw [same] at writes
      refine writes.seq ?_
      rintro _ last ⟨lasts, member⟩
      refine (@beside_meets _ _ corpus env updates party last (.delete_global read.body.name) (fun _ => rfl) (fun _ => rfl)
        (fun now => party ∈ writers env now) (fun _ _ grows held => writers_later grows held) lasts member).seq ?_
      rintro _ ended ⟨-, member⟩ later ⟨-, grows⟩
      exact .inl (writers_later grows member)

theorem update_meets_lasting {update : EnvUpdate} (called : updates party = update) (lasts : Shown env updates journal) :
    (update.code env).Meets (updating corpus env updates party) (showing env updates)
      (Prog.Meets.Returns fun _ after => Settled env party (updates party) after) journal := by
  cases update with
  | rename => exact rename_env_meets called lasts
  | _ => exact replace_env_meets (congrArg EnvUpdate.changes called) lasts

end Calls

end Updates

/-- In every run of updates that write over what agrees with what they have read, what a field was last given is there,
and an update that has returned has been written. -/
theorem updates_kept {ι : Type} [DecidableEq ι] (corpus : Corpus) (env : EnvId) (updates : ι → EnvUpdate) (world : World)
    {after : Pool ι Cmd Cmd.Response PyError (fun _ => Environment) (Journal ι)}
    (run : Pool.Run (updating corpus env updates) (SparesRecord env)
      ⟨⟨world, []⟩, fun party => (updates party).code env⟩ after) :
    Shown env updates after.shared ∧
      ∀ party record, after.procs party = .done record → Settled env party (updates party) after.shared := by
  have start : Shown env updates (⟨world, []⟩ : Journal ι) := fun late party early split =>
    absurd split (by simp [writers])
  have beside (before after : Journal ι) (passes : SparesRecord env before after) :
      (Shown env updates before → Shown env updates after) ∧ before.trace ⊆ after.trace := by
    obtain ⟨trace, record⟩ := passes
    refine ⟨fun lasts late party early split apart => ?_, trace ▸ List.Subset.refl _⟩
    rw [record]
    rw [writers, trace] at split
    exact lasts late party early split apart
  have meets : Pool.Meets (updating corpus env updates) (fun _ => showing env updates)
      (fun party => Prog.Meets.Returns fun _ after => Settled env party (updates party) after)
      ⟨⟨world, []⟩, fun party => (updates party).code env⟩ := fun party => update_meets_lasting rfl start
  constructor
  next =>
    exact @Pool.run_holds _ _ _ _ _ _ _ _ (fun _ => showing env updates) _ _ (Shown env updates) _ _
      (fun _ _ _ _ _ kept => kept) (fun _ => beside) (fun _ _ _ kept => kept.1)
      (fun before after passes => (beside before after passes).1) meets start run
  next =>
    intro party record returned
    have ended := @Pool.run_meets _ _ _ _ _ _ _ _ (fun _ => showing env updates) _ _ _ _ (fun _ _ _ _ _ kept => kept)
      (fun _ => beside) meets run
    exact ended.returned returned

/-! ## Two updates of one record -/

/-- One environment, with its record. -/
def recordedEnv : World :=
  World.with_partition (.empty 0) ⟨"env"⟩
    { Partition.empty with
      env := some ⟨created_env ⟨"env"⟩ ⟨"org/a"⟩ "owner" DEFAULT_REF [] 0, 1, none, none⟩, seq := some ⟨1, 1, none, none⟩ }

def archivedAndLabelled : Bool → EnvUpdate
  | false => .set_state .archived
  | true => .set_labels [("team", "a")]

abbrev Updating := Pool Bool Cmd Cmd.Response PyError (fun _ => Environment) (Journal Bool)

def updatingBoth : Updating :=
  ⟨⟨recordedEnv, []⟩, fun party => (archivedAndLabelled party).code ⟨"env"⟩⟩

theorem updates_kept_one_by_one :
    Shown ⟨"env"⟩ archivedAndLabelled
      (updatingBoth.play (updating .none ⟨"env"⟩ archivedAndLabelled) [.turn false 2, .turn true 2]).shared :=
  (updates_kept .none ⟨"env"⟩ archivedAndLabelled recordedEnv (Pool.Run.play (by simp) (by decide))).1

/-- The labels are set between the other update's read and its write. -/
def labelledBetween : Updating :=
  [(false, 1), (true, 2), (false, 1)].foldl (fun before turn => before.turn (at_will .none) turn.1 turn.2) updatingBoth

/-- Both updates return, and the labels are gone. -/
theorem labels_lost :
    Pool.Run (at_will .none) (SparesRecord ⟨"env"⟩) updatingBoth labelledBetween ∧
      (∀ party, (labelledBetween.procs party).value.isSome) ∧
      ¬ Shown ⟨"env"⟩ archivedAndLabelled labelledBetween.shared := by
  refine ⟨Pool.Run.turns (fun _ _ _ => trivial) _ _, by decide, fun lasts => ?_⟩
  have order : writers ⟨"env"⟩ labelledBetween.shared = [false] ++ true :: [] := by decide
  obtain ⟨item, found, labelled⟩ := lasts [false] true [] order (by decide)
  have left : ((labelledBetween.shared.state.partition ⟨"env"⟩).env.map fun item => item.body.labels) = some [] := by
    decide
  rw [found] at left
  have none_left : item.body.labels = [] := Option.some.inj left
  rw [show item.body.labels = [("team", "a")] from labelled] at none_left
  cases none_left

end LedgerVcs
