import LedgerVcs.Store.Cas

set_option autoImplicit false

/-! The backend and the catalogue, under puts and deletes that are interrupted and retried. -/

namespace LedgerVcs

open Prog (Actor Contract Pool Traced)
open Prog.Meets (Returns)

/-! ## The callers -/

inductive StoreCall
  | put (name : ObjectName)
  | delete (names : List ObjectName)
deriving DecidableEq

@[reducible] def StoreCall.Result : StoreCall → Type
  | .put _ => PutOutcome
  | .delete _ => Nat

def StoreCall.code (corpus : Corpus) : (call : StoreCall) → Act call.Result
  | .put name => put_encoded corpus name
  | .delete names => LedgerVcs.delete names

section Callers

variable {ι : Type}

abbrev StoreHistory (ι : Type) := Traced ι Cmd Cmd.Response World

/-! ## What is half done -/

structure Unfinished (ι : Type) where
  /-- Written to the backend by a put that has not recorded it. -/
  recording : Set (ι × ObjectName)
  /-- Deleted from the backend by a delete that has not dropped its row. -/
  forgetting : Set (ι × ObjectName)

def Unfinished.none : Unfinished ι := ⟨∅, ∅⟩

/-- A put that looks at the backend again has lost track of what it wrote. -/
def Unfinished.see (seen : Unfinished ι) : Prog.Event ι Cmd Cmd.Response → Unfinished ι
  | ⟨party, .backend_exists name, _⟩ => { seen with recording := seen.recording \ {(party, name)} }
  | ⟨party, .backend_write name, _⟩ => { seen with recording := insert (party, name) seen.recording }
  | ⟨party, .catalog_record entry, _⟩ => { seen with recording := seen.recording \ {(party, entry.name)} }
  | ⟨party, .backend_delete name, _⟩ => { seen with forgetting := insert (party, name) seen.forgetting }
  | ⟨party, .catalog_forget name, _⟩ => { seen with forgetting := seen.forgetting \ {(party, name)} }
  | _ => seen

def unfinished (history : StoreHistory ι) : Unfinished ι :=
  history.trace.foldr (fun event seen => seen.see event) .none

def World.Unrecorded (world : World) (name : ObjectName) : Prop := name ∈ world.backend ∧ name ∉ world.catalog

/-- What a put or a delete finds at the three steps at which the two stores can part: another call is there
to bring them together again, or they do not part. -/
def CallMay (party : ι) : Cmd → StoreHistory ι → Prop
  -- Retried after an interruption between its write and its record.
  | .backend_exists name, history =>
      (party, name) ∈ (unfinished history).recording → history.state.Unrecorded name →
        ∃ other, other ≠ party ∧ (other, name) ∈ (unfinished history).recording
  | .catalog_record entry, history =>
      entry.name ∈ history.state.backend ∨ ∃ other, (other, entry.name) ∈ (unfinished history).forgetting
  | .catalog_forget name, history =>
      name ∉ history.state.backend ∨ ∃ other, (other, name) ∈ (unfinished history).recording
  | _, _ => True

def callers (corpus : Corpus) (party : ι) : Actor Cmd Cmd.Response (StoreHistory ι) :=
  ⟨Traced.exec (exec corpus) party, CallMay party⟩

/-- Whatever else happens leaves the backend and the catalogue alone. -/
def Elsewhere (before after : StoreHistory ι) : Prop :=
  after.trace = before.trace ∧ after.state.backend = before.state.backend ∧
    after.state.catalog = before.state.catalog

/-- Every call about to start, with the interruptions it is in for. -/
def call_store (corpus : Corpus) (calls : ι → StoreCall) (crashes : ι → List Nat) (world : World) :
    Pool ι Cmd Cmd.Response PyError (fun party => (calls party).Result) (StoreHistory ι) :=
  ⟨⟨world, []⟩, fun party => ((calls party).code corpus).retried (crashes party)⟩

/-! ## The invariant -/

/-- A name is stored and catalogued, or neither, unless some call is half done with it. -/
def Reconciled (history : StoreHistory ι) : Prop :=
  ∀ name,
    (history.state.Unrecorded name → ∃ party, (party, name) ∈ (unfinished history).recording) ∧
    (name ∉ history.state.backend → name ∈ history.state.catalog →
      ∃ party, (party, name) ∈ (unfinished history).forgetting)

variable {corpus : Corpus}

theorem unfinished_exec (party : ι) (command : Cmd) (history : StoreHistory ι) :
    unfinished (Traced.exec (exec corpus) party command history).2 =
      (unfinished history).see ⟨party, command, (exec corpus command history.state).1⟩ := rfl

@[simp] theorem mem_catalog_insertIfNew {rows : Std.ExtTreeMap ObjectName CatalogRow} {name other : ObjectName}
    {row : CatalogRow} : other ∈ rows.insertIfNew name row ↔ other = name ∨ other ∈ rows := by
  rw [Std.ExtTreeMap.mem_insertIfNew, Std.LawfulEqOrd.compare_eq_iff_eq, eq_comm]

@[simp] theorem mem_catalog_erase {rows : Std.ExtTreeMap ObjectName CatalogRow} {name other : ObjectName} :
    other ∈ rows.erase name ↔ other ≠ name ∧ other ∈ rows := by
  rw [Std.ExtTreeMap.mem_erase, Ne, Std.LawfulEqOrd.compare_eq_iff_eq, eq_comm]

/-- Each call's steps leave the two stores reconciled. -/
theorem step_reconciled {party : ι} {command : Cmd} {history : StoreHistory ι}
    (fits : CallMay party command history) (held : Reconciled history) :
    Reconciled (Traced.exec (exec corpus) party command history).2 := by
  intro name
  rw [unfinished_exec]
  obtain ⟨recorded, forgotten⟩ := held name
  cases command with
  | backend_exists other =>
    refine ⟨fun unrecorded => ?_, forgotten⟩
    obtain ⟨writer, writing⟩ := recorded unrecorded
    by_cases own : (writer, name) = (party, other)
    next =>
      cases own
      obtain ⟨another, different, recording⟩ := fits writing unrecorded
      exact ⟨another, recording, fun same => different (congrArg Prod.fst same)⟩
    next => exact ⟨writer, writing, own⟩
  | backend_write other =>
    refine ⟨fun unrecorded => ?_, fun gone => forgotten fun there => gone (Finset.mem_insert_of_mem there)⟩
    by_cases same : name = other
    next => exact ⟨party, .inl (by rw [same])⟩
    next =>
      obtain ⟨writer, writing⟩ :=
        recorded ⟨(Finset.mem_insert.mp unrecorded.1).resolve_left same, unrecorded.2⟩
      exact ⟨writer, .inr writing⟩
  | catalog_record entry =>
    simp only [World.Unrecorded, Traced.exec, exec, mem_catalog_insertIfNew, not_or]
    refine ⟨fun ⟨there, other, missing⟩ => ?_, fun gone => ?_⟩
    next =>
      obtain ⟨writer, writing⟩ := recorded ⟨there, missing⟩
      exact ⟨writer, writing, fun same => other (congrArg Prod.snd same)⟩
    next =>
      rintro (rfl | row)
      next => exact fits.resolve_left gone
      next => exact forgotten gone row
  | backend_delete other =>
    refine ⟨fun unrecorded => recorded ⟨Finset.mem_of_mem_erase unrecorded.1, unrecorded.2⟩, fun gone row => ?_⟩
    by_cases same : name = other
    next => exact ⟨party, .inl (by rw [same])⟩
    next =>
      obtain ⟨deleter, deleting⟩ := forgotten (fun there => gone (Finset.mem_erase.mpr ⟨same, there⟩)) row
      exact ⟨deleter, .inr deleting⟩
  | catalog_forget other =>
    simp only [World.Unrecorded, Traced.exec, exec, mem_catalog_erase, not_and]
    refine ⟨fun ⟨there, missing⟩ => ?_, fun gone ⟨different, row⟩ => ?_⟩
    next =>
      by_cases same : name = other
      next => exact same ▸ fits.resolve_left (fun gone => gone (same ▸ there))
      next => exact recorded ⟨there, missing same⟩
    next =>
      obtain ⟨deleter, deleting⟩ := forgotten gone row
      exact ⟨deleter, deleting, fun same => different (congrArg Prod.snd same)⟩
  | transact_write pk writes =>
    simp only [World.Unrecorded, Traced.exec, exec]
    cases (history.state.partition pk).transact_write writes <;> exact ⟨recorded, forgotten⟩
  | _ => exact ⟨recorded, forgotten⟩

/-! ## A call's own business -/

/-- All that the party is half done with. -/
def Within (party : ι) (recording forgetting : Set ObjectName) (history : StoreHistory ι) : Prop :=
  (∀ name, (party, name) ∈ (unfinished history).recording → name ∈ recording) ∧
    ∀ name, (party, name) ∈ (unfinished history).forgetting → name ∈ forgetting

/-- Nobody else touches a party's own notes. -/
def Untouched (party : ι) (before after : StoreHistory ι) : Prop :=
  (∀ name, (party, name) ∈ (unfinished after).recording ↔ (party, name) ∈ (unfinished before).recording) ∧
    ∀ name, (party, name) ∈ (unfinished after).forgetting ↔ (party, name) ∈ (unfinished before).forgetting

def callerContract (party : ι) : Contract (StoreHistory ι) where
  rely := Untouched party
  guarantee before after := ∀ other, other ≠ party → Untouched other before after
  rely_refl _ := ⟨fun _ => .rfl, fun _ => .rfl⟩
  rely_trans first second :=
    ⟨fun name => (second.1 name).trans (first.1 name), fun name => (second.2 name).trans (first.2 name)⟩

theorem exec_untouched (party : ι) (command : Cmd) (history : StoreHistory ι) :
    (callerContract party).guarantee history (Traced.exec (exec corpus) party command history).2 := by
  intro other different
  rw [Untouched, unfinished_exec]
  cases command <;> simp [Unfinished.see, different]

theorem within_stable {party : ι} {recording forgetting : Set ObjectName} (before after : StoreHistory ι)
    (passes : (callerContract party).rely before after) (within : Within party recording forgetting before) :
    Within party recording forgetting after :=
  ⟨fun name half => within.1 name ((passes.1 name).mp half), fun name half => within.2 name ((passes.2 name).mp half)⟩

/-- The commands of a call. -/
def StoreCall.Takes : StoreCall → Cmd → Prop
  | .put _, .now_us => True
  | .put name, .backend_exists other => other = name
  | .put name, .backend_write other => other = name
  | .put _, .tombstone_clear _ => True
  | .put name, .catalog_record entry => entry.name = name
  | .delete names, .backend_delete other => other ∈ names
  | .delete names, .catalog_forget other => other ∈ names
  | _, _ => False

/-- What an interrupted call can leave behind. -/
def StoreCall.Leaves (call : StoreCall) (party : ι) : StoreHistory ι → Prop :=
  match call with
  | .put name => Within party {name} ∅
  | .delete names => Within party ∅ {name | name ∈ names}

theorem put_encoded_takes (name : ObjectName) :
    (put_encoded corpus name).Yields (StoreCall.put name).Takes (fun _ _ => True) fun _ => True := by
  refine .bind ⟨rfl, fun stored _ => ?_⟩
  cases stored with
  | true => exact .bind ⟨trivial, fun _ _ => trivial⟩
  | false =>
    refine .bind ⟨rfl, fun _ _ => .bind ⟨trivial, fun _ _ => ?_⟩⟩
    exact .bind ⟨trivial, fun _ _ => .bind ⟨rfl, fun _ _ => trivial⟩⟩

theorem delete_takes (names : List ObjectName) :
    (LedgerVcs.delete names).Yields (StoreCall.delete names).Takes (fun _ _ => True) fun _ => True := by
  refine .bind (.mono (.mapM fun name member => ⟨member, fun _ _ => trivial⟩) (fun _ fits => fits) fun _ _ => ?_)
  refine .bind (.mono (.mapM fun name member => ⟨member, fun _ _ => trivial⟩) (fun _ fits => fits) fun _ _ => ?_)
  trivial

theorem code_takes (call : StoreCall) :
    (call.code corpus).Yields call.Takes (fun _ _ => True) fun _ => True := by
  cases call with
  | put name => exact put_encoded_takes name
  | delete names => exact delete_takes names

theorem takes_leaves {call : StoreCall} {party : ι} {command : Cmd} {history : StoreHistory ι}
    (taken : call.Takes command) (left : call.Leaves party history) :
    call.Leaves party (Traced.exec (exec corpus) party command history).2 := by
  cases call with
  | put name =>
    rw [StoreCall.Leaves, Within, unfinished_exec]
    cases command with
    | backend_exists | catalog_record => exact ⟨fun other half => left.1 other half.1, left.2⟩
    | backend_write other =>
      refine ⟨fun another half => ?_, left.2⟩
      rcases half with same | before
      next => exact (congrArg Prod.snd same).trans taken
      next => exact left.1 another before
    | now_us | tombstone_clear => exact left
    | _ => exact taken.elim
  | delete names =>
    rw [StoreCall.Leaves, Within, unfinished_exec]
    cases command with
    | backend_delete other =>
      refine ⟨left.1, fun another half => ?_⟩
      rcases half with same | before
      next =>
        obtain rfl : another = other := congrArg Prod.snd same
        exact taken
      next => exact left.2 another before
    | catalog_forget => exact ⟨left.1, fun other half => left.2 other half.1⟩
    | _ => exact taken.elim

/-! ## A call's end -/

theorem issue_within {party : ι} {command : Cmd} {history : StoreHistory ι}
    {recording forgetting recording' forgetting' : Set ObjectName}
    (within : Within party recording forgetting history)
    (notes : ∀ before, Within party recording forgetting before →
      Within party recording' forgetting' (Traced.exec (exec corpus) party command before).2) :
    (issue command).Meets (callers corpus party) (callerContract party)
      (Returns fun _ after => Within party recording' forgetting' after) history :=
  .ask (fun _ _ _ passes => within_stable _ _ passes) fun later passes _ =>
    ⟨exec_untouched party command later, notes later (within_stable _ _ passes within)⟩

theorem put_settles {party : ι} {name : ObjectName} {history : StoreHistory ι}
    (left : Within party {name} ∅ history) :
    (put_encoded corpus name).Meets (callers corpus party) (callerContract party)
      (Returns fun _ after => Within party ∅ ∅ after) history := by
  have looked (before : StoreHistory ι) (within : Within party {name} ∅ before) :
      Within party ∅ ∅ (Traced.exec (exec corpus) party (.backend_exists name) before).2 :=
    ⟨fun other half => half.2 (congrArg (Prod.mk party) (within.1 other half.1)), within.2⟩
  have wrote (before : StoreHistory ι) (within : Within party ∅ ∅ before) :
      Within party {name} ∅ (Traced.exec (exec corpus) party (.backend_write name) before).2 := by
    refine ⟨fun other half => ?_, within.2⟩
    rcases half with own | earlier
    next => exact congrArg Prod.snd own
    next => exact (within.1 other earlier).elim
  have recorded (row : CatalogRow) (before : StoreHistory ι) (within : Within party {name} ∅ before) :
      Within party ∅ ∅ (Traced.exec (exec corpus) party (.catalog_record ⟨row, name⟩) before).2 :=
    ⟨fun other half => half.2 (congrArg (Prod.mk party) (within.1 other half.1)), within.2⟩
  have cleared {recording : Set ObjectName} (before : StoreHistory ι) (within : Within party recording ∅ before) :
      Within party recording ∅ (Traced.exec (exec corpus) party (.tombstone_clear name) before).2 := within
  have timed {recording : Set ObjectName} (before : StoreHistory ι) (within : Within party recording ∅ before) :
      Within party recording ∅ (Traced.exec (exec corpus) party .now_us before).2 := within
  have returns (result : PutOutcome) (last : StoreHistory ι) (nothing : Within party ∅ ∅ last) :
      (pure result : Act PutOutcome).Meets (callers corpus party) (callerContract party)
        (Returns fun _ after => Within party ∅ ∅ after) last :=
    fun later passes => within_stable _ _ passes nothing
  refine .seq (issue_within left looked) fun stored _ within => ?_
  cases stored with
  | true => exact .seq (issue_within within cleared) fun _ _ nothing => returns _ _ nothing
  | false =>
    refine .seq (issue_within within wrote) fun occupied _ within => ?_
    refine .seq (issue_within within cleared) fun _ _ within => ?_
    refine .seq (issue_within within timed) fun written_at_us _ within => ?_
    exact .seq (issue_within within (recorded _)) fun _ _ nothing => returns _ _ nothing

theorem delete_settles {party : ι} {names : List ObjectName} {history : StoreHistory ι}
    (left : Within party ∅ {name | name ∈ names} history) :
    (LedgerVcs.delete names).Meets (callers corpus party) (callerContract party)
      (Returns fun _ after => Within party ∅ ∅ after) history := by
  refine .seq (.mapM (I := fun _ => Within party ∅ {name | name ∈ names}) (fun _ => within_stable)
    (fun through name rest split before within => ?_) left) fun removed deleted half => ?_
  next =>
    refine issue_within within fun before within => ⟨within.1, fun other half => ?_⟩
    rcases half with own | earlier
    next =>
      obtain rfl : other = name := congrArg Prod.snd own
      exact split ▸ List.mem_append_right _ List.mem_cons_self
    next => exact within.2 other earlier
  refine .seq (.mapM (I := fun through => Within party ∅ {name | name ∈ names ∧ name ∉ through})
    (fun _ => within_stable) (fun through name rest split before within => ?_) ?_) fun _ forgot nothing => ?_
  next =>
    refine issue_within within fun before within => ⟨within.1, fun other half => ?_⟩
    obtain ⟨member, later⟩ := within.2 other half.1
    refine ⟨member, fun passed => ?_⟩
    rcases List.mem_append.mp passed with earlier | last
    next => exact later earlier
    next => exact half.2 (congrArg (Prod.mk party) (List.mem_singleton.mp last))
  next => exact ⟨half.1, fun name member => ⟨half.2 name member, List.not_mem_nil⟩⟩
  next =>
    refine fun later passes => within_stable _ _ passes ⟨nothing.1, fun name member => ?_⟩
    exact (nothing.2 name member).2 (nothing.2 name member).1

/-! ## Every interleaving -/

theorem call_settles (call : StoreCall) (crashes : List Nat) {party : ι} {history : StoreHistory ι}
    (left : call.Leaves party history) :
    ((call.code corpus).retried crashes).Meets (callers corpus party) (callerContract party)
      (Returns fun _ after => Within party ∅ ∅ after) history := by
  refine .retried (I := call.Leaves party) (code_takes call) ?_ (fun _ _ _ => trivial)
    (fun command before taken _ left => ⟨exec_untouched party command before, takes_leaves taken left⟩)
    (fun before left => ?_) crashes left
  next =>
    intro before after passes left
    cases call <;> exact within_stable before after passes left
  next =>
    cases call with
    | put name => exact put_settles left
    | delete names => exact delete_settles left

end Callers

/-- Once every put and delete has come to its end, however often each was interrupted, what is stored is what is
catalogued, in any order of the steps in which a step that parts the two finds a call that will bring them
together again. -/
theorem stored_iff_catalogued {ι : Type} [DecidableEq ι] (corpus : Corpus) (calls : ι → StoreCall)
    (crashes : ι → List Nat) (world : World) (consistent : ∀ name, name ∈ world.backend ↔ name ∈ world.catalog)
    {after : Pool ι Cmd Cmd.Response PyError (fun party => (calls party).Result) (StoreHistory ι)}
    (run : Pool.Run (callers corpus) Elsewhere (call_store corpus calls crashes world) after)
    (finished : ∀ party, ∃ value, after.procs party = .done value) :
    ∀ name, name ∈ after.shared.state.backend ↔ name ∈ after.shared.state.catalog := by
  have compatible (party other : ι) (different : party ≠ other) (first second : StoreHistory ι)
      (kept : (callerContract other).guarantee first second) : (callerContract party).rely first second :=
    kept party different
  have weather (party : ι) (first second : StoreHistory ι) (passes : Elsewhere first second) :
      (callerContract party).rely first second := by
    have same : unfinished second = unfinished first := by rw [unfinished, passes.1, unfinished]
    exact ⟨fun _ => by rw [same], fun _ => by rw [same]⟩
  have start : (call_store corpus calls crashes world).Meets (callers corpus) callerContract
      (fun party => Returns fun _ later => Within party ∅ ∅ later) := by
    refine fun party => call_settles (calls party) (crashes party) ?_
    cases calls party <;> exact ⟨fun _ half => half.elim, fun _ half => half.elim⟩
  have meets := Pool.run_meets compatible weather start run
  have held : Reconciled after.shared := by
    refine Pool.run_keeps (I := Reconciled) (fun party => (code_takes (calls party)).retried (crashes party))
      (fun _ _ _ _ => trivial) (fun party command history _ fits held => step_reconciled fits held) ?_ ?_ run
    next =>
      intro first second passes held name
      rw [World.Unrecorded, unfinished, passes.1, passes.2.1, passes.2.2]
      exact held name
    next =>
      exact fun name => ⟨fun unrecorded => absurd ((consistent name).mp unrecorded.1) unrecorded.2,
        fun gone row => absurd ((consistent name).mpr row) gone⟩
  intro name
  have nobody (party : ι) : (party, name) ∉ (unfinished after.shared).recording ∧
      (party, name) ∉ (unfinished after.shared).forgetting := by
    obtain ⟨value, done⟩ := finished party
    have settled := meets.returned done
    exact ⟨fun half => settled.1 name half, fun half => settled.2 name half⟩
  constructor
  next =>
    intro there
    by_contra missing
    obtain ⟨party, half⟩ := (held name).1 ⟨there, missing⟩
    exact (nobody party).1 half
  next =>
    intro row
    by_contra gone
    obtain ⟨party, half⟩ := (held name).2 gone row
    exact (nobody party).2 half

/-- One caller puts the empty tree into an empty store. -/
def putOnly : Unit → StoreCall := fun _ => .put emptyTreeName

theorem stored_iff_catalogued_put :
    let put := Prog.advance (Traced.exec (exec emptyTreeOnly) ()) 5 (put_encoded emptyTreeOnly emptyTreeName)
      ⟨.empty 0, []⟩
    ∀ name, name ∈ put.2.state.backend ↔ name ∈ put.2.state.catalog := by
  have run : Pool.Run (callers emptyTreeOnly) Elsewhere (call_store emptyTreeOnly putOnly (fun _ => []) (.empty 0)) _ :=
    .head (.act _ () _ _ rfl fun half => half.elim) (.head (.act _ () _ _ rfl trivial)
      (.head (.act _ () _ _ rfl trivial) (.head (.act _ () _ _ rfl trivial)
        (.single (.act _ () _ _ rfl (.inl (by decide)))))))
  refine stored_iff_catalogued emptyTreeOnly putOnly (fun _ => []) (.empty 0) (fun name => ?_) run fun _ => ⟨_, rfl⟩
  simp [World.empty]

/-- The put is interrupted after its write. Retried, it finds the object stored and records nothing. -/
theorem interrupted_put_uncatalogued :
    ∃ after, Pool.Run (fun party => ⟨Traced.exec (exec emptyTreeOnly) party, fun _ _ => True⟩) Elsewhere
        (call_store emptyTreeOnly putOnly (fun _ => [2]) (.empty 0)) after ∧
      (∀ party, ∃ value, after.procs party = .done value) ∧
        ¬ ∀ name, name ∈ after.shared.state.backend ↔ name ∈ after.shared.state.catalog := by
  refine ⟨_, @Pool.Run.advance _ _ _ _ _ _ _ _ _ () (fun _ => True) (fun _ _ _ => ⟨trivial, trivial⟩) 4 _ trivial,
    fun _ => ⟨_, rfl⟩, fun same => ?_⟩
  exact absurd ((same emptyTreeName).mp (by decide)) (by decide)

end LedgerVcs
