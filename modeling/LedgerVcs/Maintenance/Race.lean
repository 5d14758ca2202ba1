import LedgerVcs.Maintenance.Plan
import LedgerVcs.Meta.Effects
import LedgerVcs.Service.Commits

set_option autoImplicit false

/-! A publish and a collection at once. -/

namespace LedgerVcs

open Prog (Actor Contract Pool Traced)
open Wire (Bytes)

/-! ## The two parties -/

inductive Party
  | publisher | collector
deriving DecidableEq, Repr

abbrev Happening := Prog.Event Party Cmd Cmd.Response

/-- The state, and what the two have done to it. -/
abbrev History := Traced Party Cmd Cmd.Response World

/-- What a publisher writes, and the tree it publishes, given the ref it amends. -/
structure Work where
  objects : Option Ref → List LedgerObject
  tree : Option Ref → ObjectName

def Work.builder (corpus : Corpus) (work : Work) : TreeBuilder := fun current =>
  writing corpus (work.objects current) (work.tree current)

@[reducible] def Party.Result : Party → Type
  | .publisher => CommitResult
  | .collector => GcReport

def Party.code (corpus : Corpus) (config : GcConfig) (publication : Publication) (work : Work) :
    (party : Party) → Act party.Result
  | .publisher => publish corpus publication (work.builder corpus)
  | .collector => GarbageCollector.run config true

/-- The clock moves on. -/
def Ticks (before after : History) : Prop :=
  ∃ clock, before.state.clock ≤ clock ∧ after = { before with state := { before.state with clock } }

/-! ## What has been seen so far -/

structure Notes where
  /-- What the publisher found at the ref when it started. -/
  base : Option (Option Ref)
  /-- What it has asked the backend for on the way to writing it. -/
  checked : Finset ObjectName
  /-- When the collector started. -/
  now : Option Int
  /-- The keep-sets of the shard the collector is at, and the leases, as it read them. -/
  live : Finset ObjectName
  leased : Finset ObjectName
  /-- What it has found old and unprotected and has not deleted yet. -/
  pending : Finset ObjectName

def Notes.none : Notes := ⟨.none, ∅, .none, ∅, ∅, ∅⟩

/-- The entries that a read of the catalogue condemns. -/
def Notes.condemned (config : GcConfig) (notes : Notes) (entries : List CatalogEntry) : Finset ObjectName :=
  match notes.now with
  | some now => ((entries.filter (selected (now - config.grace_us) notes.live notes.leased)).map
      CatalogEntry.name).toFinset
  | .none => ∅

def Notes.see (config : GcConfig) (notes : Notes) : Happening → Notes
  | ⟨.publisher, .meta_get _ (.ref _), item⟩ =>
      { notes with base := notes.base.or (some (item.map Item.body)) }
  | ⟨.publisher, .backend_exists name, _⟩ => { notes with checked := insert name notes.checked }
  | ⟨.collector, .now_us, now⟩ => { notes with now := notes.now.or (some now) }
  | ⟨.collector, .meta_query _ (.session_pages _) _, rows⟩ =>
      { notes with leased := notes.leased ∪ (rows.flatMap fun row => row.2.body).toFinset }
  | ⟨.collector, .keepset_range _ _, live⟩ => { notes with live }
  | ⟨.collector, .catalog_range _ _, entries⟩ =>
      { notes with pending := notes.pending ∪ notes.condemned config entries }
  | ⟨.collector, .backend_delete name, _⟩ => { notes with pending := notes.pending.erase name }
  | _ => notes

section Race

variable (corpus : Corpus) (config : GcConfig) (work : Work)

def notes (history : History) : Notes := history.trace.foldr (fun event seen => seen.see config event) .none

/-- Part of the tree that the publisher does not write itself. -/
def Work.Reuses (current : Option Ref) (name : ObjectName) : Prop :=
  TreeClosure corpus (work.tree current) name ∧
    ∀ object ∈ work.objects current, corpus.name_of object ≠ .ok name

/-- What the publisher takes to be stored. -/
def Relied (seen : Notes) (name : ObjectName) : Prop :=
  name ∈ seen.checked ∨ ∃ current, seen.base = some current ∧ work.Reuses corpus current name

/-- The publisher starts when all it reuses is stored, and neither then nor later does it rely on an object
that the collector is about to delete. -/
def PublisherMay : Cmd → History → Prop
  | .meta_get pk (.ref name), history =>
      (notes config history).base = .none →
        ∀ reused, work.Reuses corpus (((history.state.partition pk).get (.ref name)).map Item.body) reused →
          reused ∈ history.state.backend ∧ reused ∉ (notes config history).pending
  | .backend_exists name, history => name ∉ (notes config history).pending
  | _, _ => True

/-- When the collector reads the catalogue, what the publisher relies on is recent, or in the keep-sets or
leases that the collector has read. -/
def CollectorMay : Cmd → History → Prop
  | .catalog_range low high, history =>
      ∀ now, (notes config history).now = some now → ∀ name row, Relied corpus work (notes config history) name →
        InRange low high name → history.state.catalog[name]? = some row →
          row.written_at_us ≤ now - config.grace_us →
            name ∈ (notes config history).live ∨ name ∈ (notes config history).leased
  | _, _ => True

def actors : Party → Actor Cmd Cmd.Response History
  | .publisher => ⟨Traced.exec (exec corpus) .publisher, PublisherMay corpus config work⟩
  | .collector => ⟨Traced.exec (exec corpus) .collector, CollectorMay corpus config work⟩

end Race

/-! ## The invariant -/

section Invariant

variable {corpus : Corpus} {config : GcConfig} {work : Work}

/-- Nothing relied on is about to be deleted. -/
def Apart (corpus : Corpus) (config : GcConfig) (work : Work) (history : History) : Prop :=
  ∀ name ∈ (notes config history).pending, ¬ Relied corpus work (notes config history) name

theorem notes_exec (party : Party) (command : Cmd) (history : History) :
    notes config (Traced.exec (exec corpus) party command history).2 =
      (notes config history).see config ⟨party, command, (exec corpus command history.state).1⟩ := rfl

theorem publisher_see (seen : Notes) (command : Cmd) (response : command.Response) :
    (seen.see config ⟨.publisher, command, response⟩).now = seen.now ∧
      (seen.see config ⟨.publisher, command, response⟩).live = seen.live ∧
      (seen.see config ⟨.publisher, command, response⟩).leased = seen.leased ∧
      (seen.see config ⟨.publisher, command, response⟩).pending = seen.pending := by
  cases command with
  | meta_get pk key => cases key <;> exact ⟨rfl, rfl, rfl, rfl⟩
  | _ => exact ⟨rfl, rfl, rfl, rfl⟩

theorem collector_see (seen : Notes) (command : Cmd) (response : command.Response) :
    (seen.see config ⟨.collector, command, response⟩).base = seen.base ∧
      (seen.see config ⟨.collector, command, response⟩).checked = seen.checked := by
  cases command with
  | meta_query pk query limit => cases query <;> exact ⟨rfl, rfl⟩
  | _ => exact ⟨rfl, rfl⟩

theorem publisher_relies {seen : Notes} {command : Cmd} {response : command.Response} {name : ObjectName}
    (relied : Relied corpus work seen name) :
    Relied corpus work (seen.see config ⟨.publisher, command, response⟩) name := by
  cases command with
  | meta_get pk key =>
    cases key with
    | ref other =>
      rcases relied with checked | ⟨current, based, reused⟩
      next => exact .inl checked
      next => exact .inr ⟨current, by simp [Notes.see, based], reused⟩
    | _ => exact relied
  | backend_exists other =>
    rcases relied with checked | based
    next => exact .inl (Finset.mem_insert_of_mem checked)
    next => exact .inr based
  | _ => exact relied

theorem publisher_apart {command : Cmd} {history : History} (fits : PublisherMay corpus config work command history)
    (apart : Apart corpus config work history) :
    Apart corpus config work (Traced.exec (exec corpus) .publisher command history).2 := by
  intro name pending relied
  rw [notes_exec] at pending relied
  rw [(publisher_see _ _ _).2.2.2] at pending
  cases command with
  | meta_get pk key =>
    cases key with
    | ref other =>
      rcases relied with checked | ⟨current, based, reused⟩
      next => exact apart name pending (.inl checked)
      next =>
        cases earlier : (notes config history).base with
        | none =>
          simp only [Notes.see, earlier, Option.none_or, Option.some.injEq] at based
          exact (fits earlier name (based ▸ reused)).2 pending
        | some known =>
          simp only [Notes.see, earlier, Option.some_or, Option.some.injEq] at based
          exact apart name pending (.inr ⟨current, earlier.trans (congrArg some based), reused⟩)
    | _ => exact apart name pending relied
  | backend_exists other =>
    rcases relied with checked | based
    next =>
      rcases Finset.mem_insert.mp checked with rfl | before
      next => exact fits pending
      next => exact apart name pending (.inl before)
    next => exact apart name pending (.inr based)
  | _ => exact apart name pending relied

theorem collector_relies {seen : Notes} {command : Cmd} {response : command.Response} {name : ObjectName} :
    Relied corpus work (seen.see config ⟨.collector, command, response⟩) name ↔ Relied corpus work seen name := by
  rw [Relied, (collector_see _ _ _).1, (collector_see _ _ _).2]
  rfl

theorem mem_condemned {seen : Notes} {entries : List CatalogEntry} {name : ObjectName} :
    name ∈ seen.condemned config entries ↔
      ∃ now, seen.now = some now ∧ ∃ entry ∈ entries, entry.name = name ∧ name ∉ seen.live ∧ name ∉ seen.leased ∧
        entry.written_at_us ≤ now - config.grace_us := by
  cases started : seen.now with
  | none => simp [Notes.condemned, started]
  | some now =>
    simp only [Notes.condemned, started, List.mem_toFinset, List.mem_map, List.mem_filter, selected,
      decide_eq_true_eq, Option.some.injEq, exists_eq_left']
    constructor
    next => rintro ⟨entry, ⟨member, rest⟩, rfl⟩; exact ⟨entry, member, rfl, rest⟩
    next => rintro ⟨entry, member, rfl, rest⟩; exact ⟨entry, ⟨member, rest⟩, rfl⟩

theorem mem_catalog_range {world : World} {low high : Wire.Bytes} {entry : CatalogEntry} :
    entry ∈ (exec corpus (.catalog_range low high) world).1 ↔
      world.catalog[entry.name]? = some entry.toCatalogRow ∧ InRange low high entry.name := by
  simp only [exec, List.mem_map, List.mem_filter, decide_eq_true_eq, Prod.exists,
    Std.ExtTreeMap.mem_toList_iff_getElem?_eq_some]
  constructor
  next => rintro ⟨name, row, found, rfl⟩; exact found
  next => intro found; exact ⟨entry.name, entry.toCatalogRow, found, rfl⟩

theorem collector_apart {command : Cmd} {history : History} (fits : CollectorMay corpus config work command history)
    (apart : Apart corpus config work history) :
    Apart corpus config work (Traced.exec (exec corpus) .collector command history).2 := by
  intro name pending relied
  rw [notes_exec] at pending relied
  rw [collector_relies] at relied
  cases command with
  | meta_query pk query limit => cases query <;> exact apart name pending relied
  | catalog_range low high =>
    rcases Finset.mem_union.mp pending with before | condemned
    next => exact apart name before relied
    next =>
      obtain ⟨now, started, entry, member, rfl, spared, unleased, old⟩ := mem_condemned.mp condemned
      obtain ⟨found, inside⟩ := mem_catalog_range.mp member
      rcases fits now started entry.name _ relied inside found old with live | leased
      next => exact spared live
      next => exact unleased leased
  | backend_delete other => exact apart name (Finset.mem_of_mem_erase pending) relied
  | _ => exact apart name pending relied

theorem exec_backend {command : Cmd} {world : World} (kept : ∀ name, command ≠ .backend_delete name) :
    world.backend ⊆ (exec corpus command world).2.backend := by
  cases command with
  | backend_delete name => exact absurd rfl (kept name)
  | backend_write name => exact Finset.subset_insert _ _
  | transact_write pk writes =>
    simp only [exec]
    split <;> exact Finset.Subset.refl _
  | _ => exact Finset.Subset.refl _

end Invariant

/-! ## The publisher -/

/-- The publisher counts on the collector not to delete what it relies on, and the collector on the publisher
not to rely on what it has condemned. -/
def publishing (corpus : Corpus) (config : GcConfig) (work : Work) : Contract History where
  rely before after :=
    (Apart corpus config work before → Apart corpus config work after) ∧
      ((notes config after).base = (notes config before).base ∧
        (notes config after).checked = (notes config before).checked) ∧
      (Apart corpus config work before → ∀ name, Relied corpus work (notes config before) name →
        name ∈ before.state.backend → name ∈ after.state.backend)
  guarantee before after :=
    (Apart corpus config work before → Apart corpus config work after) ∧
      (notes config after).now = (notes config before).now ∧
      (notes config after).live = (notes config before).live ∧
      (notes config after).leased = (notes config before).leased ∧
      (notes config after).pending = (notes config before).pending
  rely_refl _ := ⟨id, ⟨rfl, rfl⟩, fun _ _ _ stored => stored⟩
  rely_trans := by
    intro first second third early late
    refine ⟨late.1 ∘ early.1, ⟨late.2.1.1.trans early.2.1.1, late.2.1.2.trans early.2.1.2⟩, ?_⟩
    intro apart name relied stored
    refine late.2.2 (early.1 apart) name ?_ (early.2.2 apart name relied stored)
    rwa [Relied, early.2.1.1, early.2.1.2]

def collecting (corpus : Corpus) (config : GcConfig) (work : Work) : Contract History where
  rely := (publishing corpus config work).guarantee
  guarantee := (publishing corpus config work).rely
  rely_refl _ := ⟨id, rfl, rfl, rfl, rfl⟩
  rely_trans := by
    intro first second third early late
    exact ⟨late.1 ∘ early.1, late.2.1.trans early.2.1, late.2.2.1.trans early.2.2.1,
      late.2.2.2.1.trans early.2.2.2.1, late.2.2.2.2.trans early.2.2.2.2⟩

section Publisher

variable {corpus : Corpus} {config : GcConfig} {work : Work} {names : Set ObjectName} {history : History}

theorem publisher_free (command : Cmd) (before : History)
    (fits : (actors corpus config work .publisher).may command before) :
    (publishing corpus config work).guarantee before
      ((actors corpus config work .publisher).exec command before).2 :=
  ⟨publisher_apart fits, publisher_see _ _ _⟩

/-- Relied on, and stored. -/
def Holds (corpus : Corpus) (config : GcConfig) (work : Work) (names : Set ObjectName) (history : History) : Prop :=
  Apart corpus config work history ∧
    ∀ name ∈ names, Relied corpus work (notes config history) name ∧ name ∈ history.state.backend

theorem holds_stable (before after : History) (passes : (publishing corpus config work).rely before after)
    (holds : Holds corpus config work names before) : Holds corpus config work names after := by
  refine ⟨passes.1 holds.1, fun name member => ?_⟩
  obtain ⟨relied, stored⟩ := holds.2 name member
  refine ⟨?_, passes.2.2 holds.1 name relied stored⟩
  rwa [Relied, passes.2.1.1, passes.2.1.2]

/-- Commands that delete no object. -/
def Quiet (command : Cmd) : Prop := ∀ name, command ≠ .backend_delete name

theorem holds_exec {command : Cmd} (quiet : Quiet command)
    (fits : (actors corpus config work .publisher).may command history)
    (holds : Holds corpus config work names history) :
    Holds corpus config work names ((actors corpus config work .publisher).exec command history).2 := by
  refine ⟨publisher_apart fits holds.1, fun name member => ?_⟩
  obtain ⟨relied, stored⟩ := holds.2 name member
  exact ⟨publisher_relies relied, exec_backend quiet stored⟩

theorem quiet_meets {α : Type} {act : Act α} {result : α → Prop}
    (yields : act.Yields Quiet (answers corpus) result) (holds : Holds corpus config work names history) :
    act.Meets (actors corpus config work .publisher) (publishing corpus config work)
      (Prog.Meets.Returns fun value after => Holds corpus config work names after ∧ result value) history := by
  refine (Prog.Meets.of_yields yields holds holds_stable (fun command before _ => answered corpus command before.state)
    (fun command before quiet fits held => ⟨publisher_free command before fits, holds_exec quiet fits held⟩)).mono ?_
  intro outcome after met
  cases outcome with
  | ok value => exact ⟨met.1, met.2 value rfl⟩
  | error => trivial

theorem put_encoded_meets (name : ObjectName) (holds : Holds corpus config work names history) :
    (put_encoded corpus name).Meets (actors corpus config work .publisher) (publishing corpus config work)
      (Prog.Meets.Returns fun outcome after => Holds corpus config work (insert name names) after ∧ outcome.name = name)
      history := by
  have checks : (issue (.backend_exists name) : Act Bool).Meets (actors corpus config work .publisher)
      (publishing corpus config work)
      (Prog.Meets.Returns fun stored after => Holds corpus config work names after ∧ name ∈ (notes config after).checked ∧
        (stored = true → name ∈ after.state.backend)) history := by
    refine Prog.Meets.ask ?_ fun later passes fits => ⟨publisher_free _ _ fits, ?_⟩
    next =>
      rintro stored before after passes ⟨held, checked, present⟩
      refine ⟨holds_stable _ _ passes held, ?_, fun yes => ?_⟩
      next => rwa [passes.2.1.2]
      next => exact passes.2.2 held.1 name (.inl checked) (present yes)
    next =>
      refine ⟨holds_exec (fun _ same => by cases same) fits (holds_stable _ _ passes holds), ?_, ?_⟩
      next => exact Finset.mem_insert_self _ _
      next => exact of_decide_eq_true
  have more {after : History} (held : Holds corpus config work names after)
      (checked : name ∈ (notes config after).checked) (stored : name ∈ after.state.backend) :
      Holds corpus config work (insert name names) after := by
    refine ⟨held.1, fun other member => ?_⟩
    rcases member with rfl | before
    next => exact ⟨.inl checked, stored⟩
    next => exact held.2 other before
  refine checks.seq fun stored after held => ?_
  obtain ⟨held, checked, present⟩ := held
  cases stored with
  | true =>
    rw [if_pos rfl]
    refine quiet_meets (.bind (.ask ?_ fun _ _ => ?_)) (more held checked (present rfl))
    next => exact fun _ same => by cases same
    next => rfl
  | false =>
    rw [if_neg (by decide)]
    have writes : (issue (.backend_write name) : Act Nat).Meets (actors corpus config work .publisher)
        (publishing corpus config work)
        (Prog.Meets.Returns fun _ later => Holds corpus config work (insert name names) later) after := by
      refine Prog.Meets.ask (fun _ _ _ passes => holds_stable _ _ passes) fun later passes fits => ?_
      refine ⟨publisher_free _ _ fits, more ?_ ?_ (Finset.mem_insert_self _ _)⟩
      next => exact holds_exec (fun _ same => by cases same) fits (holds_stable _ _ passes held)
      next => rw [← passes.2.1.2] at checked; exact checked
    refine writes.seq fun occupied later held => ?_
    refine quiet_meets (.bind (.ask ?_ fun _ _ => .bind (.ask ?_ fun _ _ => .bind (.ask ?_ fun _ _ => ?_)))) held
    next => exact fun _ same => by cases same
    next => exact fun _ same => by cases same
    next => exact fun _ same => by cases same
    next => rfl

theorem put_object_meets (object : LedgerObject) (holds : Holds corpus config work names history) :
    (put_object corpus object).Meets (actors corpus config work .publisher) (publishing corpus config work)
      (Prog.Meets.Returns fun outcome after => corpus.name_of object = .ok outcome.name ∧
        Holds corpus config work (insert outcome.name names) after) history := by
  refine Prog.Meets.seq (Q := fun name after => corpus.name_of object = .ok name ∧
    Holds corpus config work names after) (.ofExcept fun name named later passes => ?_) fun name after held => ?_
  next => exact ⟨named, holds_stable _ _ passes holds⟩
  next =>
    refine (put_encoded_meets name held.2).mono fun outcome later met => ?_
    cases outcome with
    | ok outcome =>
      obtain ⟨held', same⟩ := met
      exact ⟨same ▸ held.1, same ▸ held'⟩
    | error => trivial

/-- The names of a list of objects. -/
def Named (corpus : Corpus) (objects : List LedgerObject) : Set ObjectName :=
  {name | ∃ object ∈ objects, corpus.name_of object = .ok name}

theorem writing_meets (objects : List LedgerObject) (tree : ObjectName)
    (holds : Holds corpus config work names history) :
    (writing corpus objects tree).Meets (actors corpus config work .publisher) (publishing corpus config work)
      (Prog.Meets.Returns fun result after => Holds corpus config work (names ∪ Named corpus objects) after ∧
        result.1 = tree) history := by
  refine Prog.Meets.seq (Q := fun _ after => Holds corpus config work (names ∪ Named corpus objects) after)
    (Prog.Meets.mapM (I := fun through after =>
      Holds corpus config work (names ∪ Named corpus through) after) (fun _ _ _ => holds_stable _ _) ?_ ?_) ?_
  next =>
    intro through object rest split before held
    refine (put_object_meets object held).mono fun outcome after met => ?_
    cases outcome with
    | error => trivial
    | ok outcome =>
      obtain ⟨named, held⟩ := met
      refine ⟨held.1, fun name member => held.2 name ?_⟩
      rcases member with base | ⟨other, among, called⟩
      next => exact .inr (.inl base)
      next =>
        rcases List.mem_append.mp among with early | now
        next => exact .inr (.inr ⟨other, early, called⟩)
        next =>
          rw [List.mem_singleton.mp now, named] at called
          exact .inl (Except.ok.inj called).symm
  next =>
    refine ⟨holds.1, fun name member => ?_⟩
    rcases member with base | ⟨_, impossible, _⟩
    next => exact holds.2 name base
    next => cases impossible
  next => exact fun _ after held later passes => ⟨holds_stable _ _ passes held, rfl⟩

end Publisher

/-! ## What a publish comes to -/

section Publish

variable {corpus : Corpus} {config : GcConfig} {work : Work} {names : Set ObjectName} {history : History}

theorem reads_quiet (command : Cmd) (reads : Reads command) : Quiet command := by
  obtain ⟨name, rfl⟩ := reads
  exact fun _ same => by cases same

theorem session_quiet {env : EnvId} (command : Cmd) (fits : SessionCmd env command) : Quiet command := by
  rintro name rfl
  exact fits

theorem ref_quiet {env : EnvId} {moves : Move → Prop} (command : Cmd) (fits : RefCmd env moves command) :
    Quiet command := by
  rintro name rfl
  exact fits

theorem move_yields {answers : (command : Cmd) → command.Response → Prop} (publication : Publication)
    (request : Request) (target : ObjectName) (current : Option Ref) :
    (publication.move request target current).Yields Quiet answers fun update =>
      update.replayed = false → update.ref.target = target := by
  cases current with
  | none =>
    exact (@create_ref_yields _ _ (fun _ _ => True) publication.ref target _ _ _ _ _ _
      fun _ _ => trivial).mono ref_quiet fun _ met => met
  | some current =>
    exact (@update_ref_yields _ _ (fun _ _ => True) publication.ref current.generation target _ _ _ _ _
      fun _ _ => trivial).mono ref_quiet fun _ met => met

theorem graduate_yields {answers : (command : Cmd) → command.Response → Prop} (env : EnvId)
    (names : List ObjectName) : (GarbageCollector.graduate env names).Yields Quiet answers fun _ => True := by
  refine .bind (@Prog.Yields.mono _ _ _ _ _ _ (fun _ => True) _ _ _ (Prog.Yields.mapM fun name _ => ?_)
    (fun _ fits => fits) fun _ _ => trivial)
  exact .ask (fun _ same => by cases same) fun _ _ => trivial

/-- The result's commit and what its tree reaches are held. -/
def Published (corpus : Corpus) (config : GcConfig) (work : Work) (result : CommitResult) (history : History) :
    Prop :=
  ∃ names, Holds corpus config work names history ∧
    (result.replayed = false → ∀ name, Closure corpus result.commit name → name ∈ names)

theorem published_stable (result : CommitResult) (before after : History)
    (passes : (publishing corpus config work).rely before after)
    (published : Published corpus config work result before) : Published corpus config work result after := by
  obtain ⟨names, holds, whole⟩ := published
  exact ⟨names, holds_stable _ _ passes holds, whole⟩

theorem finish_meets (publication : Publication) (session : SessionId) (current : Option Ref) (request : Request)
    (tree : ObjectName) (stats : IngestStats)
    (whole : ∀ name, TreeClosure corpus tree name → name ∈ names)
    (holds : Holds corpus config work names history) :
    (publication.finish corpus session current request tree stats).Meets (actors corpus config work .publisher)
      (publishing corpus config work) (Prog.Meets.Returns (Published corpus config work)) history := by
  refine (quiet_meets (.ask (Q := fun _ => True) ?_ fun _ _ => trivial) holds).seq fun timestamp_us after held => ?_
  next => exact fun _ same => by cases same
  refine (put_object_meets _ held.1).seq fun outcome later put => ?_
  obtain ⟨named, put⟩ := put
  -- What is left deletes nothing, and returns the commit just put.
  have rest : ((do
      let below ← tree_closure tree
      let _ ← record_uploaded publication.env session (outcome.name :: below)
      let update ← publication.move request outcome.name current
      let kept ← tree_closure tree
      let _ ← GarbageCollector.graduate publication.env (outcome.name :: kept)
      return ⟨update.ref.target, publication.ref, update.ref.generation, stats.add (.of_commit outcome),
        update.op_sequence, update.replayed⟩ : Act CommitResult)).Yields Quiet (answers corpus) fun result =>
        result.replayed = false → result.commit = outcome.name := by
    refine .bind ((tree_closure_yields tree).mono reads_quiet fun below _ => ?_)
    refine .bind ((record_uploaded_yields session _).mono session_quiet fun _ _ => ?_)
    refine .bind ((move_yields publication request outcome.name current).mono (fun _ fits => fits) fun update moved => ?_)
    refine .bind ((tree_closure_yields tree).mono reads_quiet fun kept _ => ?_)
    exact .bind ((graduate_yields publication.env _).mono (fun _ fits => fits) fun _ _ => moved)
  refine (quiet_meets rest put).mono fun final last met => ?_
  cases final with
  | error => trivial
  | ok result =>
    obtain ⟨held, target⟩ := met
    refine ⟨_, held, fun fresh name below => ?_⟩
    rw [target fresh] at below
    rcases below with rfl | ⟨node, content, reached⟩
    next => exact .inl rfl
    next =>
      obtain ⟨read, same, sameTree, -⟩ := read_back_commit ((corpus.named named).symm.trans content)
      cases same
      rw [sameTree] at reached
      exact .inr (whole name reached)

theorem body_meets (publication : Publication) (current : Option Ref) (session : SessionId)
    (holds : Holds corpus config work {name | work.Reuses corpus current name} history) :
    (publication.body corpus (work.builder corpus) current session).Meets (actors corpus config work .publisher)
      (publishing corpus config work) (Prog.Meets.Returns (Published corpus config work)) history := by
  refine (writing_meets (work.objects current) (work.tree current) holds).seq fun built after held => ?_
  obtain ⟨tree, stats⟩ := built
  obtain ⟨held, same⟩ := held
  obtain rfl : tree = work.tree current := same
  have known : (publication.recorded (.commit publication.ref (work.tree current))).Yields Quiet
      (answers corpus) fun _ => True := by
    rw [Publication.recorded]
    cases publication.idempotency_key with
    | none => trivial
    | some key =>
      exact (@recorded_outcome_yields _ _ (RefCmd publication.env fun _ => False) key _ rfl).mono ref_quiet
        fun _ _ => trivial
  refine (quiet_meets known held).seq fun recorded later held => ?_
  cases recorded with
  | some recorded =>
    refine (quiet_meets ((@get_ref_yields _ _ (fun _ => False) publication.ref).mono ref_quiet
      fun _ _ => trivial) held.1).seq fun published last held => ?_
    exact fun final passes => ⟨_, holds_stable _ _ passes held.1, fun fresh => by cases fresh⟩
  | none =>
    refine finish_meets publication session current _ _ stats (fun name reached => ?_) held.1
    -- Whatever the tree reaches is either written here or reused.
    by_cases written : name ∈ Named corpus (work.objects current)
    next => exact .inr written
    next => exact .inl ⟨reached, fun object member called => written ⟨object, member, called⟩⟩

theorem publish_meets (publication : Publication) (apart : Apart corpus config work history)
    (starting : (notes config history).base = none) :
    (publish corpus publication (work.builder corpus)).Meets (actors corpus config work .publisher)
      (publishing corpus config work) (Prog.Meets.Returns (Published corpus config work)) history := by
  have opens : (try_get_ref publication.env publication.ref).Meets (actors corpus config work .publisher)
      (publishing corpus config work) (Prog.Meets.Returns fun current after =>
        Holds corpus config work {name | work.Reuses corpus current name} after) history := by
    refine Prog.Meets.seq (Q := fun item after =>
      Holds corpus config work {name | work.Reuses corpus (item.map Item.body) name} after) ?_ fun item after held => ?_
    next =>
      refine Prog.Meets.ask (fun item _ _ passes => holds_stable _ _ passes) fun later passes fits => ?_
      have fresh : (notes config later).base = none := passes.2.1.1.trans starting
      refine ⟨publisher_free _ _ fits, publisher_apart fits (passes.1 apart), fun name reused => ⟨.inr ?_, ?_⟩⟩
      next => exact ⟨_, by simp [actors, notes_exec, Notes.see, fresh]; rfl, reused⟩
      next => exact (fits fresh name reused).1
    next => exact fun later passes => holds_stable _ _ passes held
  refine opens.seq fun current after held => ?_
  refine (quiet_meets ((begin_write_yields _ _ _).mono session_quiet fun _ _ => trivial) held).seq
    fun session later held => ?_
  refine .ensuring ((body_meets publication current session.session_id held.1).mono fun outcome last met => ?_)
  cases outcome with
  | error => exact Prog.Meets.free publisher_free |>.mono fun ended _ _ => by cases ended <;> trivial
  | ok result =>
    obtain ⟨names, held, whole⟩ := met
    refine (quiet_meets ((end_session_yields session.session_id).mono session_quiet fun _ _ => trivial) held).mono
      fun ended final kept => ?_
    cases ended with
    | error => trivial
    | ok => exact ⟨names, kept.1, whole⟩

end Publish

/-! ## The collector -/

/-- The collector's part of the notes. -/
def Notes.collected (seen : Notes) : Notes := { seen with base := .none, checked := ∅ }

section Collector

open GarbageCollector (scan_shard env_leased session_leased)

variable {corpus : Corpus} {config : GcConfig} {work : Work} {history : History}

theorem collected_see (seen : Notes) (command : Cmd) (response : command.Response) :
    (seen.see config ⟨.collector, command, response⟩).collected =
      seen.collected.see config ⟨.collector, command, response⟩ := by
  cases command with
  | meta_query pk query limit => cases query <;> rfl
  | _ => rfl

def Sees (corpus : Corpus) (config : GcConfig) (work : Work) (facts : Notes → Prop) (history : History) : Prop :=
  Apart corpus config work history ∧ facts (notes config history).collected

theorem sees_stable {facts : Notes → Prop} (before after : History)
    (passes : (collecting corpus config work).rely before after) (sees : Sees corpus config work facts before) :
    Sees corpus config work facts after := by
  obtain ⟨apart, now, live, leased, pending⟩ := passes
  refine ⟨apart sees.1, ?_⟩
  rw [Notes.collected, now, live, leased, pending]
  exact sees.2

theorem collector_guarantees {command : Cmd} (fits : (actors corpus config work .collector).may command history)
    (spares : Apart corpus config work history → ∀ name, command = .backend_delete name →
      name ∈ (notes config history).pending) :
    (collecting corpus config work).guarantee history
      ((actors corpus config work .collector).exec command history).2 := by
  refine ⟨collector_apart fits, collector_see _ _ _, fun apart name relied stored => ?_⟩
  by_cases deletes : ∃ other, command = .backend_delete other
  next =>
    obtain ⟨other, rfl⟩ := deletes
    refine Finset.mem_erase.mpr ⟨?_, stored⟩
    rintro rfl
    exact apart name (spares apart name rfl) relied
  next => exact exec_backend (fun other same => deletes ⟨other, same⟩) stored

/-- A command, and what it adds to the notes. -/
theorem collector_ask {command : Cmd} {F : Notes → Prop} {Q : command.Response → Notes → Prop}
    (sees : Sees corpus config work F history)
    (spares : ∀ seen, F seen → ∀ name, command = .backend_delete name → name ∈ seen.pending)
    (takes : ∀ seen world, F seen →
      Q (exec corpus command world).1 (seen.see config ⟨.collector, command, (exec corpus command world).1⟩)) :
    (issue command).Meets (actors corpus config work .collector) (collecting corpus config work)
      (Prog.Meets.Returns fun response after => Sees corpus config work (Q response) after) history := by
  refine Prog.Meets.ask (fun _ => sees_stable) fun later passes fits => ?_
  obtain ⟨apart, met⟩ := sees_stable _ _ passes sees
  refine ⟨collector_guarantees fits fun _ name same => spares _ met name same, collector_apart fits apart, ?_⟩
  change Q _ ((notes config later).see config _).collected
  rw [collected_see]
  exact takes _ later.state met

theorem collector_reads {command : Cmd} {facts : Notes → Prop} (quiet : Quiet command)
    (sees : Sees corpus config work facts history)
    (silent : ∀ seen response, facts seen → facts (seen.see config ⟨.collector, command, response⟩)) :
    (issue command).Meets (actors corpus config work .collector) (collecting corpus config work)
      (Prog.Meets.Returns fun _ after => Sees corpus config work facts after) history :=
  collector_ask sees (fun _ _ name same => absurd same (quiet name)) fun seen _ met => silent seen _ met

/-- The leases found so far include all that the collector has read of them. -/
def LeasesRead (now : Int) (leased : Finset ObjectName) (seen : Notes) : Prop :=
  seen.now = some now ∧ seen.leased ⊆ leased

theorem uploaded_meets {env : EnvId} {session : SessionId} {now : Int} {leased : Finset ObjectName}
    (sees : Sees corpus config work (LeasesRead now leased) history) :
    (uploaded_objects env session).Meets (actors corpus config work .collector) (collecting corpus config work)
      (Prog.Meets.Returns fun uploaded after =>
        Sees corpus config work (LeasesRead now (leased ∪ uploaded.toFinset)) after) history := by
  refine (collector_ask (Q := fun rows => LeasesRead now
    (leased ∪ (rows.flatMap fun row => row.2.body).toFinset)) sees (fun _ _ _ same => by cases same) ?_).seq
    fun rows after held => ?_
  next =>
    intro seen world met
    exact ⟨met.1, Finset.union_subset_union_left met.2⟩
  next => exact fun later passes => sees_stable _ _ passes held

theorem session_leased_meets {env : EnvId} {asked now : Int} {leased : Finset ObjectName} (session : WriteSession)
    (sees : Sees corpus config work (LeasesRead now leased) history) :
    (session_leased env asked leased session).Meets (actors corpus config work .collector)
      (collecting corpus config work)
      (Prog.Meets.Returns fun found after => Sees corpus config work (LeasesRead now found) after) history := by
  rw [session_leased]
  split
  next =>
    refine (uploaded_meets sees).seq fun uploaded after held => ?_
    exact fun later passes => sees_stable _ _ passes held
  next => exact fun later passes => sees_stable _ _ passes sees

theorem env_leased_meets {asked now : Int} {leased : Finset ObjectName} (name : EnvName)
    (sees : Sees corpus config work (LeasesRead now leased) history) :
    (env_leased asked leased name).Meets (actors corpus config work .collector) (collecting corpus config work)
      (Prog.Meets.Returns fun found after => Sees corpus config work (LeasesRead now found) after) history := by
  have resolves : (resolve_env_name name).Meets (actors corpus config work .collector)
      (collecting corpus config work)
      (Prog.Meets.Returns fun _ after => Sees corpus config work (LeasesRead now leased) after) history := by
    refine (collector_reads (fun _ same => by cases same) sees fun _ _ met => by exact met).seq fun claim after held => ?_
    cases claim with
    | none => exact fun _ _ => trivial
    | some claim => exact fun later passes => sees_stable _ _ passes held
  refine resolves.seq fun env after held => ?_
  refine (collector_reads (fun _ same => by cases same) held fun _ _ met => by exact met).seq fun sessions later held => ?_
  refine Prog.Meets.foldlM (I := fun _ found after => Sees corpus config work (LeasesRead now found) after)
    (fun _ _ _ _ => sees_stable _ _) ?_ held
  exact fun _ session _ _ so_far before met => session_leased_meets session met

theorem leased_meets {now : Int} (sees : Sees corpus config work (LeasesRead now ∅) history) :
    GarbageCollector.leased.Meets (actors corpus config work .collector) (collecting corpus config work)
      (Prog.Meets.Returns fun found after => Sees corpus config work (LeasesRead now found) after) history := by
  refine (collector_reads (fun _ same => by cases same) sees fun seen response met => ?_).seq fun asked after held => ?_
  next => exact ⟨by simp [Notes.see, met.1], met.2⟩
  refine (collector_reads (fun _ same => by cases same) held fun _ _ met => by exact met).seq fun envs later held => ?_
  refine Prog.Meets.foldlM (I := fun _ found after => Sees corpus config work (LeasesRead now found) after)
    (fun _ _ _ _ => sees_stable _ _) ?_ held
  exact fun _ name _ _ so_far before met => env_leased_meets name met

/-- What the scan has gathered was condemned, shard by shard, and has not been deleted. -/
def Scanned (config : GcConfig) (now : Int) (leased : Finset ObjectName) (through : List Nat) (scan : Scan)
    (seen : Notes) : Prop :=
  LeasesRead now leased seen ∧ scan.candidates.Nodup ∧
    ∀ name ∈ scan.candidates, name ∈ seen.pending ∧ ∃ shard ∈ through, shard_of name config.shard_bits = .ok shard

/-- The entries a read of the catalogue answers with. -/
def Entries (low high : Wire.Bytes) (entries : List CatalogEntry) : Prop :=
  (entries.map CatalogEntry.name).Nodup ∧ ∀ entry ∈ entries, InRange low high entry.name

theorem catalog_range_entries (low high : Wire.Bytes) (world : World) :
    Entries low high (exec corpus (.catalog_range low high) world).1 := by
  refine ⟨?_, fun entry member => (mem_catalog_range.mp member).2⟩
  have names : (exec corpus (.catalog_range low high) world).1.map CatalogEntry.name =
      (world.catalog.toList.filter fun row => InRange low high row.1).map Prod.fst := by
    simp only [exec, List.map_map]
    rfl
  rw [names]
  refine (Std.ExtTreeMap.nodup_keys (t := world.catalog)).sublist ?_
  rw [← Std.ExtTreeMap.map_fst_toList_eq_keys]
  exact List.filter_sublist.map _

theorem scan_shard_meets {now : Int} {leased : Finset ObjectName} {through : List Nat} {scan : Scan} {shard : Nat}
    (fresh : shard ∉ through)
    (sees : Sees corpus config work (Scanned config now leased through scan) history) :
    (scan_shard config (now - config.grace_us) leased scan shard).Meets (actors corpus config work .collector)
      (collecting corpus config work) (Prog.Meets.Returns fun found after =>
        Sees corpus config work (Scanned config now leased (through ++ [shard]) found) after) history := by
  cases bounds : shard_bounds config.shard_bits shard with
  | error error =>
    simp only [scan_shard, SqliteKeepSetStore.iter_shard, bounds]
    exact fun _ _ => trivial
  | ok range =>
    obtain ⟨low, high⟩ := range
    simp only [scan_shard, SqliteKeepSetStore.iter_shard, SqliteWriteCatalog.iter_shard, bounds]
    refine (collector_ask (Q := fun live seen => Scanned config now leased through scan seen ∧ seen.live = live)
      sees (fun _ _ _ same => by cases same) fun seen world met => by exact ⟨met, rfl⟩).seq fun live after held => ?_
    refine (collector_ask (Q := fun entries seen => Scanned config now leased through scan seen ∧
      Entries low high entries ∧
        ∀ entry ∈ entries, selected (now - config.grace_us) live leased entry → entry.name ∈ seen.pending)
      held (fun _ _ _ same => by cases same) ?_).seq fun entries later found => ?_
    next =>
      rintro seen world ⟨⟨read, once, gathered⟩, spared⟩
      refine ⟨⟨read, once, fun name member => ?_⟩, catalog_range_entries low high world, ?_⟩
      next => exact ⟨Finset.mem_union_left _ (gathered name member).1, (gathered name member).2⟩
      next =>
        intro entry member chosen
        obtain ⟨unkept, unleased, old⟩ := of_decide_eq_true chosen
        refine Finset.mem_union_right _ (mem_condemned.mpr ⟨now, read.1, entry, member, rfl, ?_, ?_, old⟩)
        next => rwa [spared]
        next => exact fun leasedRead => unleased (read.2 leasedRead)
    next =>
      obtain ⟨apart, ⟨read, once, gathered⟩, ⟨names, inside⟩, condemned⟩ := found
      refine fun final passes => sees_stable _ _ passes ⟨apart, read, ?_, ?_⟩
      next =>
        rw [scan_entries, List.nodup_append]
        refine ⟨once, names.sublist (List.filter_sublist.map _), ?_⟩
        rintro name before other now rfl
        obtain ⟨entry, member, rfl⟩ := List.mem_map.mp now
        obtain ⟨_, earlier, there⟩ := (gathered _ before).2
        have here := ((inRange_iff bounds _).mp (inside entry (List.mem_filter.mp member).1)).1
        exact fresh (Except.ok.inj (here.symm.trans there) ▸ earlier)
      next =>
        intro name member
        rw [scan_entries] at member
        rcases List.mem_append.mp member with before | now
        next =>
          obtain ⟨pending, shard', earlier, there⟩ := gathered name before
          exact ⟨pending, shard', List.mem_append_left _ earlier, there⟩
        next =>
          obtain ⟨entry, among, rfl⟩ := List.mem_map.mp now
          obtain ⟨listed, chosen⟩ := List.mem_filter.mp among
          refine ⟨condemned entry listed chosen, shard, by simp, ?_⟩
          exact ((inRange_iff bounds _).mp (inside entry listed)).1

/-- Every candidate left to delete is condemned, and listed once. -/
def Condemned (remaining : List ObjectName) (seen : Notes) : Prop :=
  remaining.Nodup ∧ ∀ name ∈ remaining, name ∈ seen.pending

theorem plan_meets (apart : Apart corpus config work history)
    (starting : (notes config history).collected = .none) :
    (GarbageCollector.plan config).Meets (actors corpus config work .collector) (collecting corpus config work)
      (Prog.Meets.Returns fun plan after => Sees corpus config work (Condemned plan.candidates) after) history := by
  refine (collector_ask (F := fun seen => seen = .none) (Q := fun now => LeasesRead now ∅) ⟨apart, starting⟩
    (fun _ _ _ same => by cases same) ?_).seq fun now after held => ?_
  next =>
    rintro seen world rfl
    exact ⟨rfl, Finset.empty_subset _⟩
  refine (collector_reads (fun _ same => by cases same) held fun _ _ met => by exact met).seq fun total later held => ?_
  obtain ⟨corpus_objects, corpus_bytes⟩ := total
  refine (leased_meets held).seq fun leased third held => ?_
  refine (Prog.Meets.foldlM (I := fun through scan after =>
    Sees corpus config work (Scanned config now leased through scan) after) (fun _ _ _ _ => sees_stable _ _) ?_ ?_).seq
    fun scan fourth held => ?_
  next =>
    intro through shard rest split so_far before met
    refine scan_shard_meets (fun earlier => ?_) met
    have once := List.nodup_range (n := 1 <<< config.shard_bits)
    rw [split, List.nodup_append] at once
    exact once.2.2 shard earlier shard List.mem_cons_self rfl
  next => exact ⟨held.1, held.2, List.nodup_nil, fun name member => nomatch member⟩
  next =>
    refine fun final passes => sees_stable _ _ passes ⟨held.1, ?_⟩
    rw [apply_circuit_breaker_candidates]
    exact ⟨held.2.2.1, fun name member => (held.2.2.2 name member).1⟩

theorem run_meets (apart : Apart corpus config work history)
    (starting : (notes config history).collected = .none) :
    (GarbageCollector.run config true).Meets (actors corpus config work .collector) (collecting corpus config work)
      (fun _ _ => True) history := by
  suffices returns : (GarbageCollector.run config true).Meets (actors corpus config work .collector)
      (collecting corpus config work) (Prog.Meets.Returns fun _ _ => True) history from returns.mono fun _ _ _ => trivial
  refine (plan_meets apart starting).seq fun plan after held => ?_
  dsimp only
  split
  next => exact fun _ _ => trivial
  refine (collector_reads (fun _ same => by cases same) held fun _ _ met => by exact met).seq fun now later held => ?_
  refine (Prog.Meets.mapM (I := fun _ after => Sees corpus config work (Condemned plan.candidates) after)
    (fun _ _ _ => sees_stable _ _) ?_ held).seq fun recorded third held => ?_
  next =>
    intro through name rest split before met
    exact collector_reads (fun _ same => by cases same) met fun _ _ met => by exact met
  refine Prog.Meets.seq (Q := fun _ _ => True) ?_ fun _ _ _ _ _ => trivial
  -- Each candidate is deleted once, so the others stay condemned until their turn.
  refine (Prog.Meets.mapM (I := fun through after =>
    Sees corpus config work (Condemned (plan.candidates.drop through.length)) after) (fun _ _ _ => sees_stable _ _) ?_
    held).seq fun removed fourth held => ?_
  next =>
    intro through name rest split before met
    have left : plan.candidates.drop through.length = name :: rest := by rw [split, List.drop_left]
    have next : plan.candidates.drop (through ++ [name]).length = rest := by
      rw [split, List.append_cons through name rest, List.drop_left]
    rw [left] at met
    rw [next]
    refine collector_ask met ?_ ?_
    next =>
      rintro seen condemned _ ⟨⟩
      exact condemned.2 name List.mem_cons_self
    next =>
      rintro seen world ⟨once, pending⟩
      obtain ⟨fresh, once⟩ := List.nodup_cons.mp once
      refine ⟨once, fun other member => Finset.mem_erase.mpr ⟨?_, pending other (List.mem_cons_of_mem _ member)⟩⟩
      rintro rfl
      exact fresh member
  refine (Prog.Meets.mapM (I := fun _ after => Sees corpus config work (fun _ => True) after)
    (fun _ _ _ => sees_stable _ _) ?_ ⟨held.1, trivial⟩).seq fun _ _ _ _ _ => trivial
  intro through name rest split before met
  exact collector_reads (fun _ same => by cases same) met fun _ _ _ => trivial

end Collector

/-! ## Together -/

section Together

variable (corpus : Corpus) (config : GcConfig) (publication : Publication) (work : Work)

/-- Both at their first step. -/
def launch (world : World) : Pool Party Cmd Cmd.Response PyError Party.Result History :=
  ⟨⟨world, []⟩, Party.code corpus config publication work⟩

def contracts : Party → Contract History
  | .publisher => publishing corpus config work
  | .collector => collecting corpus config work

def posts : (party : Party) → Except PyError party.Result → History → Prop
  | .publisher => Prog.Meets.Returns (Published corpus config work)
  | .collector => fun _ _ => True

theorem ticks_pass (party : Party) (before after : History) (ticks : Ticks before after) :
    (contracts corpus config work party).rely before after := by
  obtain ⟨clock, -, rfl⟩ := ticks
  cases party with
  | publisher => exact ⟨id, ⟨rfl, rfl⟩, fun _ _ _ stored => stored⟩
  | collector => exact ⟨id, rfl, rfl, rfl, rfl⟩

theorem launch_meets (world : World) :
    (launch corpus config publication work world).Meets (actors corpus config work) (contracts corpus config work)
      (posts corpus config work) := by
  have apart : Apart corpus config work ⟨world, []⟩ := fun name pending => absurd pending (Finset.notMem_empty _)
  intro party
  cases party with
  | publisher => exact publish_meets publication apart rfl
  | collector => exact run_meets apart rfl

end Together

/-- From its success on, all that a published commit reaches is stored, in any order of the steps in which the
publisher and the collector keep out of each other's way. -/
theorem publish_keeps_content (corpus : Corpus) (config : GcConfig) (publication : Publication) (work : Work)
    (world : World) {after : Pool Party Cmd Cmd.Response PyError Party.Result History}
    (run : Pool.Run (actors corpus config work) Ticks (launch corpus config publication work world) after)
    {result : CommitResult} (published : after.procs .publisher = .done result)
    (fresh : result.replayed = false) :
    ∀ name, Closure corpus result.commit name → name ∈ after.shared.state.backend := by
  have meets := @Pool.run_meets _ _ _ _ _ _ _ _ (contracts corpus config work) _ _ _ _ (fun party other different first second kept => ?_)
    (ticks_pass corpus config work) (launch_meets corpus config publication work world) run
  next =>
    obtain ⟨names, holds, whole⟩ := meets.returned published
    exact fun name below => (holds.2 name (whole fresh name below)).2
  next =>
    cases party <;> cases other
    next => exact absurd rfl different
    next => exact kept
    next => exact kept
    next => exact absurd rfl different

/-! ## An old tree published again -/

def firstCommitName : ObjectName where
  digest :=
    [0x64, 0x85, 0xc5, 0xed, 0xf9, 0x9e, 0x1d, 0x61, 0xf3, 0x5e, 0xa3, 0x8d, 0xe9, 0x31, 0x44, 0xfe, 0x1b,
      0xcf, 0x0f, 0x09, 0xe1, 0x64, 0x60, 0x57, 0x90, 0xdf, 0x9e, 0xec, 0x20, 0xba, 0xfe, 0xbf]
  sized := rfl

/-- A commit of the empty tree, eight days into the clock. -/
def firstCommitFramed : Bytes :=
  [4, 1] ++ emptyTreeName.digest ++ [0, 0] ++ List.replicate 16 0xaa ++ [1, 0x61, 1, 0x61] ++
    [0, 0, 0, 160, 238, 187, 0, 0] ++ [0, 0, 0, 0] ++ [0, 0, 0, 0]

/-- The digests are those of BLAKE3. -/
def firstCommitDigests : Blake3 :=
  .ofTable [(emptyTreeFramed, emptyTreeName.digest), (firstCommitFramed, firstCommitName.digest)]

def oneCommit : Corpus := .ofBytes firstCommitDigests [emptyTreeFramed, firstCommitFramed] List.length (by decide)

def firstPublication : Publication where
  env := ⟨"env"⟩
  ref := DEFAULT_REF
  author := "a"
  message := []
  change_id := ⟨List.replicate 32 0x61⟩
  idempotency_key := none
  metadata := []
  drawn_session := ⟨"s"⟩

def firstWork : Work where
  objects _ := [emptyTree]
  tree _ := emptyTreeName

/-- The tree was written eight days ago and nothing refers to it. -/
def abandonedTree : World :=
  let written := (runs oneCommit (put_encoded oneCommit emptyTreeName) (.empty 0)).2
  (runs oneCommit (create_env ⟨"env"⟩ ⟨"o/e"⟩ "" DEFAULT_REF [] none)
    { written with clock := 8 * 86400 * 1000000 }).2

/-- The publisher runs before the collector has taken a step. -/
theorem publish_keeps_content_alone :
    Closure oneCommit firstCommitName firstCommitName ∧ ∀ name, Closure oneCommit firstCommitName name →
      name ∈ (Prog.advance (Traced.exec (exec oneCommit) Party.publisher) 100
        (publish oneCommit firstPublication (firstWork.builder oneCommit)) ⟨abandonedTree, []⟩).2.state.backend := by
  refine ⟨.inl rfl, ?_⟩
  have written (current : Option Ref) (name : ObjectName) : ¬ firstWork.Reuses oneCommit current name := by
    rintro ⟨⟨role, reached⟩, apart⟩
    have single (item : ObjectName × Role) (inTree : InTree oneCommit emptyTreeName item) :
        item = (emptyTreeName, .tree) := by
      induction inTree with
      | refl => rfl
      | tail _ refers ih =>
        have leaf : references oneCommit (emptyTreeName, .tree) = [] := by decide
        rw [Refers, ih, leaf] at refers
        cases refers
    cases single _ reached
    exact apart emptyTree List.mem_cons_self (by decide)
  have run := @Pool.Run.advance _ _ _ _ _ _ (actors oneCommit .default firstWork) Ticks _ .publisher
    (fun history => (notes .default history).pending = ∅) (fun command history quiet => ⟨?_, ?_⟩) 100
    (launch oneCommit .default firstPublication firstWork abandonedTree) rfl
  next =>
    have returned : (Prog.advance (Traced.exec (exec oneCommit) Party.publisher) 100
        (publish oneCommit firstPublication (firstWork.builder oneCommit)) ⟨abandonedTree, []⟩).1.value.any
        (fun result => decide (result.commit = firstCommitName ∧ result.replayed = false)) = true := by
      decide +kernel
    obtain ⟨result, results, facts⟩ := (Option.any_eq_true _ _).mp returned
    obtain ⟨commit, fresh⟩ := of_decide_eq_true facts
    rw [← commit]
    refine publish_keeps_content oneCommit .default firstPublication firstWork abandonedTree run ?_ fresh
    refine Eq.trans ?_ (Prog.value_eq_some.mp results)
    simp only [Function.update_self, actors, launch, Party.code]
  next =>
    cases command with
    | meta_get pk key =>
      cases key with
      | ref name => exact fun _ reused reuses => absurd reuses (written _ reused)
      | _ => trivial
    | backend_exists name => simp [actors, PublisherMay, quiet]
    | _ => trivial
  next => exact (publisher_see _ _ _).2.2.2.trans quiet

/-- The collector plans, the publisher publishes, the collector deletes. -/
def raced : Act GcReport × Act CommitResult × History :=
  let (sweep, planned) := Prog.advance (Traced.exec (exec oneCommit) Party.collector) 38
    (GarbageCollector.run .default true) ⟨abandonedTree, []⟩
  let (result, published) := Prog.advance (Traced.exec (exec oneCommit) Party.publisher) 100
    (publish oneCommit firstPublication (firstWork.builder oneCommit)) planned
  let (report, swept) := Prog.advance (Traced.exec (exec oneCommit) Party.collector) 100 sweep published
  (report, result, swept)

/-- The parties, taking their steps whatever they rely on. -/
def unrestricted (corpus : Corpus) (party : Party) : Actor Cmd Cmd.Response History :=
  ⟨Traced.exec (exec corpus) party, fun _ _ => True⟩

/-- The collector, then the publisher, then the collector again. -/
theorem turns (corpus : Corpus) (pool : Pool Party Cmd Cmd.Response PyError Party.Result History)
    (first second third : Nat) :
    let planned := Prog.advance (Traced.exec (exec corpus) .collector) first (pool.procs .collector) pool.shared
    let published := Prog.advance (Traced.exec (exec corpus) .publisher) second (pool.procs .publisher) planned.2
    let swept := Prog.advance (Traced.exec (exec corpus) .collector) third planned.1 published.2
    ∃ after, Pool.Run (unrestricted corpus) Ticks pool after ∧ after.procs .publisher = published.1 ∧
      after.procs .collector = swept.1 ∧ after.shared = swept.2 := by
  have alone (party : Party) := @Pool.Run.advance Party Cmd Cmd.Response PyError Party.Result History
    (unrestricted corpus) Ticks _ party (fun _ => True) fun _ _ _ => ⟨trivial, trivial⟩
  refine ⟨_, ((alone .collector first pool trivial).trans (alone .publisher second _ trivial)).trans
    (alone .collector third _ trivial), ?_, ?_, ?_⟩
  all_goals simp [unrestricted]

theorem published_tree_deleted :
    ∃ after result report, Pool.Run (unrestricted oneCommit) Ticks
        (launch oneCommit .default firstPublication firstWork abandonedTree) after ∧
      after.procs .publisher = .done result ∧ result.replayed = false ∧ after.procs .collector = .done report ∧
        ¬ ∀ name, Closure oneCommit result.commit name → name ∈ after.shared.state.backend := by
  obtain ⟨after, run, published, collected, shared⟩ :=
    turns oneCommit (launch oneCommit .default firstPublication firstWork abandonedTree) 38 100 100
  have content : oneCommit.content firstCommitName =
      some (.commit (firstPublication.commit_object none emptyTreeName (8 * 86400 * 1000000))) := by
    decide +kernel
  have finished : raced.1.value.isSome = true := by decide
  have returned : raced.2.1.value.any (fun result =>
      decide (result.commit = firstCommitName ∧ result.replayed = false)) = true := by decide +kernel
  have gone : emptyTreeName ∉ raced.2.2.state.backend := by decide +kernel
  obtain ⟨report, reports⟩ := Option.isSome_iff_exists.mp finished
  obtain ⟨result, results, facts⟩ := (Option.any_eq_true _ _).mp returned
  obtain ⟨commit, fresh⟩ := of_decide_eq_true facts
  refine ⟨after, result, report, run, published.trans (Prog.value_eq_some.mp results), fresh,
    collected.trans (Prog.value_eq_some.mp reports), fun whole => gone ?_⟩
  have kept := whole emptyTreeName (commit ▸ .inr ⟨_, content, .tree, .refl⟩)
  rwa [shared] at kept

end LedgerVcs
