import LedgerVcs.Meta.Effects

set_option autoImplicit false

/-! What a transaction that goes through does to its partition. -/

namespace LedgerVcs

variable {partition after : Partition}

theorem transact_ok {writes : List WriteOp} {write : WriteOp} :
    partition.transact_write (write :: writes) = .ok after ↔
      ∃ middle, apply partition write = .ok middle ∧ middle.transact_write writes = .ok after := by
  rw [transact_cons, Monads.except_bind_ok]

theorem transact_append {first second : List WriteOp} :
    partition.transact_write (first ++ second) = .ok after ↔
      ∃ middle, partition.transact_write first = .ok middle ∧ middle.transact_write second = .ok after := by
  rw [Partition.transact_write, List.foldlM_append, Monads.except_bind_ok]
  rfl

/-- The version an item gets when it is written again. -/
def next_version {β : Type} : Option (Item β) → Nat
  | some existing => existing.version + 1
  | none => 1

theorem apply_put {key : SortKey} {body : key.Body} {condition : Option Condition} {generation expires_at_us : Option Int} :
    apply partition (.put key body condition generation expires_at_us) = .ok after ↔
      require condition (partition.get key) key = .ok () ∧
        after = partition.put key ⟨body, next_version (partition.get key), generation, expires_at_us⟩ := by
  simp only [apply, Monads.except_bind_ok, pure, Except.pure, Except.ok.injEq]
  constructor
  next => rintro ⟨_, required, rfl⟩; exact ⟨required, by cases partition.get key <;> rfl⟩
  next => rintro ⟨required, rfl⟩; exact ⟨⟨⟩, required, by cases partition.get key <;> rfl⟩

theorem apply_delete {key : SortKey} {condition : Option Condition} :
    apply partition (.delete key condition) = .ok after ↔
      require condition (partition.get key) key = .ok () ∧ after = partition.delete key := by
  simp only [apply, Monads.except_bind_ok, pure, Except.pure, Except.ok.injEq]
  constructor
  next => rintro ⟨_, required, rfl⟩; exact ⟨required, rfl⟩
  next => rintro ⟨required, rfl⟩; exact ⟨⟨⟩, required, rfl⟩

/-! ## Moves -/

/-- The same refs, counter and log, and the same environment and sessions. -/
def SameTables (first second : Partition) : Prop :=
  second.env = first.env ∧ second.refs = first.refs ∧ second.seq = first.seq ∧ second.ops = first.ops ∧
    second.sessions = first.sessions ∧ second.session_pages = first.session_pages

theorem apply_accessory {write : WriteOp} (accessory : Accessory write)
    (applied : apply partition write = .ok after) : SameTables partition after := by
  cases write with
  | emit event =>
    cases applied
    exact ⟨rfl, rfl, rfl, rfl, rfl, rfl⟩
  | delete => cases accessory
  | put key body condition generation expires_at_us =>
    obtain ⟨-, rfl⟩ := apply_put.mp applied
    cases key with
    | change | idem => exact ⟨rfl, rfl, rfl, rfl, rfl, rfl⟩
    | _ => cases accessory

theorem transact_accessories {writes : List WriteOp} (accessories : ∀ write ∈ writes, Accessory write)
    (applied : partition.transact_write writes = .ok after) : SameTables partition after := by
  induction writes generalizing partition with
  | nil =>
    cases applied
    exact ⟨rfl, rfl, rfl, rfl, rfl, rfl⟩
  | cons write writes ih =>
    obtain ⟨middle, first, rest⟩ := transact_ok.mp applied
    obtain ⟨env, refs, seq, ops, sessions, pages⟩ := apply_accessory (accessories write List.mem_cons_self) first
    obtain ⟨env', refs', seq', ops', sessions', pages'⟩ :=
      ih (fun write member => accessories write (List.mem_cons_of_mem _ member)) rest
    exact ⟨env'.trans env, refs'.trans refs, seq'.trans seq, ops'.trans ops, sessions'.trans sessions,
      pages'.trans pages⟩

/-- The refs after a move. -/
def Move.refs (move : Move) (partition : Partition) : Std.ExtTreeMap RefName (Item Ref) :=
  match move.placed with
  | some ref => partition.refs.insert move.name
      ⟨ref, next_version partition.refs[move.name]?, some ref.generation, ref.expires_at_us⟩
  | none => partition.refs.erase move.name

theorem transact_move {move : Move} {writes : List WriteOp} (carries : Carries move writes)
    (applied : partition.transact_write writes = .ok after) :
    require (some move.condition) partition.refs[move.name]? (.ref move.name) = .ok () ∧
      partition.seq.map Item.version = some move.version ∧ partition.ops[move.sequence]? = none ∧
      after.refs = move.refs partition ∧ after.seq = some ⟨move.sequence + 1, move.version + 1, none, none⟩ ∧
      after.ops = partition.ops.insert move.sequence ⟨move.entry, 1, none, none⟩ ∧ after.env = partition.env ∧
      after.sessions = partition.sessions ∧ after.session_pages = partition.session_pages := by
  obtain ⟨sequence, -, -, accessories, fit, rfl⟩ := carries
  obtain ⟨moved, first, applied⟩ := transact_ok.mp applied
  obtain ⟨counted, second, applied⟩ := transact_ok.mp applied
  obtain ⟨logged, third, applied⟩ := transact_ok.mp applied
  obtain ⟨env, refs, seq, ops, sessions, pages⟩ := transact_accessories fit applied
  rw [op_write] at third
  obtain ⟨version, rfl⟩ := apply_put.mp second
  obtain ⟨absent, rfl⟩ := apply_put.mp third
  have start : require (some move.condition) partition.refs[move.name]? (.ref move.name) = .ok () ∧
      moved = { partition with refs := move.refs partition } := by
    rw [Move.write] at first
    cases placed : move.placed with
    | some ref =>
      rw [placed] at first
      obtain ⟨required, rfl⟩ := apply_put.mp first
      exact ⟨required, by simp [Move.refs, placed, Partition.put, Partition.get]⟩
    | none =>
      rw [placed] at first
      obtain ⟨required, rfl⟩ := apply_delete.mp first
      exact ⟨required, by simp [Move.refs, placed, Partition.delete]⟩
  obtain ⟨required, rfl⟩ := start
  have version : partition.seq.map Item.version = some move.version := require_version.mp version
  have absent : partition.ops[move.entry.sequence]? = none := require_absent.mp absent
  rw [sequence] at absent
  refine ⟨required, version, absent, refs, seq.trans ?_, ops.trans ?_, env, sessions, pages⟩
  next =>
    obtain ⟨item, found, same⟩ := Option.map_eq_some_iff.mp version
    simp [Partition.put, Partition.get, found, next_version, same]
  next => simp [Partition.put, Partition.get, absent, next_version, sequence]

/-! ## Sessions -/

/-- Only sessions and their pages differ. -/
def SameRefs (first second : Partition) : Prop :=
  second.env = first.env ∧ second.refs = first.refs ∧ second.changes = first.changes ∧ second.ops = first.ops ∧
    second.seq = first.seq ∧ second.idems = first.idems ∧ second.outbox = first.outbox

theorem transact_session {writes : List WriteOp} (fit : ∀ write ∈ writes, SessionWrite write)
    (applied : partition.transact_write writes = .ok after) : SameRefs partition after := by
  induction writes generalizing partition with
  | nil =>
    cases applied
    exact ⟨rfl, rfl, rfl, rfl, rfl, rfl, rfl⟩
  | cons write writes ih =>
    obtain ⟨middle, first, rest⟩ := transact_ok.mp applied
    have later := ih (fun write member => fit write (List.mem_cons_of_mem _ member)) rest
    have now : SameRefs partition middle := by
      have session := fit write List.mem_cons_self
      cases write with
      | emit => cases session
      | put key body condition generation expires_at_us =>
        obtain ⟨-, rfl⟩ := apply_put.mp first
        cases key with
        | session | session_page => exact ⟨rfl, rfl, rfl, rfl, rfl, rfl, rfl⟩
        | _ => cases session
      | delete key condition =>
        obtain ⟨-, rfl⟩ := apply_delete.mp first
        cases key with
        | session | session_page => exact ⟨rfl, rfl, rfl, rfl, rfl, rfl, rfl⟩
        | _ => cases session
    exact ⟨later.1.trans now.1, later.2.1.trans now.2.1, later.2.2.1.trans now.2.2.1,
      later.2.2.2.1.trans now.2.2.2.1, later.2.2.2.2.1.trans now.2.2.2.2.1,
      later.2.2.2.2.2.1.trans now.2.2.2.2.2.1, later.2.2.2.2.2.2.trans now.2.2.2.2.2.2⟩

end LedgerVcs
