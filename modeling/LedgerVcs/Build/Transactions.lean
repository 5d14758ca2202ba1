import LedgerVcs.Build.Queue
import LedgerVcs.Meta.Transactions

set_option autoImplicit false

/-! What a transaction that goes through does to an environment's build items. -/

namespace LedgerVcs

namespace Board

variable {board after : Board}

section Require

variable {β : Type} {existing : Option (Item β)} {key : BoardKey}

@[simp] theorem require_none : Board.require none existing key = .ok () := rfl

@[simp] theorem require_absent : Board.require (some .absent) existing key = .ok () ↔ existing = none := by
  simp [Board.require]

@[simp] theorem require_version {expected : Nat} :
    Board.require (some (.version_is expected)) existing key = .ok () ↔ existing.map Item.version = some expected := by
  simp only [Board.require, ensure_ok]

end Require

theorem transact_nil : board.transact_write [] = .ok after ↔ after = board := by
  simp [transact_write, pure, Except.pure, eq_comm]

theorem transact_cons {write : BoardWrite} {writes : List BoardWrite} :
    board.transact_write (write :: writes) = .ok after ↔
      ∃ middle, apply board write = .ok middle ∧ middle.transact_write writes = .ok after := by
  rw [transact_write, List.foldlM_cons, Monads.except_bind_ok]
  rfl

theorem transact_one {write : BoardWrite} : board.transact_write [write] = .ok after ↔ apply board write = .ok after := by
  rw [transact_cons]
  constructor
  next =>
    rintro ⟨middle, applied, rest⟩
    rwa [transact_nil.mp rest]
  next => exact fun applied => ⟨after, applied, transact_nil.mpr rfl⟩

theorem apply_put {key : BoardKey} {body : key.Body} {condition : Option Condition} {expires_at_us : Option Int} :
    apply board (.put key body condition expires_at_us) = .ok after ↔
      Board.require condition (board.get key) key = .ok () ∧
        after = board.put key ⟨body, next_version (board.get key), none, expires_at_us⟩ := by
  simp only [apply, Monads.except_bind_ok, pure, Except.pure, Except.ok.injEq]
  constructor
  next => rintro ⟨_, required, rfl⟩; exact ⟨required, by cases board.get key <;> rfl⟩
  next => rintro ⟨required, rfl⟩; exact ⟨⟨⟩, required, by cases board.get key <;> rfl⟩

theorem apply_delete {key : BoardKey} {condition : Option Condition} :
    apply board (.delete key condition) = .ok after ↔
      Board.require condition (board.get key) key = .ok () ∧ after = board.delete key := by
  simp only [apply, Monads.except_bind_ok, pure, Except.pure, Except.ok.injEq]
  constructor
  next => rintro ⟨_, required, rfl⟩; exact ⟨required, rfl⟩
  next => rintro ⟨required, rfl⟩; exact ⟨⟨⟩, required, rfl⟩

end Board

/-! ## Commands and boards -/

section Exec

variable {site : Site} {world : BuildWorld}

theorem exec_boards {command : BuildCmd} (other : ∀ pk writes, command ≠ .board_write pk writes) :
    (site.exec command world).2.boards = world.boards := by
  cases command with
  | board_write pk writes => exact absurd rfl (other pk writes)
  | base command =>
    cases command with
    | transact_write pk writes =>
      simp only [Site.exec]
      split <;> rfl
    | _ => rfl
  | _ => rfl

theorem exec_board {pk : EnvId} {writes : List BoardWrite} {board : Board}
    (applied : (world.board pk).transact_write writes = .ok board) :
    site.exec (.board_write pk writes) world = (.ok (), world.with_board pk board) := by
  simp only [Site.exec, applied]

theorem exec_board_error {pk : EnvId} {writes : List BoardWrite} {error : PyError}
    (applied : (world.board pk).transact_write writes = .error error) :
    site.exec (.board_write pk writes) world = (.error error, world) := by
  simp only [Site.exec, applied]

end Exec

/-! ## The transactions of the queue -/

/-- The version at which the writes claim a lease. -/
def granted_version : List BoardWrite → Option Nat
  | [.put .build_lease _ (some .absent) _] => some 1
  | [.put .build_lease _ (some (.version_is version)) _] => some (version + 1)
  | _ => none

/-- The version of the lease that the writes give back. -/
def given_back (writes : List BoardWrite) : Option Nat :=
  writes.findSome? fun
    | .delete .build_lease (some (.version_is version)) => some version
    | _ => none

def PutsLease : BoardWrite → Prop
  | .put .build_lease _ _ _ => True
  | _ => False

variable {board after : Board} {writes : List BoardWrite}

theorem granted_shape {version : Nat} (claims : granted_version writes = some version) :
    ∃ body condition expires_at_us, writes = [.put .build_lease body (some condition) expires_at_us] ∧
      (condition = .absent ∧ version = 1 ∨ ∃ held, condition = .version_is held ∧ version = held + 1) := by
  unfold granted_version at claims
  split at claims
  next body expires_at_us => exact ⟨body, _, expires_at_us, rfl, .inl ⟨rfl, (Option.some.inj claims).symm⟩⟩
  next body held expires_at_us => exact ⟨body, _, expires_at_us, rfl, .inr ⟨held, rfl, (Option.some.inj claims).symm⟩⟩
  next => cases claims

/-- A claim that goes through finds no lease, or the one it takes over, and leaves the queue alone. -/
theorem transact_claim {version : Nat} (claims : granted_version writes = some version)
    (applied : board.transact_write writes = .ok after) :
    after.queue = board.queue ∧ after.lease.map Item.version = some version := by
  obtain ⟨body, condition, expires_at_us, rfl, kinds⟩ := granted_shape claims
  obtain ⟨required, rfl⟩ := Board.apply_put.mp (Board.transact_one.mp applied)
  refine ⟨rfl, ?_⟩
  rcases kinds with ⟨rfl, rfl⟩ | ⟨held, rfl, rfl⟩
  next =>
    rw [Board.require_absent.mp required]
    rfl
  next =>
    obtain ⟨item, found, same⟩ := Option.map_eq_some_iff.mp (Board.require_version.mp required)
    rw [found, ← same]
    rfl

theorem transact_lease (none_put : ∀ write ∈ writes, ¬ PutsLease write)
    (applied : board.transact_write writes = .ok after) :
    (after.lease = board.lease ∨ after.lease = none) ∧
      ∀ version, given_back writes = some version → board.lease.map Item.version = some version ∧ after.lease = none := by
  induction writes generalizing board with
  | nil =>
    obtain rfl := Board.transact_nil.mp applied
    exact ⟨.inl rfl, fun _ impossible => by cases impossible⟩
  | cons write writes ih =>
    obtain ⟨first, others⟩ := List.forall_mem_cons.mp none_put
    obtain ⟨middle, now, rest⟩ := Board.transact_cons.mp applied
    obtain ⟨stays, gives⟩ := ih others rest
    have through (same : middle.lease = board.lease)
        (silent : given_back (write :: writes) = given_back writes) :
        (after.lease = board.lease ∨ after.lease = none) ∧ ∀ version, given_back (write :: writes) = some version →
          board.lease.map Item.version = some version ∧ after.lease = none := by
      rw [← same, silent]
      exact ⟨stays, gives⟩
    cases write with
    | put key body condition expires_at_us =>
      obtain ⟨-, rfl⟩ := Board.apply_put.mp now
      cases key with
      | build_lease => exact absurd trivial first
      | build_queue | note => exact through rfl rfl
    | delete key condition =>
      obtain ⟨required, rfl⟩ := Board.apply_delete.mp now
      cases key with
      | build_queue | note => exact through rfl rfl
      | build_lease =>
        have gone : after.lease = none := by
          rcases stays with same | gone
          next => exact same
          next => exact gone
        refine ⟨.inr gone, fun version states => ⟨?_, gone⟩⟩
        -- The first to state a version finds it; after that there is no lease to state one of.
        have late (silent : given_back writes = some version) : board.lease.map Item.version = some version := by
          cases (gives version silent).1
        match condition, required, states with
        | some (.version_is held), required, states =>
          obtain rfl := Option.some.inj states
          exact Board.require_version.mp required
        | none, _, states => exact late states
        | some .absent, _, states => exact late states
        | some (.generation_is _), _, states => exact late states

end LedgerVcs
