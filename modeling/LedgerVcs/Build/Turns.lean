import LedgerVcs.Build.Claims
import LedgerVcs.Build.Finding

set_option autoImplicit false

/-! One turn of a worker, while others may take its lease over. -/

namespace LedgerVcs

open Prog (Actor Pool Exchange Traced)

namespace BuildWorker

abbrev Told : Type := List (Exchange BuildCmd BuildCmd.Response)

def Conflicts (error : PyError) : Prop := ∃ text sk, error = .conflict text sk

/-! ## What a worker is told -/

/-- Neither a claim that is granted nor a failure. -/
def Smooth : Exchange BuildCmd BuildCmd.Response → Bool
  | ⟨.claim_build _ _, created⟩ => !created
  | ⟨.read_build _, existing⟩ => existing.isSome
  | ⟨.put_build _ _, _⟩ => false
  | ⟨.base (.meta_get _ .env), item⟩ => item.isSome
  | ⟨.platform_sync _ _, outcome⟩ => outcome.isOk
  | _ => true

def AllSmooth (told : Told) : Prop := ∀ exchange ∈ told, Smooth exchange = true

instance (told : Told) : Decidable (AllSmooth told) := inferInstanceAs (Decidable (∀ exchange ∈ told, _))

/-- A running build in the worker's name. -/
def ClaimedBy (name : String) (result : BuildResult) : Prop := result.status = .running ∧ result.worker = name

instance (name : String) (result : BuildResult) : Decidable (ClaimedBy name result) :=
  inferInstanceAs (Decidable (_ ∧ _))

/-- As far as the worker knows, the record of the commit is a claim of its own. -/
def Claiming (name : String) (commit : ObjectName) : Told → Prop
  | [] => False
  | ⟨.claim_build claimed _, created⟩ :: before => created = true ∧ claimed = commit ∨ Claiming name commit before
  | ⟨.read_build read, existing⟩ :: before =>
      (read = commit → ∃ result, existing = some result ∧ ClaimedBy name result) ∧ Claiming name commit before
  | ⟨.put_build recorded result, _⟩ :: before =>
      if recorded = commit then result.status.terminal = false else Claiming name commit before
  | ⟨.delete_build deleted, _⟩ :: before => deleted ≠ commit ∧ Claiming name commit before
  | _ :: before => Claiming name commit before

def is_queue_write : BoardWrite → Bool
  | .put (.build_queue _) _ _ _ => true
  | .delete (.build_queue _) _ => true
  | _ => false

/-- A transaction that finishes with a lease was refused while the worker was building or failing. -/
def Refused : Told → Prop
  | [] => False
  | ⟨.board_write _ writes, outcome⟩ :: before =>
      (given_back writes ≠ none ∧ outcome ≠ .ok () ∧ ¬ AllSmooth before) ∨ Refused before
  | _ :: before => Refused before

/-! ## The turn -/

/-- A write of an entry or a note, under no condition. -/
def is_free : BoardWrite → Bool
  | .put (.build_queue _) _ none _ | .put (.note _) _ none _ | .delete (.build_queue _) none => true
  | _ => false

/-- The transaction gives a lease of the version back, and makes no other condition. -/
def Finishing (version : Nat) (writes : List BoardWrite) : Prop :=
  ∃ before after, writes = before ++ .delete .build_lease (some (.version_is version)) :: after ∧
    ∀ write ∈ before ++ after, is_free write = true

/-- Whoever changes the queue gives a lease back with it. -/
def Finishes (_ : Told) : BuildCmd → Prop
  | .board_write _ writes =>
      (given_back writes = none ∧ ∀ write ∈ writes, is_queue_write write = false) ∨ ∃ version, Finishing version writes
  | _ => True

/-- The store refuses by a conflict, and the platform never does. -/
def Answered : (command : BuildCmd) → command.Response → Prop
  | .board_write _ _, outcome => ∀ error, outcome = .error error → Conflicts error
  | .platform_sync _ _, outcome => ∀ error, outcome = .error error → ¬ Conflicts error
  | _, _ => True

section Finishing

variable {board after : Board} {write : BoardWrite} {writes : List BoardWrite} {version : Nat}

theorem free_gives_nothing (free : is_free write = true) : given_back [write] = none ∧ ¬ PutsLease write := by
  unfold is_free at free
  split at free
  next => exact ⟨rfl, id⟩
  next => exact ⟨rfl, id⟩
  next => exact ⟨rfl, id⟩
  next => cases free

theorem free_applies (free : is_free write = true) (board : Board) :
    ∃ after, Board.apply board write = .ok after ∧ after.lease = board.lease := by
  unfold is_free at free
  split at free
  next => exact ⟨_, Board.apply_put.mpr ⟨rfl, rfl⟩, rfl⟩
  next => exact ⟨_, Board.apply_put.mpr ⟨rfl, rfl⟩, rfl⟩
  next => exact ⟨_, Board.apply_delete.mpr ⟨rfl, rfl⟩, rfl⟩
  next => cases free

theorem free_transacts (free : ∀ write ∈ writes, is_free write = true) (board : Board) :
    ∃ after, board.transact_write writes = .ok after ∧ after.lease = board.lease := by
  induction writes generalizing board with
  | nil => exact ⟨board, Board.transact_nil.mpr rfl, rfl⟩
  | cons write writes ih =>
    obtain ⟨first, others⟩ := List.forall_mem_cons.mp free
    obtain ⟨middle, applied, same⟩ := free_applies first board
    obtain ⟨after, rest, still⟩ := ih others middle
    exact ⟨after, Board.transact_cons.mpr ⟨middle, applied, rest⟩, still.trans same⟩

theorem Finishing.given_back (finishing : Finishing version writes) : given_back writes = some version := by
  obtain ⟨before, after, rfl, free⟩ := finishing
  have none_before : LedgerVcs.given_back before = none := by
    rw [LedgerVcs.given_back, List.findSome?_eq_none_iff]
    intro write member
    have silent := (free_gives_nothing (free write (List.mem_append_left _ member))).1
    simpa [LedgerVcs.given_back] using silent
  rw [LedgerVcs.given_back] at none_before ⊢
  rw [List.findSome?_append, none_before]
  rfl

/-- The transaction goes through exactly when the lease has the version. -/
theorem Finishing.transacts (finishing : Finishing version writes) (board : Board) :
    (∃ after, board.transact_write writes = .ok after) ↔ board.lease.map Item.version = some version := by
  constructor
  next =>
    rintro ⟨after, applied⟩
    refine ((transact_lease (fun write member => ?_) applied).2 version finishing.given_back).1
    obtain ⟨earlier, later, rfl, free⟩ := finishing
    rcases List.mem_append.mp member with before | here
    next => exact (free_gives_nothing (free write (List.mem_append_left _ before))).2
    next =>
      rcases List.mem_cons.mp here with rfl | behind
      next => exact id
      next => exact (free_gives_nothing (free write (List.mem_append_right _ behind))).2
  next =>
    intro held
    obtain ⟨earlier, later, rfl, free⟩ := finishing
    obtain ⟨middle, first, same⟩ := free_transacts (fun write member => free write (List.mem_append_left _ member)) board
    obtain ⟨after, last, -⟩ := free_transacts (fun write member => free write (List.mem_append_right _ member))
      (middle.delete .build_lease)
    refine ⟨after, ?_⟩
    rw [Board.transact_write, List.foldlM_append]
    refine Monads.except_bind_ok.mpr ⟨middle, first, ?_⟩
    refine Board.transact_cons.mpr ⟨middle.delete .build_lease, Board.apply_delete.mpr ⟨?_, rfl⟩, last⟩
    exact Board.require_version.mpr (by rw [← held, ← same]; rfl)

end Finishing

/-- The worker has been told of no claim and no failure. -/
structure Fresh (name : String) (told : Told) : Prop where
  smooth : AllSmooth told
  unclaimed : ∀ commit, ¬ Claiming name commit told

/-- At most one claim is the worker's. -/
def OnlyClaims (name : String) (commit : ObjectName) (told : Told) : Prop :=
  ∀ other, other ≠ commit → ¬ Claiming name other told

section Turn

variable {name : String} {told : Told}

/-- Commands whose answers are of no concern. -/
def Plain : BuildCmd → Prop
  | .base .now_us | .board_get _ _ | .scan_queue _ _ | .board_write _ _ => True
  | _ => False

theorem plain_smooth {command : BuildCmd} {response : command.Response} (plain : Plain command) :
    Smooth ⟨command, response⟩ = true := by
  cases command with
  | base command => cases command <;> first | rfl | exact absurd plain id
  | board_get | scan_queue | board_write => rfl
  | _ => exact absurd plain id

theorem plain_claiming {command : BuildCmd} {response : command.Response} (plain : Plain command) (commit : ObjectName) :
    Claiming name commit (⟨command, response⟩ :: told) ↔ Claiming name commit told := by
  cases command with
  | base command => cases command <;> exact Iff.rfl
  | board_get | scan_queue | board_write => exact Iff.rfl
  | _ => exact absurd plain id

theorem Fresh.plain {command : BuildCmd} {response : command.Response} (fresh : Fresh name told) (plain : Plain command) :
    Fresh name (⟨command, response⟩ :: told) :=
  ⟨List.forall_mem_cons.mpr ⟨plain_smooth plain, fresh.smooth⟩,
    fun commit claims => fresh.unclaimed commit ((plain_claiming plain commit).mp claims)⟩

/-! ### The lease -/

theorem put_lease_recalls (queue : BuildQueue) (partition : EnvId) (worker : String) (now : Int) (condition : Condition)
    (version : Nat) (fresh : Fresh name told) :
    (queue.put_lease partition worker now condition version).Recalls Finishes Answered
      (fun outcome later => (∃ claimed, outcome = .ok claimed) ∧ Fresh name later) told := by
  refine .asking (.inl ⟨rfl, fun write member => ?_⟩) fun outcome answered => ?_
  next =>
    rw [List.mem_singleton.mp member]
    rfl
  next =>
    have later : Fresh name (⟨.board_write partition
        [.put .build_lease ⟨worker, now + queue.lease_us⟩ (some condition) (some (now + queue.lease_us))], outcome⟩ :: told) :=
      fresh.plain trivial
    rcases outcome with error | ⟨⟩
    next =>
      obtain ⟨text, sk, rfl⟩ := answered error rfl
      exact ⟨⟨_, rfl⟩, later⟩
    next => exact ⟨⟨_, rfl⟩, later⟩

theorem claim_lease_recalls (queue : BuildQueue) (partition : EnvId) (worker : String) (now : Int)
    (fresh : Fresh name told) :
    (queue.claim partition worker now).Recalls Finishes Answered
      (fun outcome later => (∃ claimed, outcome = .ok claimed) ∧ Fresh name later) told := by
  refine .asking trivial fun current _ => ?_
  cases current with
  | none => exact put_lease_recalls queue partition worker now .absent 1 (fresh.plain trivial)
  | some current =>
    dsimp only
    split
    next => exact ⟨⟨_, rfl⟩, fresh.plain trivial⟩
    next => exact put_lease_recalls queue partition worker now _ _ (fresh.plain trivial)

theorem lease_first_recalls (queue : BuildQueue) (worker : String) (now : Int) (entries : List QueueRow)
    (fresh : Fresh name told) :
    (queue.lease_first worker now entries).Recalls Finishes Answered
      (fun outcome later => (∃ lease, outcome = .ok lease) ∧ Fresh name later) told := by
  induction entries generalizing told with
  | nil => exact ⟨⟨_, rfl⟩, fresh⟩
  | cons entry entries ih =>
    refine (claim_lease_recalls queue entry.pk worker now fresh).andThen (fun _ _ failed => ?_) fun claimed later met => ?_
    next => obtain ⟨⟨_, impossible⟩, -⟩ := failed; cases impossible
    next =>
      cases claimed with
      | none => exact ih met.2
      | some version => exact ⟨⟨_, rfl⟩, met.2⟩

theorem scan_kind_recalls (queue : BuildQueue) (limit : Nat) (fresh : Fresh name told) :
    (queue.scan_kind limit).Recalls Finishes Answered
      (fun outcome later => (∃ items, outcome = .ok items) ∧ Fresh name later) told := by
  have shards := @Prog.Recalls.mapM _ _ _ _ Finishes Answered told _ (List.range queue.shard_count)
    (fun shard => send (.scan_queue shard limit)) (fun _ (_ : List (List QueueRow)) later => Fresh name later)
    (fun _ _ => False) (fun _ _ _ _ _ _ still => ⟨trivial, fun _ _ => still.plain trivial⟩) fresh
  refine (shards.mono fun outcome later met => ?_ :
    Prog.Recalls _ _ _ (fun outcome later => (∃ rows, outcome = .ok rows) ∧ Fresh name later) told).andThen
      (fun _ _ failed => ?_) fun items later met => ⟨⟨_, rfl⟩, met.2⟩
  next =>
    cases outcome with
    | ok rows => exact ⟨⟨rows, rfl⟩, met⟩
    | error => exact met.elim
  next => obtain ⟨⟨_, impossible⟩, -⟩ := failed; cases impossible

theorem lease_recalls (queue : BuildQueue) (worker : String) (limit : Nat) (fresh : Fresh name told) :
    (queue.lease worker limit).Recalls Finishes Answered
      (fun outcome later => (∃ lease, outcome = .ok lease) ∧ Fresh name later) told := by
  refine .asking trivial fun now _ => ?_
  have started : Fresh name (⟨.base .now_us, now⟩ :: told) := fresh.plain trivial
  refine (scan_kind_recalls queue limit started).andThen (fun _ _ failed => ?_) fun items later met =>
    lease_first_recalls queue worker now _ met.2
  obtain ⟨⟨_, impossible⟩, -⟩ := failed
  cases impossible

/-! ### The result -/

/-- A claim that is granted is the worker's only one; otherwise it learns of somebody else's result. -/
theorem claim_result_recalls (commit : ObjectName) (fresh : Fresh name told) :
    (BuildResults.claim commit name).Recalls Finishes Answered
      (fun outcome later => ∃ found, outcome = .ok found ∧
        match found with
        | none => ¬ AllSmooth later ∧ OnlyClaims name commit later
        | some _ => Fresh name later) told := by
  have rough {told : Told} {exchange : Exchange BuildCmd BuildCmd.Response} (granted : Smooth exchange = false) :
      ¬ AllSmooth (exchange :: told) := by
    intro all
    rw [all exchange List.mem_cons_self] at granted
    cases granted
  refine .asking trivial fun now _ => ?_
  refine .asking trivial fun created _ => ?_
  have started : Fresh name (⟨.base .now_us, now⟩ :: told) := fresh.plain trivial
  cases created with
  | true =>
    refine ⟨none, rfl, rough rfl, fun other different claims => ?_⟩
    rcases claims with ⟨-, same⟩ | earlier
    next => exact different same.symm
    next => exact started.unclaimed other earlier
  | false =>
    have lost (running : BuildResult) : Fresh name (⟨.claim_build commit running, false⟩ :: ⟨.base .now_us, now⟩ :: told) := by
      refine ⟨List.forall_mem_cons.mpr ⟨rfl, started.smooth⟩, fun other claims => ?_⟩
      rcases claims with ⟨impossible, -⟩ | earlier
      next => cases impossible
      next => exact started.unclaimed other earlier
    refine .asking trivial fun existing _ => ?_
    cases existing with
    | none =>
      exact ⟨none, rfl, rough rfl, fun other _ claims => (lost _).unclaimed other claims.2⟩
    | some existing =>
      have seen (running : BuildResult) : Fresh name (⟨.read_build commit, some existing⟩ ::
          ⟨.claim_build commit running, false⟩ :: ⟨.base .now_us, now⟩ :: told) :=
        ⟨List.forall_mem_cons.mpr ⟨rfl, (lost running).smooth⟩, fun other claims => (lost running).unclaimed other claims.2⟩
      dsimp only
      split_ifs
      next => exact ⟨some existing, rfl, seen _⟩
      next => exact ⟨some existing, rfl, seen _⟩
      next =>
        refine .asking trivial fun _ _ => ⟨none, rfl, rough rfl, fun other different claims => ?_⟩
        rw [Claiming, if_neg (Ne.symm different)] at claims
        exact (seen _).unclaimed other claims

/-- After a release, no claim is the worker's. -/
theorem release_result_recalls {commit : ObjectName} (only : OnlyClaims name commit told) :
    (BuildResults.release commit).Recalls Finishes Answered
      (fun outcome later => outcome = .ok () ∧ ∀ other, ¬ Claiming name other later) told := by
  have settled {later : Told} (others : ∀ other, Claiming name other later → Claiming name other told)
      (here : ¬ Claiming name commit later) (other : ObjectName) : ¬ Claiming name other later := by
    intro claims
    by_cases same : other = commit
    next => exact here (same ▸ claims)
    next => exact only other same (others other claims)
  refine .asking trivial fun existing _ => ?_
  cases existing with
  | none =>
    refine ⟨rfl, settled (fun _ claims => claims.2) fun claims => ?_⟩
    obtain ⟨_, impossible, -⟩ := claims.1 rfl
    cases impossible
  | some existing =>
    dsimp only
    split_ifs with finished
    next =>
      refine ⟨rfl, settled (fun _ claims => claims.2) fun claims => ?_⟩
      obtain ⟨_, same, running, -⟩ := claims.1 rfl
      cases same
      rw [running] at finished
      cases finished
    next =>
      exact .asking trivial fun _ _ => ⟨rfl, settled (fun _ claims => claims.2.2) fun claims => claims.1 rfl⟩

/-! ### Finishing -/

/-- No claim is added; and what is raised is a conflict that came up before any claim or failure or is on record as
refused, or else a failure. -/
structure Winds (name : String) (told : Told) {α : Type} (outcome : Except PyError α) (later : Told) : Prop where
  claims : ∀ commit, Claiming name commit later → Claiming name commit told
  raised : ∀ error, outcome = .error error →
    Conflicts error ∧ (AllSmooth told ∨ Refused later) ∨ ¬ Conflicts error ∧ ¬ AllSmooth later

theorem Winds.of_ok {α : Type} {value : α} {later : Told}
    (claims : ∀ commit, Claiming name commit later → Claiming name commit told) :
    Winds name told (.ok value : Except PyError α) later :=
  ⟨claims, fun _ impossible => by cases impossible⟩

theorem Winds.earlier {α : Type} {outcome : Except PyError α} {middle later : Told} (winds : Winds name middle outcome later)
    (smooth : AllSmooth middle → AllSmooth told)
    (claims : ∀ commit, Claiming name commit middle → Claiming name commit told) : Winds name told outcome later := by
  refine ⟨fun commit claiming => claims commit (winds.claims commit claiming), fun error same => ?_⟩
  rcases winds.raised error same with ⟨conflict, before | refused⟩ | failed
  next => exact .inl ⟨conflict, .inl (smooth before)⟩
  next => exact .inl ⟨conflict, .inr refused⟩
  next => exact .inr failed

/-- The transaction of a queue operation: it raises nothing but a conflict. -/
structure Transacts (name : String) (told : Told) {α : Type} (outcome : Except PyError α) (later : Told) : Prop where
  claims : ∀ commit, Claiming name commit later → Claiming name commit told
  raised : ∀ error, outcome = .error error → Conflicts error ∧ (AllSmooth told ∨ Refused later)

theorem transact_recalls (name : String) {pk : EnvId} {writes : List BoardWrite} {version : Nat}
    (finishing : Finishing version writes) :
    (transact_board pk writes).Recalls Finishes Answered (Transacts name told) told := by
  have gives : given_back writes ≠ none := by
    rw [finishing.given_back]
    exact Option.some_ne_none version
  refine .asking (.inr ⟨version, finishing⟩) fun outcome answered => ?_
  rcases outcome with error | ⟨⟩
  next =>
    refine ⟨fun _ claims => claims, fun raised same => ?_⟩
    cases same
    refine ⟨answered error rfl, ?_⟩
    by_cases smooth : AllSmooth told
    next => exact .inl smooth
    next => exact .inr (.inl ⟨gives, (fun impossible => by cases impossible), smooth⟩)
  next => exact ⟨fun _ claims => claims, fun _ impossible => by cases impossible⟩

/-- A transaction, and a value to return after it. -/
theorem transact_return (name : String) {α : Type} {pk : EnvId} {writes : List BoardWrite} {value : α} {version : Nat}
    (finishing : Finishing version writes) :
    (transact_board pk writes >>= fun _ => pure value).Recalls Finishes Answered (Transacts name told) told := by
  refine (transact_recalls name finishing).andThen (fun error _ transacts => ?_) fun _ _ transacts => ?_
  next => exact ⟨transacts.claims, fun _ same => by cases same; exact transacts.raised error rfl⟩
  next => exact ⟨transacts.claims, fun _ impossible => by cases impossible⟩

theorem Transacts.winds {α : Type} {outcome : Except PyError α} {later : Told} (transacts : Transacts name told outcome later) :
    Winds name told outcome later :=
  ⟨transacts.claims, fun error same => .inl (transacts.raised error same)⟩

theorem complete_recalls (name : String) {α : Type} (lease : BuildLease) {extra : List BoardWrite}
    (free : ∀ write ∈ extra, is_free write = true) (value : α) :
    (BuildQueue.complete lease extra >>= fun _ => pure value).Recalls Finishes Answered (Winds name told) told :=
  (transact_return name ⟨[.delete lease.sort_key none], extra, rfl, List.forall_mem_cons.mpr ⟨rfl, free⟩⟩).mono
    fun _ _ transacts => transacts.winds

theorem fail_recalls (name : String) (lease : BuildLease) :
    (BuildQueue.fail lease).Recalls Finishes Answered (Transacts name told) told := by
  rw [BuildQueue.fail]
  dsimp only
  split
  next => exact transact_return name ⟨[_], [], rfl, by simp [is_free, BuildLease.sort_key]⟩
  next => exact transact_return name ⟨[_], [], rfl, by simp [is_free]⟩

theorem finish_recalls (name : String) (worker : BuildWorker) (lease : BuildLease) (result : BuildResult) (cache_hit : Bool) :
    (worker.finish lease result cache_hit).Recalls Finishes Answered (Winds name told) told := by
  have failing {exchange : Exchange BuildCmd BuildCmd.Response} {before : Told} (rough : Smooth exchange = false) :
      ¬ AllSmooth (exchange :: before) := by
    intro all
    rw [all exchange List.mem_cons_self] at rough
    cases rough
  refine ⟨trivial, fun record _ => ?_⟩
  cases record with
  | none =>
    refine ⟨fun _ claims => claims, fun error same => .inr ?_⟩
    cases same
    exact ⟨fun ⟨_, _, impossible⟩ => (by cases impossible), failing rfl⟩
  | some record =>
    refine .asking trivial fun now _ => .asking trivial fun synced answered => ?_
    rcases synced with error | outcome
    next =>
      refine ⟨fun _ claims => claims, fun raised same => .inr ?_⟩
      cases same
      exact ⟨answered error rfl, failing rfl⟩
    next =>
      refine .asking trivial fun updated_at_us _ => ?_
      refine (complete_recalls name lease (by simp [is_free]) _).mono fun outcome later winds => winds.earlier ?_ fun _ claims => claims
      intro smooth exchange member
      exact smooth exchange (by simp [member])

theorem finish_from_cache_recalls (name : String) (worker : BuildWorker) (lease : BuildLease) (cached : BuildResult) :
    (worker.finish_from_cache lease cached).Recalls Finishes Answered (Winds name told) told := by
  rw [BuildWorker.finish_from_cache]
  split
  next => exact finish_recalls name worker lease cached true
  next => exact complete_recalls name lease (by simp) _

theorem release_recalls (name : String) (lease : BuildLease) :
    (BuildQueue.release lease).Recalls Finishes Answered (Winds name told) told := by
  refine .asking (.inr ⟨lease.version, [], [], rfl, by simp⟩) fun outcome answered => ?_
  rcases outcome with error | ⟨⟩
  next =>
    obtain ⟨text, sk, rfl⟩ := answered error rfl
    exact Winds.of_ok fun _ claims => claims
  next => exact Winds.of_ok fun _ claims => claims

/-! ### Building -/

/-- A build comes to a finished result of the commit, or to an error. -/
theorem build_recalls (name : String) (worker : BuildWorker) (env_id : EnvId) (commit : ObjectName) (ran : Except PyError RunOutcome) :
    (worker.build env_id commit ran).Recalls Finishes Answered
      (fun outcome later => (∀ other, Claiming name other later → Claiming name other told) ∧ told <:+ later ∧
        ∀ result, outcome = .ok result → result.commit = commit ∧ result.status.terminal = true) told := by
  refine .asking trivial fun started _ => ⟨trivial, fun record _ => ?_⟩
  cases record with
  | none => exact ⟨fun _ claims => claims, ⟨[_, _], rfl⟩, fun _ impossible => by cases impossible⟩
  | some record =>
    rcases ran with error | outcome
    next => exact ⟨fun _ claims => claims, ⟨[_, _], rfl⟩, fun _ impossible => by cases impossible⟩
    next =>
      refine .asking trivial fun finished _ => ⟨fun _ claims => claims, ⟨[_, _, _], rfl⟩, fun result same => ?_⟩
      cases same
      refine ⟨rfl, ?_⟩
      dsimp only
      split <;> rfl

/-- What the body of the `try` comes to. -/
def Attempted (name : String) (commit : ObjectName) (outcome : Except PyError (Option BuildOutcome ⊕ BuildResult))
    (later : Told) : Prop :=
  match outcome with
  | .ok (.inl _) => ∀ other, ¬ Claiming name other later
  | .ok (.inr result) =>
      ¬ AllSmooth later ∧ OnlyClaims name commit later ∧ result.commit = commit ∧ result.status.terminal = true
  | .error error => OnlyClaims name commit later ∧ (Conflicts error ∨ ¬ AllSmooth later)

theorem attempt_recalls (worker : BuildWorker) (lease : BuildLease) (ran : Except PyError RunOutcome)
    (fresh : Fresh worker.worker_id told) :
    (worker.attempt lease ran).Recalls Finishes Answered (Attempted worker.worker_id lease.work.commit) told := by
  refine (claim_result_recalls lease.work.commit fresh).andThen (fun _ _ failed => ?_) fun found later claimed => ?_
  next => obtain ⟨_, impossible, -⟩ := failed; cases impossible
  obtain ⟨_, same, learned⟩ := claimed
  cases same
  cases found with
  | some cached =>
    dsimp only
    split
    next =>
      refine (finish_from_cache_recalls worker.worker_id worker lease cached).andThen (fun error last winds => ?_) fun _ last winds => ?_
      next =>
        refine ⟨fun other _ claims => learned.unclaimed other (winds.claims other claims), ?_⟩
        rcases winds.raised error rfl with ⟨conflict, -⟩ | ⟨-, rough⟩
        next => exact .inl conflict
        next => exact .inr rough
      next => exact fun other claims => learned.unclaimed other (winds.claims other claims)
    next =>
      refine (release_recalls worker.worker_id lease).andThen (fun error last winds => ?_) fun _ last winds => ?_
      next =>
        refine ⟨fun other _ claims => learned.unclaimed other (winds.claims other claims), ?_⟩
        rcases winds.raised error rfl with ⟨conflict, -⟩ | ⟨-, rough⟩
        next => exact .inl conflict
        next => exact .inr rough
      next => exact fun other claims => learned.unclaimed other (winds.claims other claims)
  | none =>
    obtain ⟨rough, only⟩ := learned
    have still {last : Told} (passed : later <:+ last) : ¬ AllSmooth last := fun all =>
      rough fun exchange member => all exchange (passed.subset member)
    refine (build_recalls worker.worker_id worker lease.work.env_id lease.work.commit ran).andThen
      (fun error last built => ?_) fun result last built => ?_
    next => exact ⟨fun other different claims => only other different (built.1 other claims), .inr (still built.2.1)⟩
    next =>
      obtain ⟨same, finished⟩ := built.2.2 result rfl
      exact ⟨still built.2.1, fun other different claims => only other different (built.1 other claims), same, finished⟩

/-! ### The whole turn -/

/-- No conflict is raised and no claim is left, or a finishing transaction was refused at a bad time. -/
def Settled (name : String) {α : Type} (outcome : Except PyError α) (later : Told) : Prop :=
  Refused later ∨ (∀ error, outcome = .error error → ¬ Conflicts error) ∧ ∀ commit, ¬ Claiming name commit later

theorem recorded_unclaimed {commit : ObjectName} {result : BuildResult} (here : result.commit = commit)
    (finished : result.status.terminal = true) (only : OnlyClaims name commit told) (response : Unit) (other : ObjectName) :
    ¬ Claiming name other (⟨.put_build result.commit result, response⟩ :: told) := by
  rw [Claiming]
  split
  next => simp [finished]
  next different => exact only other fun same => different (here.trans same.symm)

theorem give_up_recalls {lease : BuildLease} {result : BuildResult} (rough : ¬ AllSmooth told)
    (finished : result.status.terminal = true) (only : OnlyClaims name result.commit told) :
    (BuildWorker.give_up lease result).Recalls Finishes Answered (Settled name) told := by
  refine (fail_recalls name lease).andThen (fun error later transacts => ?_) fun exhausted later transacts => ?_
  next =>
    rcases (transacts.raised error rfl).2 with smooth | refused
    next => exact absurd smooth rough
    next => exact .inl refused
  next =>
    have still : OnlyClaims name result.commit later := fun other different claims =>
      only other different (transacts.claims other claims)
    cases exhausted with
    | true =>
      refine .asking trivial fun response _ => .inr ⟨fun _ impossible => (by cases impossible), fun other => ?_⟩
      exact @recorded_unclaimed name later result.commit { result with attempts := lease.work.attempts + 1 } rfl finished still response other
    | false =>
      refine (release_result_recalls still).andThen (fun _ _ failed => ?_) fun _ last released => ?_
      next => cases failed.1
      next => exact .inr ⟨fun _ impossible => (by cases impossible), released.2⟩

/-- A value made of what a settled part returned. -/
theorem settled_return {α β : Type} {p : BuildAct α} {value : α → β}
    (recalls : p.Recalls Finishes Answered (Settled name) told) :
    (p >>= fun returned => pure (value returned)).Recalls Finishes Answered (Settled name) told := by
  refine recalls.andThen (fun error later settled => ?_) fun returned later settled => ?_
  next => exact settled.imp id fun calm => ⟨fun _ same => by cases same; exact calm.1 error rfl, calm.2⟩
  next => exact settled.imp id fun calm => ⟨fun _ impossible => (by cases impossible), calm.2⟩

theorem work_on_recalls (worker : BuildWorker) (lease : BuildLease) (ran : Except PyError RunOutcome)
    (fresh : Fresh worker.worker_id told) :
    (worker.work_on lease ran).Recalls Finishes Answered (Settled worker.worker_id) told := by
  refine .bind (.attempt ((attempt_recalls worker lease ran fresh).mono fun outcome later attempted => ?_))
  rcases outcome with error | (returned | result)
  next =>
    obtain ⟨only, kind⟩ := attempted
    cases error with
    | conflict text sk =>
      refine (release_result_recalls only).andThen (fun _ _ failed => ?_) fun _ last released => ?_
      next => cases failed.1
      next => exact .inr ⟨fun _ impossible => (by cases impossible), released.2⟩
    | _ =>
      have rough : ¬ AllSmooth later := kind.resolve_left fun ⟨_, _, impossible⟩ => by cases impossible
      refine .asking trivial fun now _ => settled_return (give_up_recalls (fun all => ?_) rfl fun other different claims => ?_)
      next => exact rough fun exchange member => all exchange (List.mem_cons_of_mem _ member)
      next => exact only other different claims
  next => exact .inr ⟨fun _ impossible => (by cases impossible), attempted⟩
  next =>
    obtain ⟨rough, only, same, finished⟩ := attempted
    dsimp only
    split
    next =>
      -- Recorded first, and then finished outside the `try`.
      refine .asking trivial fun response _ => settled_return ?_
      have recorded := recorded_unclaimed same finished only response
      refine (finish_recalls worker.worker_id worker lease result false).mono fun outcome last winds => ?_
      have unclaimed (other : ObjectName) : ¬ Claiming worker.worker_id other last := fun claims =>
        recorded other (winds.claims other claims)
      by_cases refused : Refused last
      next => exact .inl refused
      next =>
        refine .inr ⟨fun error raised conflict => ?_, unclaimed⟩
        rcases winds.raised error raised with ⟨-, smooth | refusal⟩ | ⟨calm, -⟩
        next => exact rough fun exchange member => smooth exchange (List.mem_cons_of_mem _ member)
        next => exact refused refusal
        next => exact calm conflict
    next => exact settled_return (give_up_recalls rough finished (same ▸ only))

/-- A turn raises no conflict and leaves no claim, unless a finishing transaction is refused at a bad time. -/
theorem run_once_recalls (worker : BuildWorker) (ran : Except PyError RunOutcome) (fresh : Fresh worker.worker_id told) :
    (worker.run_once ran).Recalls Finishes Answered (Settled worker.worker_id) told := by
  refine (lease_recalls worker.queue worker.worker_id 200 fresh).andThen (fun _ _ failed => ?_) fun lease later met => ?_
  next => obtain ⟨⟨_, impossible⟩, -⟩ := failed; cases impossible
  next =>
    cases lease with
    | none => exact .inr ⟨fun _ impossible => (by cases impossible), met.2.unclaimed⟩
    | some lease => exact work_on_recalls worker lease ran met.2

end Turn

/-! ## The worker among others -/

abbrev TurnResult {κ : Type} : Option κ → Type
  | none => Option BuildOutcome
  | some _ => Unit

section Runs

variable {κ : Type}

/-- The worker at the start of a turn, and others at the start of whatever they run. -/
def one_turn (worker : BuildWorker) (ran : Except PyError RunOutcome) (others : κ → BuildAct Unit) (world : BuildWorld) :
    Pool (Option κ) BuildCmd BuildCmd.Response PyError TurnResult (BuildJournal (Option κ)) :=
  ⟨⟨world, []⟩, fun
    | none => worker.run_once ran
    | some other => others other⟩

/-- The environment whose queue the event changed. -/
def queue_change : BuildEvent (Option κ) → Option EnvId
  | ⟨_, .board_write pk writes, .ok ()⟩ => if ∃ write ∈ writes, is_queue_write write = true then some pk else none
  | _ => none

/-- The worker changes an environment's queue only while it is the last that was granted the lease. -/
def Intact : List (BuildEvent (Option κ)) → Prop
  | [] => True
  | event :: before =>
    (∀ env, event.party = none → queue_change event = some env → (lease_grants env before).head?.map Prod.fst = some none) ∧
      Intact before

/-- Others build under names of their own. -/
def Foreign (name : String) : BuildCmd → Prop
  | .claim_build _ result | .put_build _ result => ¬ ClaimedBy name result
  | _ => True

variable [DecidableEq κ]

/-- When the worker gives back the version that the lease has and changes the queue, nobody else has been granted the
lease since; and when the lease is lost, the worker has been told of no claim and no failure. -/
def Timely : BuildCmd → BuildJournal (Option κ) → Prop
  | .board_write pk writes, journal => ∀ version ∈ given_back writes,
      if (journal.state.board pk).lease.map Item.version = some version then
        (∃ write ∈ writes, is_queue_write write = true) → (lease_grants pk journal.trace).head?.map Prod.fst = some none
      else AllSmooth (journal.told none)
  | _, _ => True

/-- The worker's steps are timely, and the others' are foreign to it. -/
def turn_may (name : String) : Option κ → BuildCmd → BuildJournal (Option κ) → Prop
  | none, command, journal => Timely command journal
  | some _, command, _ => Foreign name command

instance Timely.decidable : (command : BuildCmd) → (journal : BuildJournal (Option κ)) → Decidable (Timely command journal)
  | .board_write pk writes, journal => inferInstanceAs (Decidable (∀ version ∈ given_back writes,
      if (journal.state.board pk).lease.map Item.version = some version then
        (∃ write ∈ writes, is_queue_write write = true) → (lease_grants pk journal.trace).head?.map Prod.fst = some none
      else AllSmooth (journal.told none)))
  | .base _, _ | .board_get _ _, _ | .scan_queue _ _, _ | .select_events _ _ _, _ | .read_cursor _, _
  | .put_cursor _ _, _ | .claim_build _ _, _ | .read_build _, _ | .put_build _ _, _ | .delete_build _, _
  | .platform_sync _ _, _ => isTrue trivial

instance Foreign.decidable (name : String) : (command : BuildCmd) → Decidable (Foreign name command)
  | .claim_build _ result | .put_build _ result => inferInstanceAs (Decidable (¬ ClaimedBy name result))
  | .base _ | .board_get _ _ | .scan_queue _ _ | .select_events _ _ _ | .read_cursor _ | .put_cursor _ _
  | .board_write _ _ | .read_build _ | .delete_build _ | .platform_sync _ _ => isTrue trivial

instance turn_may.decidable (name : String) : (party : Option κ) → (command : BuildCmd) →
    (journal : BuildJournal (Option κ)) → Decidable (turn_may name party command journal)
  | none, command, journal => Timely.decidable command journal
  | some _, command, _ => Foreign.decidable name command

def takes_turn : Option κ → Told → BuildCmd → Prop
  | none => Finishes
  | some _ => fun _ _ => True

/-- What has been told by the end of the turn; the others are of no concern. -/
def turn_post (name : String) : (party : Option κ) → Except PyError (TurnResult party) → Told → Prop
  | none => Settled name
  | some _ => fun _ _ => True

structure Orderly (name : String) (journal : BuildJournal (Option κ)) : Prop where
  claimed : ∀ commit result, journal.state.builds[commit]? = some result → ClaimedBy name result →
    Claiming name commit (journal.told none)
  unrefused : ¬ Refused (journal.told none)
  intact : Intact journal.trace

variable {site : Site} {name : String} {journal : BuildJournal (Option κ)}

/-- Where a record comes from. -/
theorem exec_builds {command : BuildCmd} {world : BuildWorld} {commit : ObjectName} {result : BuildResult}
    (found : (site.exec command world).2.builds[commit]? = some result) :
    (world.builds[commit]? = some result ∧ command ≠ .delete_build commit ∧ ∀ other, command ≠ .put_build commit other) ∨
      (command = .claim_build commit result ∧ commit ∉ world.builds) ∨ command = .put_build commit result := by
  cases command with
  | base command =>
    refine .inl ⟨?_, (fun impossible => by cases impossible), fun _ impossible => by cases impossible⟩
    cases command with
    | transact_write pk writes =>
      simp only [Site.exec] at found
      split at found <;> exact found
    | _ => exact found
  | board_write pk writes =>
    refine .inl ⟨?_, (fun impossible => by cases impossible), fun _ impossible => by cases impossible⟩
    simp only [Site.exec] at found
    split at found <;> exact found
  | claim_build claimed running =>
    simp only [Site.exec, Std.ExtTreeMap.getElem?_insertIfNew] at found
    split at found
    next new =>
      obtain rfl := Std.LawfulEqOrd.eq_of_compare new.1
      cases found
      exact .inr (.inl ⟨rfl, new.2⟩)
    next => exact .inl ⟨found, (fun impossible => by cases impossible), fun _ impossible => by cases impossible⟩
  | put_build recorded other =>
    simp only [Site.exec, Std.ExtTreeMap.getElem?_insert] at found
    split at found
    next here =>
      obtain rfl := Std.LawfulEqOrd.eq_of_compare here
      cases found
      exact .inr (.inr rfl)
    next elsewhere =>
      refine .inl ⟨found, (fun impossible => by cases impossible), fun _ same => elsewhere ?_⟩
      cases same
      exact Std.ReflOrd.compare_self
  | delete_build deleted =>
    simp only [Site.exec, Std.ExtTreeMap.getElem?_erase] at found
    split at found
    next => cases found
    next elsewhere =>
      refine .inl ⟨found, fun same => elsewhere ?_, fun _ impossible => by cases impossible⟩
      cases same
      exact Std.ReflOrd.compare_self
  | _ => exact .inl ⟨found, (fun impossible => by cases impossible), fun _ impossible => by cases impossible⟩

theorem transact_conflicts {board : Board} {writes : List BoardWrite} {error : PyError}
    (failed : board.transact_write writes = .error error) : Conflicts error := by
  have unmet {condition : Prop} [Decidable condition] {text : String} {sk : Option Text.PyStr} {raised : PyError}
      (refused : ensure condition (.conflict text sk) = .error raised) : Conflicts raised := by
    rw [ensure] at refused
    split at refused
    next => cases refused
    next => cases refused; exact ⟨_, _, rfl⟩
  have required {β : Type} {condition : Option Condition} {existing : Option (Item β)} {key : BoardKey} {raised : PyError}
      (refused : Board.require condition existing key = .error raised) : Conflicts raised := by
    unfold Board.require at refused
    split at refused
    next => cases refused
    all_goals exact unmet refused
  induction writes generalizing board with
  | nil => cases failed
  | cons write writes ih =>
    rw [Board.transact_write, List.foldlM_cons] at failed
    cases applied : Board.apply board write with
    | ok middle =>
      rw [applied] at failed
      exact ih failed
    | error raised =>
      rw [applied] at failed
      cases failed
      cases write with
      | put key body condition expires_at_us =>
        cases met : Board.require condition (board.get key) key with
        | error refused => simp only [Board.apply, met] at applied; cases applied; exact required met
        | ok => simp only [Board.apply, met] at applied; cases applied
      | delete key condition =>
        cases met : Board.require condition (board.get key) key with
        | error refused => simp only [Board.apply, met] at applied; cases applied; exact required met
        | ok => simp only [Board.apply, met] at applied; cases applied

theorem exec_answered (calm : ∀ sent request now error, site.platform sent request now = .error error → ¬ Conflicts error)
    (command : BuildCmd) (world : BuildWorld) : Answered command (site.exec command world).1 := by
  cases command with
  | board_write pk writes =>
    intro error failed
    cases applied : (world.board pk).transact_write writes with
    | ok board => rw [exec_board applied] at failed; cases failed
    | error raised =>
      rw [exec_board_error applied] at failed
      cases failed
      exact transact_conflicts applied
  | platform_sync request now => exact calm _ _ _
  | _ => trivial

theorem step_foreign {other : κ} {command : BuildCmd} (foreign : Foreign name command) (orderly : Orderly name journal) :
    Orderly name (Traced.exec site.exec (some other) command journal).2 := by
  have told : (Traced.exec site.exec (some other) command journal).2.told none = journal.told none :=
    Prog.told_exec_of_ne (by simp) command journal
  refine ⟨fun commit result found mine => ?_, told ▸ orderly.unrefused, fun _ impossible => (by cases impossible),
    orderly.intact⟩
  rw [told]
  rcases exec_builds found with ⟨before, -⟩ | ⟨rfl, -⟩ | rfl
  next => exact orderly.claimed commit result before mine
  next => exact absurd mine foreign
  next => exact absurd mine foreign

theorem step_own {command : BuildCmd} (finishes : Finishes (journal.told none) command) (timely : Timely command journal)
    (orderly : Orderly name journal) : Orderly name (Traced.exec site.exec none command journal).2 := by
  have told := @Prog.told_exec_self _ _ _ _ _ site.exec (none : Option κ) command journal
  refine ⟨fun commit result found mine => ?_, ?_, fun env _ changed => ?_, orderly.intact⟩
  next =>
    rw [told]
    rcases exec_builds found with ⟨before, undeleted, unput⟩ | ⟨rfl, absent⟩ | rfl
    next =>
      have claiming := orderly.claimed commit result before mine
      cases command with
      | base command => cases command <;> exact claiming
      | claim_build => exact .inr claiming
      | read_build read =>
        refine ⟨fun same => ⟨result, ?_, mine⟩, claiming⟩
        subst same
        exact before
      | put_build recorded other =>
        rw [Claiming, if_neg fun same : recorded = commit => unput other (same ▸ rfl)]
        exact claiming
      | delete_build deleted => exact ⟨fun same => undeleted (same ▸ rfl), claiming⟩
      | _ => exact claiming
    next => exact .inl ⟨by simp [Site.exec, absent], rfl⟩
    next =>
      rw [Claiming, if_pos rfl, mine.1]
      rfl
  next =>
    rw [told]
    cases command with
    | board_write pk writes =>
      rintro (⟨gives, refused, rough⟩ | earlier)
      next =>
        rcases finishes with ⟨nothing, -⟩ | ⟨version, finishing⟩
        next => exact gives nothing
        next =>
          have timely := timely version finishing.given_back
          split at timely
          next held =>
            obtain ⟨board, applied⟩ := (finishing.transacts _).mpr held
            rw [exec_board applied] at refused
            exact refused rfl
          next => exact rough timely
      next => exact orderly.unrefused earlier
    | base command => cases command <;> exact orderly.unrefused
    | _ => exact orderly.unrefused
  next =>
    cases command with
    | board_write pk writes =>
      cases applied : (journal.state.board pk).transact_write writes with
      | error error =>
        rw [exec_board_error applied] at changed
        cases changed
      | ok board =>
        rw [exec_board applied] at changed
        simp only [queue_change, Option.ite_none_right_eq_some, Option.some.injEq] at changed
        obtain ⟨⟨write, member, changes⟩, rfl⟩ := changed
        rcases finishes with ⟨-, unchanging⟩ | ⟨version, finishing⟩
        next => rw [unchanging write member] at changes; cases changes
        next =>
          have held := (finishing.transacts _).mp ⟨board, applied⟩
          have timely := timely version finishing.given_back
          rw [if_pos held] at timely
          exact timely ⟨write, member, changes⟩
    | _ => cases changed

end Runs

/-- In every run that is timely, a turn of the worker raises no conflict, changes the queue only under its own lease,
and leaves no running result in its name. -/
theorem lost_lease_handled {κ : Type} [DecidableEq κ] (site : Site)
    (calm : ∀ sent request now error, site.platform sent request now = .error error → ¬ Conflicts error)
    (worker : BuildWorker) (ran : Except PyError RunOutcome) (others : κ → BuildAct Unit) (world : BuildWorld)
    (unclaimed : ∀ (commit : ObjectName) (result : BuildResult), world.builds[commit]? = some result → ¬ ClaimedBy worker.worker_id result)
    {after : Pool (Option κ) BuildCmd BuildCmd.Response PyError TurnResult (BuildJournal (Option κ))}
    (run : Pool.Run (fun party => ⟨Traced.exec site.exec party, turn_may worker.worker_id party⟩) ClockMoves
      (one_turn worker ran others world) after) :
    (∀ error, after.procs none = .fail error → ¬ Conflicts error) ∧ Intact after.shared.trace ∧
      ((∃ error, after.procs none = .fail error) ∨ (∃ outcome, after.procs none = .done outcome) →
        ∀ (commit : ObjectName) (result : BuildResult), after.shared.state.builds[commit]? = some result → ¬ ClaimedBy worker.worker_id result) := by
  have initially : Orderly worker.worker_id (one_turn worker ran others world).shared :=
    ⟨fun commit result found mine => absurd mine (unclaimed commit result found), id, trivial⟩
  have fresh : Fresh worker.worker_id [] := ⟨fun _ member => (by cases member), fun _ => id⟩
  have starts (party : Option κ) : ((one_turn worker ran others world).procs party).Recalls (takes_turn party) Answered
      (turn_post worker.worker_id party) ((one_turn worker ran others world).shared.told party) := by
    cases party with
    | none => exact run_once_recalls worker ran fresh
    | some other => exact Prog.Recalls.free (others other) []
  have steps (party : Option κ) (command : BuildCmd) (journal : BuildJournal (Option κ))
      (takes : takes_turn party (journal.told party) command) (may : turn_may worker.worker_id party command journal)
      (orderly : Orderly worker.worker_id journal) :
      Orderly worker.worker_id (Traced.exec site.exec party command journal).2 := by
    cases party with
    | none => exact step_own takes may orderly
    | some other => exact step_foreign may orderly
  obtain ⟨orderly, recalls⟩ := Pool.run_recalls starts (fun command journal _ => exec_answered calm command journal.state)
    steps (fun _ _ ⟨_, moved⟩ => by rw [moved]) (fun _ _ ⟨_, moved⟩ orderly => by rw [moved]; exact ⟨orderly.1, orderly.2, orderly.3⟩)
    initially run
  have mine := recalls none
  refine ⟨fun error failed => ?_, orderly.intact, fun ended commit result found claimed => ?_⟩
  next =>
    rw [failed] at mine
    exact (mine.resolve_left orderly.unrefused).1 error rfl
  next =>
    have claiming := orderly.claimed commit result found claimed
    rcases ended with ⟨error, failed⟩ | ⟨outcome, returned⟩
    next =>
      rw [failed] at mine
      exact (mine.resolve_left orderly.unrefused).2 commit claiming
    next =>
      rw [returned] at mine
      exact (mine.resolve_left orderly.unrefused).2 commit claiming

/-! ## Losing the lease -/

/-- A platform that takes what it is sent. -/
def platformSite : Site := ⟨.none, .ofTable [], 1, fun sent _ now => .ok ⟨s!"env-{sent.length + 1}", now⟩⟩

def slowWorker : BuildWorker := ⟨defaultQueue, "slow"⟩

/-- Another worker, which asks for a lease. -/
def quickWorker (_ : Unit) : BuildAct Unit := do
  let _ ← defaultQueue.lease "quick" 200
  return ()

/-- An environment with one entry queued, of a commit with these results. -/
def turnWorld (builds : List (ObjectName × BuildResult)) : BuildWorld :=
  { BuildWorld.empty with
    world := (World.empty 0).with_partition ⟨"env"⟩
      { Partition.empty with
        env := some ⟨⟨⟨"env"⟩, ⟨"name"⟩, DEFAULT_REF, .active, "owner", [], none, none, 0⟩, 1, none, none⟩ }
    boards := (∅ : Std.ExtTreeMap EnvId Board).insert ⟨"env"⟩
      { Board.empty with queue := (∅ : Std.ExtTreeMap Nat _ _).insert 1 (queuedBuild ⟨"env"⟩ 1) }
    builds := (∅ : Std.ExtTreeMap ObjectName BuildResult).insertMany builds }

/-- As long as a lease lasts. -/
def leaseOver (journal : BuildJournal (Option Unit)) : BuildJournal (Option Unit) :=
  ⟨{ journal.state with
      world := { journal.state.world with clock := journal.state.world.clock + DEFAULT_LEASE_US } }, journal.trace⟩

/-- The slow worker is overtaken after so many steps, and goes on to the end. -/
def overtakenAt (steps : Nat) : List (Pool.Cue (Option Unit) (BuildJournal (Option Unit))) :=
  [.turn none steps, .weather leaseOver, .turn (some ()) 4, .turn none 20]

theorem leaseOver_moves (steps : Nat) (change : BuildJournal (Option Unit) → BuildJournal (Option Unit))
    (member : Pool.Cue.weather change ∈ overtakenAt steps) (journal : BuildJournal (Option Unit)) :
    ClockMoves journal (change journal) := by
  have same : change = leaseOver := by simpa [overtakenAt] using member
  exact ⟨journal.state.world.clock + DEFAULT_LEASE_US, by rw [same, leaseOver]⟩

def failedResult : BuildResult := ⟨builtCommit, .failed, 0, 0, none, [], 3, "other"⟩

/-- Overtaken before it finishes with the failure that another worker recorded. -/
def cachedTurn : Pool (Option Unit) BuildCmd BuildCmd.Response PyError TurnResult (BuildJournal (Option Unit)) :=
  (one_turn slowWorker (.ok ⟨0, []⟩) quickWorker (turnWorld [(builtCommit, failedResult)])).play
    (fun party => ⟨Traced.exec platformSite.exec party, turn_may "slow" party⟩) (overtakenAt 7)

theorem lost_lease_handled_cached :
    (∀ error, cachedTurn.procs none = .fail error → ¬ Conflicts error) ∧ Intact cachedTurn.shared.trace ∧
      ((∃ error, cachedTurn.procs none = .fail error) ∨ (∃ outcome, cachedTurn.procs none = .done outcome) →
        ∀ (commit : ObjectName) (result : BuildResult),
          cachedTurn.shared.state.builds[commit]? = some result → ¬ ClaimedBy "slow" result) := by
  refine lost_lease_handled platformSite (fun _ _ _ _ impossible => by cases impossible) slowWorker (.ok ⟨0, []⟩) quickWorker
    (turnWorld [(builtCommit, failedResult)]) (fun commit result found => ?_)
    (Pool.Run.play (leaseOver_moves 7) (by decide))
  have only : (turnWorld [(builtCommit, failedResult)]).builds =
      (∅ : Std.ExtTreeMap ObjectName BuildResult).insert builtCommit failedResult := rfl
  rw [only, Std.ExtTreeMap.getElem?_insert] at found
  split at found
  next => cases found; decide
  next => cases found

/-- Parties take their steps as they like, the others under names of their own. -/
def turn_parties (party : Option Unit) : Actor BuildCmd BuildCmd.Response (BuildJournal (Option Unit)) :=
  ⟨Traced.exec platformSite.exec party, fun command _ => party = none ∨ Foreign "slow" command⟩

instance (party : Option Unit) (command : BuildCmd) (journal : BuildJournal (Option Unit)) :
    Decidable ((turn_parties party).may command journal) :=
  inferInstanceAs (Decidable (party = none ∨ Foreign "slow" command))

/-- Overtaken while it builds. -/
def lostTurn (ran : Except PyError RunOutcome) :
    Pool (Option Unit) BuildCmd BuildCmd.Response PyError TurnResult (BuildJournal (Option Unit)) :=
  (one_turn slowWorker ran quickWorker (turnWorld [])).play turn_parties (overtakenAt 6)

/-- Overtaken while it builds, the worker raises a conflict, whether its build succeeds or fails; and in the second case
it leaves the commit as being built by it. -/
theorem lost_lease_raises :
    (Pool.Run turn_parties ClockMoves (one_turn slowWorker (.ok ⟨0, []⟩) quickWorker (turnWorld [])) (lostTurn (.ok ⟨0, []⟩)) ∧
      ∃ error, (lostTurn (.ok ⟨0, []⟩)).procs none = .fail error ∧ Conflicts error) ∧
    Pool.Run turn_parties ClockMoves (one_turn slowWorker (.ok ⟨1, []⟩) quickWorker (turnWorld [])) (lostTurn (.ok ⟨1, []⟩)) ∧
      (∃ error, (lostTurn (.ok ⟨1, []⟩)).procs none = .fail error ∧ Conflicts error) ∧
      ∃ result, (lostTurn (.ok ⟨1, []⟩)).shared.state.builds[builtCommit]? = some result ∧ ClaimedBy "slow" result := by
  have refused : Conflicts (.conflict "item version does not match" (some BoardKey.build_lease.render)) := ⟨_, _, rfl⟩
  have left : ((lostTurn (.ok ⟨1, []⟩)).shared.state.builds[builtCommit]?.map fun result =>
      (result.status, result.worker)) = some (.running, "slow") := by decide
  obtain ⟨result, found, same⟩ := Option.map_eq_some_iff.mp left
  obtain ⟨running, worker⟩ := Prod.mk.inj same
  exact ⟨⟨Pool.Run.play (leaseOver_moves 6) (by decide), _, Prog.raised_eq_some.mp (by decide), refused⟩,
    Pool.Run.play (leaseOver_moves 6) (by decide), ⟨_, Prog.raised_eq_some.mp (by decide), refused⟩,
    result, found, running, worker⟩

end BuildWorker

end LedgerVcs
