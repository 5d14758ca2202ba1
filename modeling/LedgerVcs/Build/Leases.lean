import LedgerVcs.Build.Transactions
import LedgerVcs.Lib.Script

set_option autoImplicit false

/-! Who holds an environment's lease, in any interleaving of workers. -/

namespace LedgerVcs

open Prog (Actor Pool Traced)

abbrev BuildEvent (ι : Type) := Prog.Event ι BuildCmd BuildCmd.Response

/-- The build world, with all that has happened to it. -/
abbrev BuildJournal (ι : Type) := Traced ι BuildCmd BuildCmd.Response BuildWorld

/-! ## Workers and producers -/

/-- How a worker gives a lease back. -/
inductive Finish
  | complete (notes : List Note)
  | fail
  | release

def Finish.code (lease : BuildLease) : Finish → BuildAct Unit
  | .complete notes => BuildQueue.complete lease (notes.map fun note => .put (.note note.commit) note none none)
  | .fail => do
      let _ ← BuildQueue.fail lease
      return ()
  | .release => BuildQueue.release lease

inductive QueueCall
  | enqueue (env : EnvId) (commit : ObjectName) (ref : RefName) (op_sequence : Nat) (manual : Bool)
  /-- Leases, and some time tries to give back what it was granted, in one way or in several. -/
  | work (worker : String) (limit : Nat) (finishes : BuildLease → List Finish)

def QueueCall.code (queue : BuildQueue) : QueueCall → BuildAct Unit
  | .enqueue env commit ref op_sequence manual => do
      let _ ← BuildQueue.enqueue env commit ref op_sequence manual
      return ()
  | .work worker limit finishes => do
      match ← queue.lease worker limit with
      | none => return ()
      | some lease =>
        (finishes lease).foldlM (fun _ finish => do
          let _ ← (finish.code lease).attempt
          return ()) ()

/-- Time passes, or is set back. -/
def ClockMoves {ι : Type} (before after : BuildJournal ι) : Prop :=
  ∃ clock, after = ⟨{ before.state with world := { before.state.world with clock } }, before.trace⟩

/-- Everybody's calls, each at its first step. -/
def queue_calls {ι : Type} (queue : BuildQueue) (calls : ι → QueueCall) (world : BuildWorld) :
    Pool ι BuildCmd BuildCmd.Response PyError (fun _ => Unit) (BuildJournal ι) :=
  ⟨⟨world, []⟩, fun party => (calls party).code queue⟩

/-! ## Grants -/

section Grants

variable {ι : Type} (env : EnvId)

/-- The party, and the version of the environment's lease that it was granted. -/
def lease_grant : BuildEvent ι → Option (ι × Nat)
  | ⟨party, .board_write pk writes, .ok ()⟩ =>
      if pk = env then (granted_version writes).map fun version => (party, version) else none
  | _ => none

/-- Who has been granted the environment's lease, and at which version, the latest first. -/
def lease_grants (trace : List (BuildEvent ι)) : List (ι × Nat) := trace.filterMap (lease_grant env)

/-- The version of the environment's lease that was given back, when that took effect. -/
def finish_of : BuildEvent ι → Option Nat
  | ⟨_, .board_write pk writes, .ok ()⟩ => if pk = env then given_back writes else none
  | _ => none

end Grants

/-- Whoever gave a lease back was the last to be granted it. -/
def Exclusive {ι : Type} : List (BuildEvent ι) → Prop
  | [] => True
  | event :: before =>
    (∀ env version, finish_of env event = some version → (lease_grants env before).head? = some (event.party, version)) ∧
      Exclusive before

theorem exclusive_cons {ι : Type} {event : BuildEvent ι} {before : List (BuildEvent ι)} :
    Exclusive (event :: before) ↔
      (∀ env version, finish_of env event = some version → (lease_grants env before).head? = some (event.party, version)) ∧
        Exclusive before := by
  rw [Exclusive]

/-- The version of a lease that is being given back went to the party, and to nobody since. -/
def Unreissued {ι : Type} (party : ι) : BuildCmd → BuildJournal ι → Prop
  | .board_write pk writes, journal =>
      ∀ version ∈ given_back writes,
        (lease_grants pk journal.trace).find? (fun grant => grant.2 = version) = some (party, version)
  | _, _ => True

instance {ι : Type} [DecidableEq ι] (party : ι) : (command : BuildCmd) → (journal : BuildJournal ι) →
    Decidable (Unreissued party command journal)
  | .board_write pk writes, journal =>
      inferInstanceAs (Decidable (∀ version ∈ given_back writes,
        (lease_grants pk journal.trace).find? (fun grant => grant.2 = version) = some (party, version)))
  | .base _, _ | .board_get _ _, _ | .scan_queue _ _, _ | .select_events _ _ _, _ | .read_cursor _, _
  | .put_cursor _ _, _ | .claim_build _ _, _ | .read_build _, _ | .put_build _ _, _ | .delete_build _, _
  | .platform_sync _ _, _ => isTrue trivial

/-- A party takes no step that gives back a version which has been granted again. -/
def unreissuing {ι : Type} (site : Site) (party : ι) : Actor BuildCmd BuildCmd.Response (BuildJournal ι) :=
  ⟨Traced.exec site.exec party, Unreissued party⟩

instance {ι : Type} [DecidableEq ι] (site : Site) (party : ι) (command : BuildCmd) (journal : BuildJournal ι) :
    Decidable ((unreissuing site party).may command journal) :=
  inferInstanceAs (Decidable (Unreissued party command journal))

/-! ## What the calls do -/

/-- Commands of the queue: the lease is put by a claim, and by nothing else. -/
def QueueCmd : BuildCmd → Prop
  | .base .now_us => True
  | .board_get _ _ => True
  | .scan_queue _ _ => True
  | .board_write _ writes => (∃ version, granted_version writes = some version) ∨ ∀ write ∈ writes, ¬ PutsLease write
  | _ => False

section Calls

variable {answers : (command : BuildCmd) → command.Response → Prop} {queue : BuildQueue}

theorem board_write_yields {pk : EnvId} {writes : List BoardWrite} (fits : ∀ write ∈ writes, ¬ PutsLease write) :
    (transact_board pk writes).Yields QueueCmd answers fun _ => True :=
  .bind (.ask (.inr fits) fun _ _ => .ofExcept fun _ _ => trivial)

theorem enqueue_yields (env : EnvId) (commit : ObjectName) (ref : RefName) (op_sequence : Nat) (manual : Bool) :
    (BuildQueue.enqueue env commit ref op_sequence manual).Yields QueueCmd answers fun _ => True := by
  refine .bind (.ask trivial fun now _ => .bind (.ask (.inr ?_) fun response _ => ?_))
  next =>
    intro write member
    rw [List.mem_singleton.mp member]
    exact id
  next => split <;> trivial

theorem put_lease_yields (partition : EnvId) (worker : String) (now : Int) {condition : Condition} {version : Nat}
    (claims : condition = .absent ∨ ∃ held, condition = .version_is held) :
    (queue.put_lease partition worker now condition version).Yields QueueCmd answers fun _ => True := by
  refine .bind (.ask (.inl ?_) fun response _ => ?_)
  next => rcases claims with rfl | ⟨held, rfl⟩ <;> exact ⟨_, rfl⟩
  next => split <;> trivial

theorem claim_yields (partition : EnvId) (worker : String) (now : Int) :
    (queue.claim partition worker now).Yields QueueCmd answers fun _ => True := by
  refine .bind (.ask trivial fun current _ => ?_)
  cases current with
  | none => exact put_lease_yields partition worker now (.inl rfl)
  | some current =>
    dsimp only
    split
    next => trivial
    next => exact put_lease_yields partition worker now (.inr ⟨_, rfl⟩)

theorem lease_first_yields (worker : String) (now : Int) (entries : List QueueRow) :
    (queue.lease_first worker now entries).Yields QueueCmd answers fun _ => True := by
  induction entries with
  | nil => trivial
  | cons entry entries ih =>
    refine .bind ((claim_yields entry.pk worker now).mono (fun _ fits => fits) fun claimed _ => ?_)
    cases claimed with
    | none => exact ih
    | some version => trivial

theorem lease_yields (worker : String) (limit : Nat) :
    (queue.lease worker limit).Yields QueueCmd answers fun _ => True := by
  refine .bind (.ask trivial fun now _ => .bind (.bind (.mono (.mapM fun shard _ => ?_) (fun _ fits => fits) ?_)))
  next => exact .ask trivial fun _ _ => trivial
  next => exact fun items _ => lease_first_yields worker now _

theorem finish_yields (lease : BuildLease) (finish : Finish) :
    (finish.code lease).Yields QueueCmd answers fun _ => True := by
  cases finish with
  | complete notes =>
    refine board_write_yields fun write member => ?_
    rcases List.mem_cons.mp member with rfl | rest
    next => exact id
    next =>
      rcases List.mem_cons.mp rest with rfl | extra
      next => exact id
      next =>
        obtain ⟨note, -, rfl⟩ := List.mem_map.mp extra
        exact id
  | fail =>
    refine .bind (@Prog.Yields.mono _ _ _ _ _ _ (fun _ => True) _ _ _ ?_ (fun _ fits => fits) fun _ _ => trivial)
    rw [BuildQueue.fail]
    split
    next => exact .bind ((board_write_yields (by simp [PutsLease])).mono (fun _ fits => fits) fun _ _ => trivial)
    next => exact .bind ((board_write_yields (by simp [PutsLease])).mono (fun _ fits => fits) fun _ _ => trivial)
  | release =>
    refine .bind (.ask (.inr (by simp [PutsLease])) fun response _ => ?_)
    split <;> trivial

theorem call_yields (call : QueueCall) : (call.code queue).Yields QueueCmd answers fun _ => True := by
  cases call with
  | enqueue env commit ref op_sequence manual =>
    exact .bind ((enqueue_yields env commit ref op_sequence manual).mono (fun _ fits => fits) fun _ _ => trivial)
  | work worker limit finishes =>
    refine .bind ((lease_yields worker limit).mono (fun _ fits => fits) fun granted _ => ?_)
    cases granted with
    | none => trivial
    | some lease =>
      refine .foldlM trivial fun _ finish _ _ => .bind (.attempt ?_ fun _ => trivial)
      exact (finish_yields lease finish).mono (fun _ fits => fits) fun _ _ => trivial

end Calls

/-! ## Every interleaving -/

section Steps

variable {ι : Type} {site : Site} {party : ι} {journal : BuildJournal ι}

/-- The lease that is there is the last that was granted. -/
structure Fenced (journal : BuildJournal ι) : Prop where
  current : ∀ env item, (journal.state.board env).lease = some item →
    (lease_grants env journal.trace).head?.map Prod.snd = some item.version
  exclusive : Exclusive journal.trace

theorem Fenced.idle {event : BuildEvent ι} {world : BuildWorld} (fenced : Fenced journal)
    (leases : ∀ env, (world.board env).lease = (journal.state.board env).lease)
    (grantless : ∀ env, lease_grant env event = none) (keeping : ∀ env, finish_of env event = none) :
    Fenced ⟨world, event :: journal.trace⟩ := by
  refine ⟨fun env item found => ?_, exclusive_cons.mpr ⟨fun env version gives => ?_, fenced.exclusive⟩⟩
  next =>
    rw [lease_grants, List.filterMap_cons, grantless]
    exact fenced.current env item (leases env ▸ found)
  next =>
    rw [keeping] at gives
    cases gives

theorem Fenced.board_write {pk : EnvId} {writes : List BoardWrite} (fenced : Fenced journal)
    (fits : QueueCmd (.board_write pk writes)) (unreissued : Unreissued party (.board_write pk writes) journal) :
    Fenced (Traced.exec site.exec party (.board_write pk writes) journal).2 := by
  rw [Traced.exec]
  cases applied : (journal.state.board pk).transact_write writes with
  | error error =>
    rw [exec_board_error applied]
    exact fenced.idle (fun _ => rfl) (fun _ => rfl) fun _ => rfl
  | ok board =>
    rw [exec_board applied]
    dsimp only
    rcases fits with ⟨version, claims⟩ | none_put
    next =>
      obtain ⟨-, placed⟩ := transact_claim claims applied
      refine ⟨fun env item found => ?_, exclusive_cons.mpr ⟨fun env held gives => ?_, fenced.exclusive⟩⟩
      next =>
        by_cases same : pk = env
        next =>
          subst same
          rw [BuildWorld.board_with_self] at found
          rw [found] at placed
          rw [lease_grants, List.filterMap_cons, lease_grant, if_pos rfl, claims]
          exact placed.symm
        next =>
          rw [BuildWorld.board_with_of_ne _ _ same] at found
          rw [lease_grants, List.filterMap_cons, lease_grant, if_neg same]
          exact fenced.current env item found
      next =>
        rw [finish_of] at gives
        obtain ⟨body, condition, expires_at_us, rfl, -⟩ := granted_shape claims
        split at gives <;> cases gives
    next =>
      obtain ⟨stays, back⟩ := transact_lease none_put applied
      have grantless (env : EnvId) : lease_grant env (⟨party, .board_write pk writes, .ok ()⟩ : BuildEvent ι) = none := by
        rw [lease_grant]
        split
        next =>
          cases claims : granted_version writes with
          | none => rfl
          | some version =>
            obtain ⟨body, condition, expires_at_us, rfl, -⟩ := granted_shape claims
            exact absurd trivial (none_put _ List.mem_cons_self)
        next => rfl
      refine ⟨fun env item found => ?_, exclusive_cons.mpr ⟨fun env version gives => ?_, fenced.exclusive⟩⟩
      next =>
        rw [lease_grants, List.filterMap_cons, grantless]
        by_cases same : pk = env
        next =>
          subst same
          rw [BuildWorld.board_with_self] at found
          rcases stays with kept | gone
          next => exact fenced.current pk item (kept ▸ found)
          next => rw [gone] at found; cases found
        next =>
          rw [BuildWorld.board_with_of_ne _ _ same] at found
          exact fenced.current env item found
      next =>
        rw [finish_of] at gives
        split at gives
        next same =>
          subst same
          -- The version that is given back is that of the lease, which was the last to be granted.
          obtain ⟨item, found, held⟩ := Option.map_eq_some_iff.mp (back version gives).1
          obtain ⟨last, first, granted⟩ := Option.map_eq_some_iff.mp (fenced.current pk item found)
          have own := unreissued version gives
          cases trace : lease_grants pk journal.trace with
          | nil => rw [trace] at first; cases first
          | cons grant earlier =>
            rw [trace] at first own
            obtain rfl : grant = last := Option.some.inj first
            rw [List.find?_cons_of_pos (by rw [granted, held]; exact decide_eq_true rfl)] at own
            exact own
        next => cases gives

theorem other_command {command : BuildCmd} (other : ∀ pk writes, command ≠ .board_write pk writes) (env : EnvId)
    (response : command.Response) :
    lease_grant env (⟨party, command, response⟩ : BuildEvent ι) = none ∧
      finish_of env (⟨party, command, response⟩ : BuildEvent ι) = none := by
  cases command with
  | board_write pk writes => exact absurd rfl (other pk writes)
  | _ => exact ⟨rfl, rfl⟩

theorem Fenced.other {command : BuildCmd} (fenced : Fenced journal) (other : ∀ pk writes, command ≠ .board_write pk writes) :
    Fenced (Traced.exec site.exec party command journal).2 := by
  rw [Traced.exec]
  refine fenced.idle (fun env => ?_) (fun env => (other_command other env _).1) fun env => (other_command other env _).2
  rw [BuildWorld.board, exec_boards other, BuildWorld.board]

theorem step_fenced {command : BuildCmd} (fits : QueueCmd command) (unreissued : Unreissued party command journal)
    (fenced : Fenced journal) : Fenced (Traced.exec site.exec party command journal).2 := by
  cases command with
  | board_write pk writes => exact fenced.board_write fits unreissued
  | _ => exact fenced.other fun _ _ impossible => by cases impossible

end Steps

/-- A worker that gives a lease back to any effect is the last that was granted the environment's lease, in
every run that gives back no version which has been granted again. -/
theorem lease_exclusive {ι : Type} [DecidableEq ι] (site : Site) (queue : BuildQueue) (calls : ι → QueueCall)
    (world : BuildWorld) (free : ∀ env, (world.board env).lease = none)
    {after : Pool ι BuildCmd BuildCmd.Response PyError (fun _ => Unit) (BuildJournal ι)}
    (run : Pool.Run (unreissuing site) ClockMoves (queue_calls queue calls world) after) :
    Exclusive after.shared.trace := by
  have initially : Fenced (queue_calls queue calls world).shared := by
    refine ⟨fun env item found => ?_, trivial⟩
    have none_yet : (world.board env).lease = some item := found
    rw [free env] at none_yet
    cases none_yet
  have yields (party : ι) : ((calls party).code queue).Yields QueueCmd (fun _ _ => True) fun _ => True :=
    call_yields (calls party)
  refine (Pool.run_keeps (I := Fenced) yields (fun _ _ _ _ => trivial)
    (fun _ _ _ fits may fenced => step_fenced fits may fenced) ?_ initially run).exclusive
  rintro before after ⟨clock, rfl⟩ fenced
  exact ⟨fenced.current, fenced.exclusive⟩

/-! ## A lease that starts over -/

def builtCommit : ObjectName := ⟨List.replicate DIGEST_BYTES 0, zeros_sized⟩

inductive QueueClient
  | producer | slow | quick | next
deriving DecidableEq

/-- An environment with one build queued, and three workers. -/
def threeWorkers : QueueClient → QueueCall
  | .producer => .enqueue ⟨"env"⟩ builtCommit DEFAULT_REF 1 false
  | .slow => .work "slow" 200 fun _ => [.complete []]
  | .quick => .work "quick" 200 fun _ => [.release]
  | .next => .work "next" 200 fun _ => [.complete []]

def quietSite : Site := ⟨.none, .ofTable [], 1, fun _ _ _ => .error (.backendUnavailable "no platform")⟩

def BuildWorld.empty : BuildWorld := ⟨.empty 0, fun _ => [], .const 0, ∅, ∅, ∅, []⟩

def defaultQueue : BuildQueue := ⟨1, DEFAULT_LEASE_US⟩

def leasing : Pool QueueClient BuildCmd BuildCmd.Response PyError (fun _ => Unit) (BuildJournal QueueClient) :=
  queue_calls defaultQueue threeWorkers .empty

/-- As long as a lease lasts. -/
def leaseTime (journal : BuildJournal QueueClient) : BuildJournal QueueClient :=
  ⟨{ journal.state with
      world := { journal.state.world with clock := journal.state.world.clock + DEFAULT_LEASE_US } }, journal.trace⟩

/-- The slow worker is overtaken, and comes back while the other still holds the lease. -/
def takenOver : List (Pool.Cue QueueClient (BuildJournal QueueClient)) :=
  [.turn .producer 2, .turn .slow 4, .weather leaseTime, .turn .quick 4, .turn .slow 1, .turn .quick 1]

theorem lease_exclusive_overtaken :
    Exclusive (leasing.play (unreissuing quietSite) takenOver).shared.trace := by
  refine lease_exclusive quietSite defaultQueue threeWorkers .empty (fun env => ?_) (Pool.Run.play ?_ (by decide))
  next => simp [BuildWorld.board, BuildWorld.empty, Board.empty]
  next =>
    intro change member state
    have same : change = leaseTime := by simpa [takenOver] using member
    exact ⟨state.state.world.clock + DEFAULT_LEASE_US, by rw [same, leaseTime]⟩

/-- A party takes its steps as it likes. -/
def workers {ι : Type} (site : Site) (party : ι) : Actor BuildCmd BuildCmd.Response (BuildJournal ι) :=
  ⟨Traced.exec site.exec party, fun _ _ => True⟩

instance {ι : Type} (site : Site) (party : ι) (command : BuildCmd) (journal : BuildJournal ι) :
    Decidable ((workers site party).may command journal) := isTrue trivial

/-- The quick worker takes the lease over and releases it, the next worker starts again at version one, and then
the slow worker completes its build. -/
def startedOver : List (Pool.Cue QueueClient (BuildJournal QueueClient)) :=
  [.turn .producer 2, .turn .slow 4, .weather leaseTime, .turn .quick 5, .turn .next 4, .turn .slow 1]

/-- The lease is not the slow worker's any more, and it gives it back. -/
theorem stale_worker_completes :
    ∃ after : Pool QueueClient BuildCmd BuildCmd.Response PyError (fun _ => Unit) (BuildJournal QueueClient),
      Pool.Run (workers quietSite) ClockMoves leasing after ∧
        ∃ event before, after.shared.trace = event :: before ∧ event.party = .slow ∧
          finish_of ⟨"env"⟩ event = some 1 ∧ lease_grants ⟨"env"⟩ before = [(.next, 1), (.quick, 2), (.slow, 1)] := by
  refine ⟨leasing.play (workers quietSite) startedOver, Pool.Run.play (fun change member state => ?_) (by decide), ?_⟩
  next =>
    have same : change = leaseTime := by simpa [startedOver] using member
    exact ⟨state.state.world.clock + DEFAULT_LEASE_US, by rw [same, leaseTime]⟩
  next =>
    have last : (leasing.play (workers quietSite) startedOver).shared.trace.head?.map
        (fun event => (event.party, finish_of ⟨"env"⟩ event)) = some (.slow, some 1) := by decide
    have earlier : lease_grants ⟨"env"⟩ (leasing.play (workers quietSite) startedOver).shared.trace.tail =
        [(.next, 1), (.quick, 2), (.slow, 1)] := by decide
    obtain ⟨event, first, given⟩ := Option.map_eq_some_iff.mp last
    obtain ⟨party, version⟩ := Prod.mk.inj given
    obtain ⟨before, trace⟩ := List.head?_eq_some_iff.mp first
    rw [trace] at earlier
    exact ⟨event, before, trace, party, version, earlier⟩

end LedgerVcs
