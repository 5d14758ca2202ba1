import LedgerVcs.Build.Pipeline
import LedgerVcs.Build.Leases

set_option autoImplicit false

/-! Who builds a commit, in any interleaving of the calls on its result. -/

namespace LedgerVcs

open Prog (Actor Pool Exchange)

namespace BuildResults

/-! ## Calls, and what has happened -/

inductive ResultCall
  | claim (worker : String) (commit : ObjectName)
  /-- Recorded by the worker that the result names. -/
  | record (result : BuildResult) (finished : result.status.terminal = true)
  | release (worker : String) (commit : ObjectName)
  | invalidate (commit : ObjectName)

def ResultCall.code : ResultCall → BuildAct (Option BuildResult)
  | .claim worker commit => BuildResults.claim commit worker
  | .record result _ => do
      BuildResults.record result
      return none
  | .release _ commit => do
      BuildResults.release commit
      return none
  | .invalidate commit => do
      let _ ← BuildResults.invalidate commit
      return none

/-- A command a party took, and the state that it found. -/
structure Moment (ι : Type) where
  world : BuildWorld
  event : BuildEvent ι

/-- The build world, with every moment that led to it, the latest first. -/
structure Chronicle (ι : Type) where
  state : BuildWorld
  moments : List (Moment ι)

def Chronicle.exec {ι : Type} (site : Site) (party : ι) (command : BuildCmd) (chronicle : Chronicle ι) :
    command.Response × Chronicle ι :=
  ((site.exec command chronicle.state).1,
    ⟨(site.exec command chronicle.state).2,
      ⟨chronicle.state, ⟨party, command, (site.exec command chronicle.state).1⟩⟩ :: chronicle.moments⟩)

/-- The clock goes on. -/
def ClockAdvances {ι : Type} (before after : Chronicle ι) : Prop :=
  ∃ clock, before.state.world.clock ≤ clock ∧
    after = ⟨{ before.state with world := { before.state.world with clock } }, before.moments⟩

/-- Everybody's calls, each at its first step. -/
def result_calls {ι : Type} (calls : ι → ResultCall) (world : BuildWorld) :
    Pool ι BuildCmd BuildCmd.Response PyError (fun _ => Option BuildResult) (Chronicle ι) :=
  ⟨⟨world, []⟩, fun party => (calls party).code⟩

/-! ## Holding a claim -/

/-- What tells a claim that it is granted. -/
def Grants : Exchange BuildCmd BuildCmd.Response → Bool
  | ⟨.claim_build _ _, created⟩ => created
  | ⟨.put_build _ _, _⟩ => true
  -- The claim was lost, and then deleted.
  | ⟨.read_build _, existing⟩ => existing.isNone
  | _ => false

section Holding

variable {ι : Type} (calls : ι → ResultCall)

/-- The worker that the event gives the commit to. -/
def claim_grant (event : BuildEvent ι) : Option (String × ObjectName) :=
  match calls event.party with
  | .claim worker commit => if Grants ⟨event.command, event.response⟩ then some (worker, commit) else none
  | _ => none

/-- The worker records a result or releases its claim, or the result is invalidated. -/
def Ends (worker : String) (commit : ObjectName) (event : BuildEvent ι) : Prop :=
  match calls event.party, event.command with
  | .record result _, .put_build _ _ => result.worker = worker ∧ result.commit = commit
  | .release releasing released, .delete_build _ => releasing = worker ∧ released = commit
  | .invalidate forgotten, .delete_build _ => forgotten = commit
  | _, _ => False

/-- The worker was granted the commit less than the abandonment window ago, and nothing has ended that. -/
def Holds (worker : String) (commit : ObjectName) (now : Int) : List (Moment ι) → Prop
  | [] => False
  | moment :: before =>
    (claim_grant calls moment.event = some (worker, commit) ∧ now - moment.world.world.clock < ABANDONED_CLAIM_US) ∨
      (¬ Ends calls worker commit moment.event ∧ Holds worker commit now before)

instance (worker : String) (commit : ObjectName) (event : BuildEvent ι) :
    Decidable (Ends calls worker commit event) := by
  unfold Ends
  split <;> infer_instance

instance Holds.decidable (worker : String) (commit : ObjectName) (now : Int) :
    (moments : List (Moment ι)) → Decidable (Holds calls worker commit now moments)
  | [] => isFalse id
  | moment :: before =>
    have := decidable worker commit now before
    inferInstanceAs (Decidable ((claim_grant calls moment.event = some (worker, commit) ∧ _) ∨
      (¬ Ends calls worker commit moment.event ∧ _)))

/-- Nobody is granted a commit that another worker holds, and a release removes no other worker's claim. -/
def OneAtATime : List (Moment ι) → Prop
  | [] => True
  | moment :: before =>
    (∀ worker commit, claim_grant calls moment.event = some (worker, commit) →
      ∀ other, other ≠ worker → ¬ Holds calls other commit moment.world.world.clock before) ∧
    (∀ worker commit, calls moment.event.party = .release worker commit → moment.event.command = .delete_build commit →
      ∀ existing, moment.world.builds[commit]? = some existing → existing.status.terminal = false →
        existing.worker = worker) ∧
    OneAtATime before

end Holding

/-! ## Careful calls -/

/-- A claim starts at the time it is granted, is never lost to a deletion, and takes over what is still abandoned; a
release deletes the worker's own claim. -/
def Careful : ResultCall → BuildCmd → BuildWorld → Bool
  | .claim _ _, .claim_build commit running, world =>
      decide (commit ∉ world.builds → running.started_at_us = world.world.clock)
  | .claim _ _, .read_build commit, world => decide (commit ∈ world.builds)
  | .claim _ _, .put_build commit running, world =>
      decide (running.started_at_us = world.world.clock ∧ ∀ existing ∈ world.builds[commit]?,
        existing.status.terminal = false ∧ ABANDONED_CLAIM_US ≤ world.world.clock - existing.started_at_us)
  | .release worker _, .delete_build commit, world =>
      decide (∀ existing ∈ world.builds[commit]?, existing.status.terminal = false ∧ existing.worker = worker)
  | _, _, _ => true

/-- A party takes no step that its call takes carelessly. -/
def careful {ι : Type} (site : Site) (calls : ι → ResultCall) (party : ι) :
    Actor BuildCmd BuildCmd.Response (Chronicle ι) :=
  ⟨Chronicle.exec site party, fun command chronicle => Careful (calls party) command chronicle.state = true⟩

instance {ι : Type} (site : Site) (calls : ι → ResultCall) (party : ι) (command : BuildCmd) (chronicle : Chronicle ι) :
    Decidable ((careful site calls party).may command chronicle) :=
  inferInstanceAs (Decidable (Careful (calls party) command chronicle.state = true))

/-! ## What the calls do -/

/-- The commands of a call. -/
def ResultCmd : ResultCall → BuildCmd → Prop
  | .claim _ _, .base .now_us => True
  | .claim worker commit, .claim_build claimed running | .claim worker commit, .put_build claimed running =>
      claimed = commit ∧ running.worker = worker ∧ running.status = .running
  | .claim _ commit, .read_build read => read = commit
  | .record result _, .put_build commit recorded => commit = result.commit ∧ recorded = result
  | .release _ commit, .read_build read => read = commit
  | .release _ commit, .delete_build deleted => deleted = commit
  | .invalidate commit, .delete_build deleted => deleted = commit
  | _, _ => False

theorem sends_yields {call : ResultCall} {command : BuildCmd} {α : Type} {rest : command.Response → BuildAct α}
    (fits : ResultCmd call command)
    (goes : ∀ response, (rest response).Yields (ResultCmd call) (fun _ _ => True) fun _ => True) :
    (send command >>= rest).Yields (ResultCmd call) (fun _ _ => True) fun _ => True :=
  .bind (.ask fits fun response _ => goes response)

theorem result_call_yields (call : ResultCall) :
    call.code.Yields (ResultCmd call) (fun _ _ => True) fun _ => True := by
  cases call with
  | claim worker commit =>
    refine sends_yields trivial fun now => ?_
    refine sends_yields ⟨rfl, rfl, rfl⟩ fun created => ?_
    cases created with
    | true => trivial
    | false =>
      refine sends_yields rfl fun existing => ?_
      cases existing with
      | none => trivial
      | some existing =>
        dsimp only
        split_ifs
        next => trivial
        next => trivial
        next => exact sends_yields ⟨rfl, rfl, rfl⟩ fun _ => trivial
  | record result finished => exact sends_yields ⟨rfl, rfl⟩ fun _ => trivial
  | release worker commit =>
    have released : (BuildResults.release commit).Yields (ResultCmd (.release worker commit)) (fun _ _ => True)
        fun _ => True := by
      refine sends_yields rfl fun existing => ?_
      cases existing with
      | none => trivial
      | some existing =>
        dsimp only
        split_ifs
        next => trivial
        next => exact sends_yields rfl fun _ => trivial
    exact .bind (released.mono (fun _ fits => fits) fun _ _ => trivial)
  | invalidate commit => exact sends_yields rfl fun _ => trivial

/-- A claim returns nothing exactly when the last it was told was that it is granted. -/
theorem claim_recalls (worker : String) (commit : ObjectName) (told : List (Exchange BuildCmd BuildCmd.Response)) :
    (BuildResults.claim commit worker).Recalls (fun _ _ => True) (fun _ _ => True)
      (fun outcome later => outcome = .ok none ↔ (later.head?.map Grants) = some true) told := by
  refine .asking trivial fun now _ => ?_
  refine .asking trivial fun created _ => ?_
  cases created with
  | true => exact ⟨fun _ => rfl, fun _ => rfl⟩
  | false =>
    refine .asking trivial fun existing _ => ?_
    cases existing with
    | none => exact ⟨fun _ => rfl, fun _ => rfl⟩
    | some existing =>
      dsimp only
      split_ifs
      next => exact ⟨fun impossible => (by cases impossible), fun impossible => (by cases impossible)⟩
      next => exact ⟨fun impossible => (by cases impossible), fun impossible => (by cases impossible)⟩
      next => exact .asking trivial fun _ _ => ⟨fun _ => rfl, fun _ => rfl⟩

/-! ## Whoever holds a commit is on record -/

section Steps

variable {ι : Type} {calls : ι → ResultCall} {site : Site} {party : ι} {chronicle : Chronicle ι}

/-- The record of a commit that the worker holds: a finished build, or the worker's own claim, of the same time. -/
def OnRecord (world : BuildWorld) (worker : String) (commit : ObjectName) (now : Int) : Prop :=
  ∃ existing, world.builds[commit]? = some existing ∧
    (existing.status.terminal = true ∨ existing.worker = worker ∧ now - existing.started_at_us < ABANDONED_CLAIM_US)

structure Watched (calls : ι → ResultCall) (chronicle : Chronicle ι) : Prop where
  on_record : ∀ worker commit now, chronicle.state.world.clock ≤ now →
    Holds calls worker commit now chronicle.moments → OnRecord chronicle.state worker commit now
  alone : OneAtATime calls chronicle.moments

theorem Watched.absent (watched : Watched calls chronicle) {commit : ObjectName} (absent : commit ∉ chronicle.state.builds)
    (worker : String) {now : Int} (later : chronicle.state.world.clock ≤ now) :
    ¬ Holds calls worker commit now chronicle.moments := by
  intro holds
  obtain ⟨existing, found, -⟩ := watched.on_record worker commit now later holds
  exact absent (Std.ExtTreeMap.isSome_getElem?_iff_mem.mp (by rw [found]; rfl))

/-- Nobody holds what may be taken over. -/
theorem Watched.abandoned (watched : Watched calls chronicle) {commit : ObjectName}
    (over_ : ∀ existing ∈ chronicle.state.builds[commit]?, existing.status.terminal = false ∧
      ABANDONED_CLAIM_US ≤ chronicle.state.world.clock - existing.started_at_us)
    (worker : String) {now : Int} (later : chronicle.state.world.clock ≤ now) :
    ¬ Holds calls worker commit now chronicle.moments := by
  intro holds
  obtain ⟨existing, found, finished | ⟨-, young⟩⟩ := watched.on_record worker commit now later holds
  next => rw [(over_ existing found).1] at finished; cases finished
  next =>
    have old := (over_ existing found).2
    omega

/-- A step that grants nothing and leaves the records alone. -/
theorem Watched.quiet {command : BuildCmd} (watched : Watched calls chronicle)
    (ungranted : claim_grant calls ⟨party, command, (site.exec command chronicle.state).1⟩ = none)
    (undeleted : ∀ commit, command ≠ .delete_build commit)
    (builds : (site.exec command chronicle.state).2.builds = chronicle.state.builds)
    (clock : (site.exec command chronicle.state).2.world.clock = chronicle.state.world.clock) :
    Watched calls (Chronicle.exec site party command chronicle).2 := by
  refine ⟨fun worker commit now later holds => ?_, fun worker commit grant => ?_, fun _ commit _ deletes => ?_,
    watched.alone⟩
  next =>
    rcases holds with ⟨grant, -⟩ | ⟨-, holds⟩
    next => rw [ungranted] at grant; cases grant
    next =>
      obtain ⟨existing, found, kind⟩ := watched.on_record worker commit now (clock ▸ later) holds
      exact ⟨existing, by rw [← found, ← builds]; rfl, kind⟩
  next => rw [ungranted] at grant; cases grant
  next => exact absurd deletes (undeleted commit)

/-- A step that grants a commit nobody holds, and says so. -/
theorem Watched.grant {command : BuildCmd} {worker : String} {commit : ObjectName}
    (watched : Watched calls chronicle) (running : BuildResult)
    (granted : claim_grant calls ⟨party, command, (site.exec command chronicle.state).1⟩ = some (worker, commit))
    (undeleted : ∀ commit, command ≠ .delete_build commit)
    (unheld : ∀ other now, chronicle.state.world.clock ≤ now → ¬ Holds calls other commit now chronicle.moments)
    (after : (site.exec command chronicle.state).2 =
      { chronicle.state with builds := chronicle.state.builds.insert commit running })
    (own : running.worker = worker) (started : running.started_at_us = chronicle.state.world.clock) :
    Watched calls (Chronicle.exec site party command chronicle).2 := by
  refine ⟨fun other claimed now later holds => ?_, fun other claimed grant => ?_, fun _ commit _ deletes => ?_,
    watched.alone⟩
  next =>
    have later : chronicle.state.world.clock ≤ now := by
      change (site.exec command chronicle.state).2.world.clock ≤ now at later
      rwa [after] at later
    change OnRecord (site.exec command chronicle.state).2 other claimed now
    rw [after]
    rcases holds with ⟨grant, recent⟩ | ⟨-, holds⟩
    next =>
      cases granted.symm.trans grant
      exact ⟨running, by simp, .inr ⟨own, by rw [started]; exact recent⟩⟩
    next =>
      obtain ⟨existing, found, kind⟩ := watched.on_record other claimed now later holds
      have different : commit ≠ claimed := by
        rintro rfl
        exact unheld other now later holds
      exact ⟨existing, by simpa [Std.ExtTreeMap.getElem?_insert, different] using found, kind⟩
  next =>
    cases granted.symm.trans grant
    exact fun other _ => unheld other _ (le_refl _)
  next => exact absurd deletes (undeleted commit)

theorem Watched.settle {command : BuildCmd} (watched : Watched calls chronicle) (commit : ObjectName)
    (ungranted : claim_grant calls ⟨party, command, (site.exec command chronicle.state).1⟩ = none)
    (others : ∀ other ≠ commit,
      (site.exec command chronicle.state).2.builds[other]? = chronicle.state.builds[other]?)
    (clock : (site.exec command chronicle.state).2.world.clock = chronicle.state.world.clock)
    (settled : ∀ worker now, chronicle.state.world.clock ≤ now →
      ¬ Ends calls worker commit ⟨party, command, (site.exec command chronicle.state).1⟩ →
        Holds calls worker commit now chronicle.moments → OnRecord (site.exec command chronicle.state).2 worker commit now)
    (released : ∀ worker commit, calls party = .release worker commit → command = .delete_build commit →
      ∀ existing, chronicle.state.builds[commit]? = some existing → existing.status.terminal = false →
        existing.worker = worker) :
    Watched calls (Chronicle.exec site party command chronicle).2 := by
  refine ⟨fun worker claimed now later holds => ?_, fun worker claimed grant => ?_, released, watched.alone⟩
  next =>
    have later : chronicle.state.world.clock ≤ now := clock ▸ later
    rcases holds with ⟨grant, -⟩ | ⟨unended, holds⟩
    next => rw [ungranted] at grant; cases grant
    next =>
      by_cases same : claimed = commit
      next =>
        subst same
        exact settled worker now later unended holds
      next =>
        obtain ⟨existing, found, kind⟩ := watched.on_record worker claimed now later holds
        exact ⟨existing, (others claimed same).trans found, kind⟩
  next => rw [ungranted] at grant; cases grant

/-- One command of a careful call. -/
theorem step_watched {command : BuildCmd} (fits : ResultCmd (calls party) command)
    (careful : Careful (calls party) command chronicle.state = true) (watched : Watched calls chronicle) :
    Watched calls (Chronicle.exec site party command chronicle).2 := by
  cases call : calls party with
  | claim worker commit =>
    rw [call] at fits careful
    have grants (response : command.Response) : claim_grant calls ⟨party, command, response⟩ =
        if Grants ⟨command, response⟩ then some (worker, commit) else none := by
      rw [claim_grant, call]
    cases command with
    | base command =>
      cases command with
      | now_us => exact watched.quiet (grants _) (fun _ impossible => by cases impossible) rfl rfl
      | _ => exact absurd fits id
    | claim_build claimed running =>
      obtain ⟨rfl, own, -⟩ := fits
      by_cases present : claimed ∈ chronicle.state.builds
      next =>
        refine watched.quiet ((grants _).trans ?_) (fun _ impossible => by cases impossible) ?_ rfl
        next => simp [Grants, Site.exec, present]
        next =>
          refine Std.ExtTreeMap.ext_getElem? fun other => ?_
          simp only [Site.exec, Std.ExtTreeMap.getElem?_insertIfNew]
          split
          next new =>
            obtain rfl := Std.LawfulEqOrd.eq_of_compare new.1
            exact absurd present new.2
          next => rfl
      next =>
        refine watched.grant running ((grants _).trans ?_) (fun _ impossible => by cases impossible)
          (fun other now later => watched.absent present other later) ?_ own (of_decide_eq_true careful present)
        next => simp [Grants, Site.exec, present]
        next =>
          have inserted : chronicle.state.builds.insertIfNew claimed running = chronicle.state.builds.insert claimed running := by
            refine Std.ExtTreeMap.ext_getElem? fun other => ?_
            simp only [Std.ExtTreeMap.getElem?_insertIfNew, Std.ExtTreeMap.getElem?_insert]
            by_cases same : compare claimed other = .eq
            next =>
              obtain rfl := Std.LawfulEqOrd.eq_of_compare same
              simp [present]
            next => simp [same]
          simp only [Site.exec, inserted]
    | read_build read =>
      obtain ⟨existing, found⟩ := Option.isSome_iff_exists.mp (Std.ExtTreeMap.isSome_getElem?_iff_mem.mpr (of_decide_eq_true careful))
      refine watched.quiet ((grants _).trans ?_) (fun _ impossible => by cases impossible) rfl rfl
      simp [Grants, Site.exec, found]
    | put_build claimed running =>
      obtain ⟨rfl, own, -⟩ := fits
      obtain ⟨started, abandoned⟩ := of_decide_eq_true careful
      exact watched.grant running (grants _) (fun _ impossible => by cases impossible)
        (fun other now later => watched.abandoned abandoned other later) rfl own started
    | _ => exact absurd fits id
  | record result finished =>
    rw [call] at fits
    cases command with
    | put_build commit recorded =>
      obtain ⟨rfl, rfl⟩ := fits
      refine watched.settle recorded.commit (by rw [claim_grant, call]) (fun other different => ?_) rfl (fun worker now _ _ _ => ?_)
        fun _ _ releases => ?_
      next => simp [Site.exec, Std.ExtTreeMap.getElem?_insert, Ne.symm different]
      next => exact ⟨recorded, by simp [Site.exec], .inl finished⟩
      next => rw [call] at releases; cases releases
    | _ => exact absurd fits id
  | release worker commit =>
    rw [call] at fits careful
    cases command with
    | read_build read =>
      exact watched.quiet (by rw [claim_grant, call]) (fun _ impossible => by cases impossible) rfl rfl
    | delete_build deleted =>
      subst fits
      have own_claim := of_decide_eq_true careful
      refine watched.settle deleted (by rw [claim_grant, call]) (fun other different => ?_) rfl
        (fun holder now later unended holds => ?_) fun _ _ releases deletes existing found _ => ?_
      next => simp [Site.exec, Std.ExtTreeMap.getElem?_erase, Ne.symm different]
      next =>
        obtain ⟨existing, found, finished | ⟨own, -⟩⟩ := watched.on_record holder deleted now later holds
        next => rw [(own_claim existing found).1] at finished; cases finished
        next =>
          refine absurd ?_ unended
          rw [Ends, call]
          exact ⟨(own_claim existing found).2.symm.trans own, rfl⟩
      next =>
        cases call.symm.trans releases
        exact (own_claim existing found).2
    | _ => exact absurd fits id
  | invalidate commit =>
    rw [call] at fits
    cases command with
    | delete_build deleted =>
      subst fits
      refine watched.settle deleted (by rw [claim_grant, call]) (fun other different => ?_) rfl
        (fun holder now later unended holds => ?_) fun _ _ releases => ?_
      next => simp [Site.exec, Std.ExtTreeMap.getElem?_erase, Ne.symm different]
      next =>
        refine absurd ?_ unended
        rw [Ends, call]
      next => rw [call] at releases; cases releases
    | _ => exact absurd fits id

end Steps

/-- In every run of careful calls, a commit is built by one worker at a time. -/
theorem builds_one_at_a_time {ι : Type} [DecidableEq ι] (site : Site) (calls : ι → ResultCall) (world : BuildWorld)
    {after : Pool ι BuildCmd BuildCmd.Response PyError (fun _ => Option BuildResult) (Chronicle ι)}
    (run : Pool.Run (careful site calls) ClockAdvances (result_calls calls world) after) :
    OneAtATime calls after.shared.moments := by
  have initially : Watched calls (result_calls calls world).shared := ⟨fun _ _ _ _ => False.elim, trivial⟩
  refine (Pool.run_keeps (I := Watched calls) (fun party => result_call_yields (calls party)) (fun _ _ _ _ => trivial)
    (fun _ _ _ fits may watched => step_watched fits may watched) ?_ initially run).alone
  rintro before after ⟨clock, later, rfl⟩ watched
  exact ⟨fun worker commit now past => watched.on_record worker commit now (le_trans later past), watched.alone⟩

/-! ## Careless calls -/

inductive ResultClient
  | first | second | third
deriving DecidableEq

/-- The second worker claims the commit that the first has claimed, and the first releases its claim. -/
def claimAndRelease : ResultClient → ResultCall
  | .first => .claim "first" builtCommit
  | .second => .claim "second" builtCommit
  | .third => .release "first" builtCommit

theorem builds_one_at_a_time_released :
    OneAtATime claimAndRelease ((result_calls claimAndRelease .empty).play (careful quietSite claimAndRelease)
      [.turn .first 2, .turn .second 3, .turn .third 2]).shared.moments :=
  builds_one_at_a_time quietSite claimAndRelease .empty
    (Pool.Run.play (fun _ member => by simp at member) (by decide))

/-- A party takes its steps as it likes. -/
def result_workers {ι : Type} (site : Site) (party : ι) : Actor BuildCmd BuildCmd.Response (Chronicle ι) :=
  ⟨Chronicle.exec site party, fun _ _ => True⟩

instance {ι : Type} (site : Site) (party : ι) (command : BuildCmd) (chronicle : Chronicle ι) :
    Decidable ((result_workers site party).may command chronicle) := isTrue trivial

/-- Long enough to abandon a claim. -/
def abandonedTime {ι : Type} (chronicle : Chronicle ι) : Chronicle ι :=
  ⟨{ chronicle.state with
      world := { chronicle.state.world with clock := chronicle.state.world.clock + ABANDONED_CLAIM_US } }, chronicle.moments⟩

/-- Three workers claim a commit. -/
def claimThrice : ResultClient → ResultCall
  | .first => .claim "first" builtCommit
  | .second => .claim "second" builtCommit
  | .third => .claim "third" builtCommit

/-- Both later workers read the abandoned claim of the first before either takes it over. -/
def takenOverTwice : List (Pool.Cue ResultClient (Chronicle ResultClient)) :=
  [.turn .first 2, .weather abandonedTime, .turn .second 3, .turn .third 3, .turn .second 1, .turn .third 1]

/-- Who was granted which claim, the latest first. -/
def claim_grants {ι : Type} (calls : ι → ResultCall) (chronicle : Chronicle ι) : List (String × ObjectName × Int) :=
  chronicle.moments.filterMap fun moment =>
    (claim_grant calls moment.event).map fun grant => (grant.1, grant.2, moment.world.world.clock)

/-- The second worker claims the commit, and the third, which holds nothing, releases it. -/
def claimAndMeddle : ResultClient → ResultCall
  | .first => .claim "first" builtCommit
  | .second => .claim "second" builtCommit
  | .third => .release "third" builtCommit

theorem not_alone {ι : Type} {calls : ι → ResultCall} {moments : List (Moment ι)} {worker other : String}
    {commit : ObjectName} {now : Int}
    (last : (moments.head?.map fun moment => (claim_grant calls moment.event, moment.world.world.clock)) =
      some (some (worker, commit), now))
    (different : other ≠ worker) (held : Holds calls other commit now moments.tail) : ¬ OneAtATime calls moments := by
  intro alone
  obtain ⟨moment, first, same⟩ := Option.map_eq_some_iff.mp last
  obtain ⟨grant, rfl⟩ := Prod.mk.inj same
  obtain ⟨before, rfl⟩ := List.head?_eq_some_iff.mp first
  exact alone.1 worker commit grant other different held

/-- Two workers take over one abandoned claim at the same time; and a release by a worker that was granted nothing
lets another worker build what the first is building. -/
theorem two_builders :
    (∃ after : Pool ResultClient BuildCmd BuildCmd.Response PyError (fun _ => Option BuildResult) (Chronicle ResultClient),
      Pool.Run (result_workers quietSite) ClockAdvances (result_calls claimThrice .empty) after ∧
        claim_grants claimThrice after.shared =
          [("third", builtCommit, ABANDONED_CLAIM_US), ("second", builtCommit, ABANDONED_CLAIM_US), ("first", builtCommit, 0)] ∧
        ¬ OneAtATime claimThrice after.shared.moments) ∧
    ∃ after : Pool ResultClient BuildCmd BuildCmd.Response PyError (fun _ => Option BuildResult) (Chronicle ResultClient),
      Pool.Run (result_workers quietSite) ClockAdvances (result_calls claimAndMeddle .empty) after ∧
        claim_grants claimAndMeddle after.shared = [("second", builtCommit, 0), ("first", builtCommit, 0)] ∧
        ¬ OneAtATime claimAndMeddle after.shared.moments := by
  refine ⟨⟨(result_calls claimThrice .empty).play (result_workers quietSite) takenOverTwice,
    Pool.Run.play (fun change member state => ?_) (by decide), by decide,
      @not_alone _ _ _ "third" "second" builtCommit ABANDONED_CLAIM_US (by decide) (by decide) (by decide)⟩,
    ⟨(result_calls claimAndMeddle .empty).play (result_workers quietSite)
      [.turn .first 2, .turn .third 2, .turn .second 2],
      Pool.Run.play (fun _ member => by simp at member) (by decide), by decide,
      @not_alone _ _ _ "second" "first" builtCommit 0 (by decide) (by decide) (by decide)⟩⟩
  have same : change = abandonedTime := by simpa [takenOverTwice] using member
  subst same
  exact ⟨_, by simp [ABANDONED_CLAIM_US], rfl⟩

end BuildResults

end LedgerVcs
