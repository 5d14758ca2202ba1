import LedgerVcs.Meta.Retries
import LedgerVcs.Service.Forks

set_option autoImplicit false

/-! A publish that is asked for again under its key. -/

namespace LedgerVcs

open Prog (ofExcept run_bind_ok)

section Frames

variable {corpus : Corpus} {env : EnvId} {world after : World}

theorem session_appends (command : Cmd) (fits : SessionCmd env command) : AppendCmd command := by
  cases command with
  | transact_write pk writes =>
    intro write member
    have session := fits.2 write member
    cases write with
    | emit => cases session
    | put key | delete key =>
      cases key with
      | session | session_page => trivial
      | _ => cases session
  | _ => trivial

theorem covers_appends (command : Cmd) (covers : CoversCmd env command) : AppendCmd command := by
  rcases covers with session | ⟨name, rfl⟩ | ⟨name, rfl⟩
  next => exact session_appends command session
  next => trivial
  next => trivial

theorem building_partitions {command : Cmd} (building : Building command) (world : World) :
    (exec corpus command world).2.partitions = world.partitions := by
  cases command with
  | transact_write | backend_delete => cases building
  | _ => rfl

theorem runs_building (builder : Builder corpus) (current : Option Ref) (world : World) (pk : EnvId) :
    (runs corpus (builder.build current) world).2.partition pk = world.partition pk := by
  have same : (runs corpus (builder.build current) world).2.partitions = world.partitions :=
    (builder.builds current).run_keeps (answered corpus) (I := fun now => now.partitions = world.partitions)
      (fun _ now building same => (building_partitions building now).trans same) rfl
  rw [World.partition, World.partition, same]

end Frames

namespace Publication

/-- The publish asked for again, with a session and perhaps a change id of its own. -/
def again (publication : Publication) (drawn_session : SessionId) (change_id : ChangeId) : Publication :=
  { publication with drawn_session, change_id }

/-- The state in which a publish calls its builder. -/
def opened (corpus : Corpus) (publication : Publication) (world : World) : World :=
  (runs corpus (begin_write publication.env publication.drawn_session publication.author WRITE_LEASE_TTL_US) world).2

/-- The builder returns the tree, given the ref as it is now. -/
def Builds (corpus : Corpus) (publication : Publication) (build : TreeBuilder) (world : World) (tree : ObjectName) : Prop :=
  ∃ stats after, runs corpus (build (((world.partition publication.env).refs[publication.ref]?).map Item.body))
    (publication.opened corpus world) = (.ok (tree, stats), after)

section Original

variable {corpus : Corpus} {publication : Publication} {world after : World} {key : String}

theorem move_call {request : Request} {target : ObjectName} {current : Option Ref} :
    ∃ call : MoveCall, publication.move request target current = call.code publication.env publication.idempotency_key ∧
      call.request = request := by
  cases current with
  | none =>
    exact ⟨.create publication.ref target publication.author .permanent none publication.change_id request, rfl, rfl⟩
  | some current =>
    exact ⟨.update publication.ref current.generation target publication.author publication.change_id request .update_ref,
      rfl, rfl⟩

/-- What a publish that moved the ref leaves under its key. -/
theorem finish_recorded {session : SessionId} {current : Option Ref} {request : Request} {tree : ObjectName}
    {stats : IngestStats} {result : CommitResult} (keyed : publication.idempotency_key = some key)
    (ran : runs corpus (publication.finish corpus session current request tree stats) world = (.ok result, after))
    (fresh : result.replayed = false) :
    ∃ sk record, idem_sk key = .ok sk ∧ (after.partition publication.env).recorded (some key) = some record ∧
      record.fingerprint = request := by
  obtain ⟨now, middle, -, ran⟩ := runs_bind.mp ran
  obtain ⟨outcome, middle, -, ran⟩ := runs_bind.mp ran
  obtain ⟨below, middle, -, ran⟩ := runs_bind.mp ran
  obtain ⟨count, middle, -, ran⟩ := runs_bind.mp ran
  obtain ⟨update, moved, moves, ran⟩ := runs_bind.mp ran
  obtain ⟨kept, middle, walked, ran⟩ := runs_bind.mp ran
  obtain ⟨added, last, graduated, ran⟩ := runs_bind.mp ran
  cases ran
  obtain ⟨call, same, asked⟩ := @move_call publication request outcome.name current
  rw [same, keyed] at moves
  obtain ⟨-, sk, record, valid, found, fits, -⟩ := move_recorded moves fresh
  have still := (@tree_closure_yields corpus tree).run_still (answered corpus) (fun command now reads => exec_reads reads now)
    moved
  rw [show Prog.run _ _ _ = _ from walked] at still
  obtain ⟨count, other, graduates, beside, -⟩ := @runs_graduate corpus publication.env (outcome.name :: kept) middle
  cases graduates.symm.trans graduated
  refine ⟨sk, record, valid, ?_, fits.trans asked⟩
  rw [beside, ← found, ← show middle = moved from still]
  rfl

theorem publish_recorded {builder : Builder corpus} {result : CommitResult} (keyed : publication.idempotency_key = some key)
    (ran : runs corpus (publish corpus publication builder.build) world = (.ok result, after)) (fresh : result.replayed = false) :
    ∃ tree sk record, publication.Builds corpus builder.build world tree ∧ idem_sk key = .ok sk ∧
      (after.partition publication.env).recorded (some key) = some record ∧
      record.fingerprint = .commit publication.ref tree := by
  obtain ⟨current, middle, read, ran⟩ := runs_bind.mp ran
  cases read
  obtain ⟨session, began, begins, ran⟩ := runs_bind.mp ran
  obtain ⟨last, body, ends⟩ := Prog.run_ensuring_ok ran
  obtain ⟨⟨tree, stats⟩, built, builds, body⟩ := runs_bind.mp body
  obtain ⟨recorded, middle, looked, body⟩ := runs_bind.mp body
  have opened : publication.opened corpus world = began := congrArg Prod.snd begins
  rw [Publication.recorded, keyed] at looked
  obtain ⟨rfl, rfl, -⟩ := recorded_outcome_ran looked
  cases found : (built.partition publication.env).recorded (some key) with
  | some record =>
    rw [found] at body
    obtain ⟨published, middle, -, body⟩ := runs_bind.mp body
    cases body
    cases fresh
  | none =>
    rw [found] at body
    obtain ⟨sk, record, valid, there, fits⟩ := finish_recorded keyed body fresh
    refine ⟨tree, sk, record, ⟨stats, built, opened ▸ builds⟩, valid, ?_, fits⟩
    have leases := @runs_leases corpus publication.env _ _ _ (end_session_yields session.session_id) last
    rw [show runs _ _ _ = _ from ends] at leases
    exact (leases_recorded leases (some key)).trans there

end Original

section Retry

variable {corpus : Corpus} {publication : Publication} {world : World} {key : String} {builder : Builder corpus}

theorem opened_leases (world : World) : Leases publication.env world (publication.opened corpus world) :=
  runs_leases (begin_write_yields publication.drawn_session publication.author WRITE_LEASE_TTL_US) world

/-- A publish is its body between a session's beginning and its end. -/
theorem runs_publish {build : TreeBuilder} (fresh : (world.partition publication.env).Sessionless publication.drawn_session) :
    ∃ after, runs corpus (publish corpus publication build) world =
        ((runs corpus (publication.body corpus build (((world.partition publication.env).refs[publication.ref]?).map Item.body)
          publication.drawn_session) (publication.opened corpus world)).1, after) ∧
      Leases publication.env (runs corpus (publication.body corpus build
        (((world.partition publication.env).refs[publication.ref]?).map Item.body) publication.drawn_session)
          (publication.opened corpus world)).2 after := by
  obtain ⟨session, began, begins, drawn, -⟩ := @runs_begin_write corpus publication.env world publication.drawn_session
    publication.author WRITE_LEASE_TTL_US fresh
  have opened : publication.opened corpus world = began := congrArg Prod.snd begins
  have read : runs corpus (try_get_ref publication.env publication.ref) world =
      (.ok (((world.partition publication.env).refs[publication.ref]?).map Item.body), world) := rfl
  rcases body : runs corpus (publication.body corpus build
    (((world.partition publication.env).refs[publication.ref]?).map Item.body) publication.drawn_session) began with
    ⟨outcome, closed⟩
  obtain ⟨after, ends⟩ := @runs_end_session corpus publication.env publication.drawn_session closed
  have leases := @runs_leases corpus publication.env _ _ _ (end_session_yields publication.drawn_session) closed
  rw [show runs _ _ _ = _ from ends] at leases
  rw [opened, body]
  refine ⟨after, ?_, leases⟩
  rw [publish, runs, run_bind_ok _ read, run_bind_ok _ begins, drawn]
  exact Prog.run_ensuring body ends

/-- What the body of a retry comes to, once its key has a record. -/
theorem runs_body_recorded {current : Option Ref} {session : SessionId} {record : IdempotencyRecord} {sk : SortKey}
    (keyed : publication.idempotency_key = some key) (valid : idem_sk key = .ok sk)
    (found : (world.partition publication.env).recorded (some key) = some record) :
    runs corpus (publication.body corpus builder.build current session) world =
      match runs corpus (builder.build current) world with
      | (.error error, after) => (.error error, after)
      | (.ok (tree, stats), after) =>
        if record.fingerprint = .commit publication.ref tree then
          match (world.partition publication.env).refs[publication.ref]? with
          | some row =>
            (.ok ⟨row.body.target, publication.ref, row.body.generation, stats, record.op_sequence, true⟩, after)
          | none => (.error (.notFound "ref does not exist"), after)
        else (.error (.idempotencyMismatch "idempotency key was reused with a different request"), after) := by
  have kept := runs_building builder current world publication.env
  rcases built : runs corpus (builder.build current) world with ⟨outcome, after⟩
  rw [built] at kept
  cases outcome with
  | error error => exact Prog.run_bind_error built _
  | ok pair =>
    obtain ⟨tree, stats⟩ := pair
    have looked := @runs_recorded corpus publication.env after key (.commit publication.ref tree) record sk valid
      (kept.symm ▸ found)
    have asked : publication.recorded (.commit publication.ref tree) =
        recorded_outcome publication.env key (.commit publication.ref tree) := by
      rw [Publication.recorded, keyed]
    rw [← asked] at looked
    refine (run_bind_ok _ built).trans ?_
    by_cases fits : record.fingerprint = .commit publication.ref tree
    next =>
      rw [if_pos fits] at looked
      have read := @runs_get_ref corpus publication.env after publication.ref
      rw [show after.partition publication.env = world.partition publication.env from kept] at read
      simp only [fits, if_true]
      refine (run_bind_ok _ looked).trans ?_
      cases there : (world.partition publication.env).refs[publication.ref]? with
      | none =>
        rw [there] at read
        exact Prog.run_bind_error read _
      | some row =>
        rw [there] at read
        exact run_bind_ok _ read
    next =>
      rw [if_neg fits] at looked
      simp only [fits, if_false]
      exact Prog.run_bind_error looked _

theorem body_replays {current : Option Ref} {session : SessionId} {record : IdempotencyRecord} {sk : SortKey}
    (keyed : publication.idempotency_key = some key) (valid : idem_sk key = .ok sk)
    (found : (world.partition publication.env).recorded (some key) = some record) (result : CommitResult) :
    (runs corpus (publication.body corpus builder.build current session) world).1 = .ok result ↔
      ∃ tree stats after row, runs corpus (builder.build current) world = (.ok (tree, stats), after) ∧
        record.fingerprint = .commit publication.ref tree ∧
        (world.partition publication.env).refs[publication.ref]? = some row ∧
        result = ⟨row.body.target, publication.ref, row.body.generation, stats, record.op_sequence, true⟩ := by
  rw [runs_body_recorded keyed valid found]
  rcases runs corpus (builder.build current) world with ⟨⟨error⟩ | ⟨tree, stats⟩, after⟩
  next => simp
  next =>
    by_cases fits : record.fingerprint = .commit publication.ref tree
    next => cases (world.partition publication.env).refs[publication.ref]? <;> simp [fits, eq_comm]
    next => simp [fits]

theorem body_keeps {current : Option Ref} {session : SessionId} {record : IdempotencyRecord} {sk : SortKey}
    (keyed : publication.idempotency_key = some key) (valid : idem_sk key = .ok sk)
    (found : (world.partition publication.env).recorded (some key) = some record) (pk : EnvId) :
    (runs corpus (publication.body corpus builder.build current session) world).2.partition pk = world.partition pk := by
  rw [runs_body_recorded keyed valid found, ← runs_building builder current world pk]
  rcases runs corpus (builder.build current) world with ⟨⟨error⟩ | ⟨tree, stats⟩, after⟩
  next => rfl
  next =>
    dsimp only
    split
    next => cases (world.partition publication.env).refs[publication.ref]? <;> rfl
    next => rfl

end Retry

end Publication

/-- A run that moves no ref and returns the original commit and generation. -/
def Republishes (corpus : Corpus) (retry : Publication) (build : TreeBuilder) (original : CommitResult) (world : World) :
    Prop :=
  ∃ result after, runs corpus (publish corpus retry build) world = (.ok result, after) ∧
    result.commit = original.commit ∧ result.generation = original.generation ∧
    ∀ pk, (after.partition pk).refs = (world.partition pk).refs

/-- The retry of a keyed publish that went through repeats its commit exactly if its builder returns the original's tree,
and the ref is there with the target and the generation that the original gave it. -/
theorem publish_retry_exact (corpus : Corpus) (publication : Publication) (builder : Builder corpus) (key : String)
    (first committed later : World) (original : CommitResult) (drawn_session : SessionId) (change_id : ChangeId)
    (keyed : publication.idempotency_key = some key)
    (returned : runs corpus (publish corpus publication builder.build) first = (.ok original, committed))
    (fresh : original.replayed = false)
    (extends_to : (committed.partition publication.env).Extends (later.partition publication.env))
    (unused : (later.partition publication.env).Sessionless drawn_session) :
    Republishes corpus (publication.again drawn_session change_id) builder.build original later ↔
      (∃ tree, publication.Builds corpus builder.build first tree ∧
        (publication.again drawn_session change_id).Builds corpus builder.build later tree) ∧
      ∃ row, (later.partition publication.env).refs[publication.ref]? = some row ∧ row.body.target = original.commit ∧
        row.body.generation = original.generation := by
  obtain ⟨tree, sk, record, built, valid, found, fits⟩ := publication.publish_recorded keyed returned fresh
  have still := extends_to.records key record found
  obtain ⟨after, ran, leases⟩ := @Publication.runs_publish corpus (publication.again drawn_session change_id) later
    builder.build unused
  have opens := @Publication.opened_leases corpus (publication.again drawn_session change_id) later
  have refs : (((publication.again drawn_session change_id).opened corpus later).partition publication.env).refs =
      (later.partition publication.env).refs := leases_refs opens publication.env
  have recorded : (((publication.again drawn_session change_id).opened corpus later).partition publication.env).recorded
      (some key) = some record := (leases_recorded opens (some key)).trans still
  have replays (result : CommitResult) := @Publication.body_replays corpus (publication.again drawn_session change_id)
    ((publication.again drawn_session change_id).opened corpus later) key builder
    (((later.partition publication.env).refs[publication.ref]?).map Item.body) drawn_session record sk keyed valid recorded
    result
  constructor
  next =>
    rintro ⟨result, final, ran', commit, generation, -⟩
    obtain ⟨tree', stats, built', row, builds, fits', there, rfl⟩ :=
      (replays result).mp (congrArg Prod.fst (ran.symm.trans ran'))
    have same := fits.symm.trans fits'
    obtain rfl : tree = tree' := by
      injection same
    exact ⟨⟨tree, built, stats, built', builds⟩, row, refs ▸ there, commit, generation⟩
  next =>
    rintro ⟨⟨tree', ⟨stats, built', builds⟩, stats', rebuilt, rebuilds⟩, row, there, commit, generation⟩
    obtain ⟨stats'', built'', builds'⟩ := built
    cases builds.symm.trans builds'
    have outcome := (replays _).mpr
      ⟨tree, stats', rebuilt, row, rebuilds, fits, (congrArg (·[publication.ref]?) refs).trans there, rfl⟩
    refine ⟨_, after, ran.trans (Prod.ext outcome rfl), commit, generation, fun pk => ?_⟩
    have kept := @Publication.body_keeps corpus (publication.again drawn_session change_id) _ key builder
      (((later.partition publication.env).refs[publication.ref]?).map Item.body) drawn_session record sk keyed valid recorded pk
    exact (leases_refs leases pk).trans ((congrArg Partition.refs kept).trans (leases_refs opens pk))

/-! ## A first commit, asked for again -/

def keyedPublication : Publication := { firstPublication with idempotency_key := some "k" }

/-- The first commit is published under a key. -/
def firstPublished : World :=
  (runs oneCommit (publish oneCommit keyedPublication (firstWork.assembles oneCommit).build) abandonedTree).2

def publishedFirst : CommitResult :=
  (runs oneCommit (publish oneCommit keyedPublication (firstWork.assembles oneCommit).build) abandonedTree).1.toOption.get
    (by decide +kernel)

theorem first_published :
    runs oneCommit (publish oneCommit keyedPublication (firstWork.assembles oneCommit).build) abandonedTree =
      (.ok publishedFirst, firstPublished) :=
  Prod.ext (Monads.toOption_ok.mp (Option.some_get _).symm) rfl

theorem publish_retry_exact_at_once :
    Republishes oneCommit (keyedPublication.again ⟨"t"⟩ ⟨List.replicate 32 0x61⟩) (firstWork.assembles oneCommit).build
        publishedFirst firstPublished ↔
      (∃ tree, keyedPublication.Builds oneCommit (firstWork.assembles oneCommit).build abandonedTree tree ∧
        (keyedPublication.again ⟨"t"⟩ ⟨List.replicate 32 0x61⟩).Builds oneCommit (firstWork.assembles oneCommit).build
          firstPublished tree) ∧
      ∃ row, (firstPublished.partition keyedPublication.env).refs[keyedPublication.ref]? = some row ∧
        row.body.target = publishedFirst.commit ∧ row.body.generation = publishedFirst.generation :=
  publish_retry_exact oneCommit keyedPublication (firstWork.assembles oneCommit) "k" abandonedTree firstPublished firstPublished
    publishedFirst ⟨"t"⟩ ⟨List.replicate 32 0x61⟩ rfl first_published (by decide +kernel) (extends_self _)
    (sessionless_listed (by decide +kernel) (by decide +kernel))

/-- Another client has moved the ref since. -/
def firstOvertaken : World :=
  (runs oneCommit (update_ref ⟨"env"⟩ DEFAULT_REF 1 movedTarget "b" none none none .update_ref) firstPublished).2

/-- The retry of the publish returns the other client's commit. -/
theorem publish_tells_of_another :
    (firstPublished.partition ⟨"env"⟩).Extends (firstOvertaken.partition ⟨"env"⟩) ∧
      (runs oneCommit (publish oneCommit keyedPublication (firstWork.assembles oneCommit).build) abandonedTree =
        (.ok publishedFirst, firstPublished)) ∧
      ¬ Republishes oneCommit (keyedPublication.again ⟨"t"⟩ ⟨List.replicate 32 0x61⟩) (firstWork.assembles oneCommit).build
        publishedFirst firstOvertaken := by
  refine ⟨runs_extends (update_ref_appends ..) firstPublished, first_published, ?_⟩
  rintro ⟨result, after, ran, commit, -⟩
  have told : (runs oneCommit (publish oneCommit (keyedPublication.again ⟨"t"⟩ ⟨List.replicate 32 0x61⟩)
      (firstWork.assembles oneCommit).build) firstOvertaken).1.toOption.map CommitResult.commit = some movedTarget := by
    decide +kernel
  have original : publishedFirst.commit = firstCommitName := by decide +kernel
  rw [ran] at told
  have same : result.commit = movedTarget := Option.some.inj told
  rw [commit, original] at same
  exact absurd same (by decide)

end LedgerVcs
