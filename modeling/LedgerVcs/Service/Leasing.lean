import LedgerVcs.Meta.Alone
import LedgerVcs.Service.Publishing

set_option autoImplicit false

/-! An upload session of its own, and what is graduated under it, when nothing else goes on. -/

namespace LedgerVcs

open Prog (run_bind_ok)

/-! ## New items -/

theorem transact_new {key_of : Nat → SortKey} {body : (number : Nat) → (key_of number).Body} {expires_at_us : Option Int}
    (apart : Function.Injective key_of) {numbers : List Nat} (once : numbers.Nodup) {partition : Partition}
    (missing : ∀ number ∈ numbers, partition.get (key_of number) = none) :
    ∃ after, partition.transact_write
      (numbers.map fun number => .put (key_of number) (body number) (some .absent) none expires_at_us) = .ok after := by
  induction numbers generalizing partition with
  | nil => exact ⟨partition, rfl⟩
  | cons number numbers ih =>
    obtain ⟨fresh, once⟩ := List.nodup_cons.mp once
    have absent := missing number List.mem_cons_self
    have later (other : Nat) (member : other ∈ numbers) :
        (partition.put (key_of number) ⟨body number, next_version (partition.get (key_of number)), none, expires_at_us⟩).get
          (key_of other) = none := by
      have different : key_of number ≠ key_of other := fun same => fresh ((apart same).symm ▸ member)
      rw [Partition.get_put_of_ne _ _ different]
      exact missing other (List.mem_cons_of_mem _ member)
    obtain ⟨after, rest⟩ := ih once later
    exact ⟨after, transact_ok.mpr ⟨_, apply_put.mpr ⟨require_absent.mpr absent, rfl⟩, rest⟩⟩

/-- Nothing is recorded under the session's id. -/
structure Partition.Sessionless (partition : Partition) (session : SessionId) : Prop where
  head : partition.sessions[session]? = none
  pages : ∀ page : SessionPage, page.session = session → partition.session_pages[page]? = none

theorem unlisted_pages {partition : Partition} {session : SessionId}
    (pages : ∀ row ∈ partition.session_pages.toList, row.1.session ≠ session) (page : SessionPage) (own : page.session = session) :
    partition.session_pages[page]? = none := by
  cases found : partition.session_pages[page]? with
  | none => rfl
  | some item => exact absurd own (pages (page, item) (Std.ExtTreeMap.mem_toList_iff_getElem?_eq_some.mpr found))

theorem sessionless_listed {partition : Partition} {session : SessionId} (head : partition.sessions[session]? = none)
    (pages : ∀ row ∈ partition.session_pages.toList, row.1.session ≠ session) : partition.Sessionless session :=
  ⟨head, unlisted_pages pages⟩

theorem sessionless_query {partition : Partition} {session : SessionId}
    (pages : ∀ page : SessionPage, page.session = session → partition.session_pages[page]? = none) (limit : Nat) :
    partition.query limit (.session_pages session) = [] := by
  have none : (partition.session_pages.toList.filter fun row => row.1.session = session) = [] := by
    refine List.filter_eq_nil_iff.mpr fun row member own => ?_
    have found := Std.ExtTreeMap.mem_toList_iff_getElem?_eq_some.mp member
    rw [pages row.1 (of_decide_eq_true own)] at found
    cases found
  rw [Partition.query, none, List.take_nil]

theorem page_writes_apply {partition : Partition} {session : SessionId} (index : Nat) (fresh : List ObjectName)
    (expires_at_us : Int)
    (pages : ∀ page : SessionPage, page.session = session → partition.session_pages[page]? = none) :
    ∃ after, partition.transact_write (page_writes session index fresh expires_at_us) = .ok after :=
  @transact_new (fun page => .session_page ⟨session, index + page⟩)
    (fun page => (fresh.drop (page * SESSION_PAGE_SIZE)).take SESSION_PAGE_SIZE) (some expires_at_us)
    (fun left right same => by simpa using same) _ List.nodup_range partition fun page _ =>
      pages ⟨session, index + page⟩ rfl

/-! ## What a session leaves alone -/

/-- Only sessions and their pages of the one environment differ. -/
structure Leases (env : EnvId) (before after : World) : Prop where
  beside : after = { before with partitions := after.partitions }
  others : ∀ pk, pk ≠ env → after.partition pk = before.partition pk
  own : SameRefs (before.partition env) (after.partition env)

section Alone

variable {corpus : Corpus} {env : EnvId} {world after : World}

theorem sameRefs_self (partition : Partition) : SameRefs partition partition := ⟨rfl, rfl, rfl, rfl, rfl, rfl, rfl⟩

theorem sameRefs_trans {first second third : Partition} (early : SameRefs first second) (late : SameRefs second third) :
    SameRefs first third := by
  obtain ⟨env, refs, changes, ops, seq, idems, outbox⟩ := early
  obtain ⟨env', refs', changes', ops', seq', idems', outbox'⟩ := late
  exact ⟨env'.trans env, refs'.trans refs, changes'.trans changes, ops'.trans ops, seq'.trans seq, idems'.trans idems,
    outbox'.trans outbox⟩

theorem leases_self (env : EnvId) (world : World) : Leases env world world := ⟨rfl, fun _ _ => rfl, sameRefs_self _⟩

theorem leases_trans {first second third : World} (early : Leases env first second) (late : Leases env second third) :
    Leases env first third :=
  ⟨late.beside.trans (by rw [early.beside]), fun pk other => (late.others pk other).trans (early.others pk other),
    sameRefs_trans early.own late.own⟩

theorem exec_leases {command : Cmd} (fits : SessionCmd env command) (world : World) :
    Leases env world (exec corpus command world).2 := by
  cases command with
  | now_us | meta_get | meta_query => exact leases_self env world
  | transact_write pk writes =>
    obtain ⟨rfl, sessions⟩ := fits
    cases applied : (world.partition pk).transact_write writes with
    | error error =>
      simp only [exec, applied]
      exact leases_self pk world
    | ok final =>
      simp only [exec, applied]
      refine ⟨rfl, fun other different => partition_with_of_ne _ _ different.symm, ?_⟩
      rw [partition_with_self]
      exact transact_session sessions applied
  | _ => cases fits

theorem runs_leases {α : Type} {act : Act α} {result : α → Prop}
    (yields : act.Yields (SessionCmd env) (fun _ _ => True) result) (world : World) :
    Leases env world (runs corpus act world).2 :=
  yields.run_keeps (fun _ _ => trivial) (I := fun now => Leases env world now)
    (fun _ now fits leases => leases_trans leases (exec_leases fits now)) (leases_self env world)

theorem leases_refs (leases : Leases env world after) (pk : EnvId) :
    (after.partition pk).refs = (world.partition pk).refs := by
  by_cases same : pk = env
  next => exact same ▸ leases.own.2.1
  next => rw [leases.others pk same]

theorem leases_recorded (leases : Leases env world after) (key : Option String) :
    (after.partition env).recorded key = (world.partition env).recorded key := by
  rw [Partition.recorded, leases.own.2.2.2.2.2.1, Partition.recorded]

/-! ## A session's life -/

theorem runs_begin_write {drawn : SessionId} (principal : String) (ttl_us : Int)
    (fresh : (world.partition env).Sessionless drawn) :
    ∃ session after, runs corpus (begin_write env drawn principal ttl_us) world = (.ok session, after) ∧
      session.session_id = drawn ∧ (∃ item, (after.partition env).sessions[drawn]? = some item) ∧
      ∀ page : SessionPage, page.session = drawn → (after.partition env).session_pages[page]? = none := by
  let session : WriteSession :=
    { session_id := drawn, principal, expires_at_us := world.clock + ttl_us, created_at_us := world.clock }
  have clock : runs corpus (issue .now_us) world = (.ok world.clock, world) := rfl
  let item : Item WriteSession :=
    ⟨session, next_version ((world.partition env).get (.session drawn)), none, some session.expires_at_us⟩
  have applied : (world.partition env).transact_write
      [.put (.session drawn) session (some .absent) none (some session.expires_at_us)] =
        .ok ((world.partition env).put (.session drawn) item) :=
    transact_ok.mpr ⟨_, apply_put.mpr ⟨require_absent.mpr fresh.head, rfl⟩, rfl⟩
  refine ⟨session, world.with_partition env ((world.partition env).put (.session drawn) item), ?_, rfl, ?_,
    fun page own => ?_⟩
  next =>
    rw [begin_write, runs, run_bind_ok _ clock, run_bind_ok _ clock]
    exact run_bind_ok _ (runs_transact applied)
  next =>
    rw [partition_with_self]
    exact ⟨_, Partition.get_put_self _ (.session drawn) _⟩
  next =>
    rw [partition_with_self]
    exact fresh.pages page own

theorem runs_record_uploaded {session : SessionId} {names : List ObjectName}
    (head : ∃ item, (world.partition env).sessions[session]? = some item)
    (pages : ∀ page : SessionPage, page.session = session → (world.partition env).session_pages[page]? = none) :
    ∃ count after, runs corpus (record_uploaded env session names) world = (.ok count, after) := by
  have empty : runs corpus (session_pages env session) world = (.ok [], world) := by
    rw [← sessionless_query pages PAGE_QUERY_LIMIT]
    rfl
  rw [record_uploaded]
  by_cases none : names = []
  next =>
    have uploaded : runs corpus (uploaded_objects env session) world = (.ok [], world) := run_bind_ok _ empty
    rw [if_pos none]
    exact ⟨_, _, run_bind_ok _ uploaded⟩
  next =>
    obtain ⟨item, found⟩ := head
    have current : runs corpus (get_session env session) world = (.ok item.body, world) := by
      have issued : runs corpus (issue (.meta_get env (.session session))) world = (.ok (some item), world) := by
        rw [← found]
        rfl
      exact run_bind_ok _ issued
    rw [if_neg none, runs, run_bind_ok _ current, run_bind_ok _ empty]
    dsimp only
    split
    next => exact ⟨_, _, rfl⟩
    next =>
      obtain ⟨final, applied⟩ := page_writes_apply 0 _ item.body.expires_at_us pages
      exact ⟨_, _, run_bind_ok _ (runs_transact applied)⟩

theorem runs_end_session (session : SessionId) (world : World) :
    ∃ after, runs corpus (end_session env session) world = (.ok (), after) := by
  have free : ∀ write ∈ ((world.partition env).query PAGE_QUERY_LIMIT (.session_pages session)).map
      (fun page : SessionPage × Item (List ObjectName) => WriteOp.delete (.session_page page.1) none) ++
        [.delete (.session session) none], Unconditional write := by
    intro write member
    rcases List.mem_append.mp member with page | last
    next =>
      obtain ⟨row, -, rfl⟩ := List.mem_map.mp page
      rfl
    next =>
      rw [List.mem_singleton.mp last]
      rfl
  obtain ⟨final, applied⟩ := transact_unconditional free (world.partition env)
  have read : runs corpus (session_pages env session) world =
      (.ok ((world.partition env).query PAGE_QUERY_LIMIT (.session_pages session)), world) := rfl
  exact ⟨_, (run_bind_ok _ read).trans (runs_transact applied)⟩

/-! ## Graduation -/

theorem runs_graduate (env : EnvId) (names : List ObjectName) (world : World) :
    ∃ count after, runs corpus (GarbageCollector.graduate env names) world = (.ok count, after) ∧
      after = { world with keepset := after.keepset } ∧ (∀ name ∈ names, (env, name) ∈ after.keepset) ∧
      world.keepset ⊆ after.keepset := by
  suffices merged : ∃ added after, runs corpus (each names fun name => issue (.keepset_merge env name)) world =
      (.ok added, after) ∧ after = { world with keepset := after.keepset } ∧ (∀ name ∈ names, (env, name) ∈ after.keepset) ∧
      world.keepset ⊆ after.keepset by
    obtain ⟨added, after, ran, rest⟩ := merged
    exact ⟨_, after, run_bind_ok _ ran, rest⟩
  induction names generalizing world with
  | nil => exact ⟨[], world, rfl, rfl, (fun name member => nomatch member), Finset.Subset.refl _⟩
  | cons name names ih =>
    obtain ⟨added, after, ran, beside, kept, grown⟩ := ih { world with keepset := insert (env, name) world.keepset }
    refine ⟨decide ((env, name) ∉ world.keepset) :: added, after, ?_, beside, fun other member => ?_,
      fun row member => grown (Finset.mem_insert_of_mem member)⟩
    next =>
      have merged : runs corpus (issue (.keepset_merge env name)) world =
          (.ok (decide ((env, name) ∉ world.keepset)), { world with keepset := insert (env, name) world.keepset }) := rfl
      rw [each, List.mapM_cons, runs, run_bind_ok _ merged]
      exact run_bind_ok _ ran
    next =>
      rcases List.mem_cons.mp member with rfl | later
      next => exact grown (Finset.mem_insert_self _ _)
      next => exact kept other later

end Alone

end LedgerVcs
