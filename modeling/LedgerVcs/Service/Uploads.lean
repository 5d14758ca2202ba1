import LedgerVcs.Lib.Script
import LedgerVcs.Meta.Generations
import LedgerVcs.Service.Leasing

set_option autoImplicit false

/-! Records, renewals and ends of one upload session, all at once. -/

namespace LedgerVcs

open Prog (Actor Contract Pool Traced)

/-! ## Transactions on a session's pages -/

/-- Puts of pages, each under a key of its own. -/
def page_puts (condition : Option Condition) (expires_at_us : Option Int) (rows : List (SessionPage × List ObjectName)) :
    List WriteOp :=
  rows.map fun row => .put (.session_page row.1) row.2 condition none expires_at_us

def new_pages (session : SessionId) (index : Nat) (fresh : List ObjectName) : List (SessionPage × List ObjectName) :=
  (List.range ((fresh.length + SESSION_PAGE_SIZE - 1) / SESSION_PAGE_SIZE)).map fun page =>
    (⟨session, index + page⟩, (fresh.drop (page * SESSION_PAGE_SIZE)).take SESSION_PAGE_SIZE)

/-- The session's pages are numbered from zero, without a gap. -/
def Partition.Paged (partition : Partition) (session : SessionId) (count : Nat) : Prop :=
  ∀ page : SessionPage, page.session = session → ((partition.session_pages[page]?).isSome ↔ page.page < count)

section Pages

variable {partition after : Partition} {session : SessionId}

theorem page_writes_puts (index : Nat) (fresh : List ObjectName) (expires_at_us : Int) :
    page_writes session index fresh expires_at_us =
      page_puts (some .absent) (some expires_at_us) (new_pages session index fresh) := by
  rw [page_writes, page_puts, new_pages, List.map_map]
  rfl

theorem transact_page_puts {condition : Option Condition} {expires_at_us : Option Int}
    {rows : List (SessionPage × List ObjectName)} (once : (rows.map Prod.fst).Nodup)
    (applied : partition.transact_write (page_puts condition expires_at_us rows) = .ok after) :
    (condition = some .absent → ∀ row ∈ rows, partition.session_pages[row.1]? = none) ∧
      (∀ row ∈ rows, ∃ item, after.session_pages[row.1]? = some item ∧ item.body = row.2) ∧
      (∀ page, page ∉ rows.map Prod.fst → after.session_pages[page]? = partition.session_pages[page]?) ∧
      after.sessions = partition.sessions := by
  induction rows generalizing partition with
  | nil =>
    cases applied
    exact ⟨(fun _ row impossible => nomatch impossible), (fun row impossible => nomatch impossible), fun _ _ => rfl, rfl⟩
  | cons row rows ih =>
    obtain ⟨middle, first, rest⟩ := transact_ok.mp applied
    obtain ⟨required, rfl⟩ := apply_put.mp first
    obtain ⟨alone, once⟩ := List.nodup_cons.mp once
    obtain ⟨absent, placed, kept, sessions⟩ := ih once rest
    have others {page : SessionPage} (different : page ≠ row.1) (item : Item (List ObjectName)) :
        (partition.put (.session_page row.1) item).session_pages[page]? = partition.session_pages[page]? :=
      @Partition.get_put_of_ne partition (.session_page row.1) (.session_page page) item fun same =>
        different (SortKey.session_page.inj same).symm
    refine ⟨fun fresh other member => ?_, fun other member => ?_, fun page new => ?_, sessions⟩
    next =>
      rcases List.mem_cons.mp member with rfl | member
      next =>
        subst fresh
        exact require_absent.mp required
      next =>
        rw [← others (fun same => alone (same ▸ List.mem_map_of_mem member))]
        exact absent fresh other member
    next =>
      rcases List.mem_cons.mp member with rfl | member
      next =>
        have placed_now := Partition.get_put_self partition (.session_page other.1)
          ⟨other.2, next_version (partition.get (.session_page other.1)), none, expires_at_us⟩
        exact ⟨_, (kept other.1 alone).trans placed_now, rfl⟩
      next => exact placed other member
    next =>
      rw [List.map_cons, List.mem_cons, not_or] at new
      exact (kept page new.2).trans (others new.1 _)

theorem transact_page_deletes {pages : List SessionPage}
    (applied : partition.transact_write (pages.map (fun page => .delete (.session_page page) none) ++
      [.delete (.session session) none]) = .ok after) :
    (∀ page ∈ pages, after.session_pages[page]? = none) ∧
      (∀ page, page ∉ pages → after.session_pages[page]? = partition.session_pages[page]?) ∧
      after.sessions[session]? = none := by
  induction pages generalizing partition with
  | nil =>
    obtain ⟨middle, first, rest⟩ := transact_ok.mp applied
    obtain ⟨-, rfl⟩ := apply_delete.mp first
    cases rest
    refine ⟨(fun page impossible => nomatch impossible), fun _ _ => rfl, ?_⟩
    exact Partition.get_delete_self partition (.session session)
  | cons page pages ih =>
    obtain ⟨middle, first, rest⟩ := transact_ok.mp applied
    obtain ⟨-, rfl⟩ := apply_delete.mp first
    obtain ⟨gone, kept, head⟩ := ih rest
    have own : (partition.delete (.session_page page)).session_pages[page]? = none :=
      Partition.get_delete_self partition (.session_page page)
    refine ⟨fun other member => ?_, fun other outside => ?_, head⟩
    next =>
      by_cases listed : other ∈ pages
      next => exact gone other listed
      next =>
        obtain rfl := (List.mem_cons.mp member).resolve_right listed
        exact (kept other listed).trans own
    next =>
      rw [List.mem_cons, not_or] at outside
      refine (kept other outside.2).trans ?_
      exact @Partition.get_delete_of_ne partition (.session_page page) (.session_page other) fun same =>
        outside.1 (SortKey.session_page.inj same).symm

theorem mem_chunk {names : List ObjectName} {name : ObjectName} (member : name ∈ names) :
    ∃ chunk < (names.length + SESSION_PAGE_SIZE - 1) / SESSION_PAGE_SIZE,
      name ∈ (names.drop (chunk * SESSION_PAGE_SIZE)).take SESSION_PAGE_SIZE := by
  obtain ⟨index, below, rfl⟩ := List.mem_iff_getElem.mp member
  have whole : index / SESSION_PAGE_SIZE * SESSION_PAGE_SIZE + index % SESSION_PAGE_SIZE = index := Nat.div_add_mod' ..
  have within : index % SESSION_PAGE_SIZE < SESSION_PAGE_SIZE := Nat.mod_lt _ (by decide)
  refine ⟨index / SESSION_PAGE_SIZE, by simp only [SESSION_PAGE_SIZE]; omega, ?_⟩
  refine List.mem_iff_getElem.mpr ⟨index % SESSION_PAGE_SIZE, ?_, ?_⟩
  next =>
    rw [List.length_take, List.length_drop]
    omega
  next => simp only [List.getElem_take, List.getElem_drop, whole]

theorem mem_new_pages {index : Nat} {fresh : List ObjectName} {page : SessionPage} :
    page ∈ (new_pages session index fresh).map Prod.fst ↔ page.session = session ∧ index ≤ page.page ∧
      page.page < index + (fresh.length + SESSION_PAGE_SIZE - 1) / SESSION_PAGE_SIZE := by
  simp only [new_pages, List.map_map, List.mem_map, List.mem_range, Function.comp_apply]
  constructor
  next =>
    rintro ⟨number, below, rfl⟩
    exact ⟨rfl, Nat.le_add_right .., by simpa using below⟩
  next =>
    obtain ⟨session, number⟩ := page
    rintro ⟨rfl, least, most⟩
    dsimp only at least most
    exact ⟨number - index, by omega, by simp only [SessionPage.mk.injEq, true_and]; omega⟩

theorem new_pages_once (index : Nat) (fresh : List ObjectName) : ((new_pages session index fresh).map Prod.fst).Nodup := by
  rw [new_pages, List.map_map]
  refine List.Nodup.map (fun left right same => ?_) List.nodup_range
  simpa using same

theorem new_pages_commit {index count : Nat} {fresh : List ObjectName} {expires_at_us : Int}
    (paged : partition.Paged session count) (some_fresh : fresh ≠ []) (bound : index ≤ count)
    (applied : partition.transact_write (page_writes session index fresh expires_at_us) = .ok after) :
    after.Paged session (index + (fresh.length + SESSION_PAGE_SIZE - 1) / SESSION_PAGE_SIZE) ∧
      (∀ (page : SessionPage) (item : Item (List ObjectName)), partition.session_pages[page]? = some item →
        after.session_pages[page]? = some item) ∧
      (∀ name ∈ fresh, ∃ (page : SessionPage) (item : Item (List ObjectName)), page.session = session ∧
        after.session_pages[page]? = some item ∧ name ∈ item.body) ∧
      after.sessions = partition.sessions := by
  rw [page_writes_puts] at applied
  obtain ⟨absent, placed, kept, sessions⟩ := transact_page_puts (new_pages_once index fresh) applied
  have unused {page : SessionPage} (member : page ∈ (new_pages session index fresh).map Prod.fst) :
      partition.session_pages[page]? = none := by
    obtain ⟨row, listed, rfl⟩ := List.mem_map.mp member
    exact absent rfl row listed
  have placed_page {page : SessionPage} (member : page ∈ (new_pages session index fresh).map Prod.fst) :
      (after.session_pages[page]?).isSome := by
    obtain ⟨row, listed, rfl⟩ := List.mem_map.mp member
    obtain ⟨item, found, -⟩ := placed row listed
    rw [found]
    rfl
  -- The first new page is not there yet, so that the pages read were all of them.
  have long : 0 < fresh.length := List.length_pos_iff.mpr some_fresh
  have same : index = count := by
    refine le_antisymm bound (Nat.le_of_not_lt fun less => ?_)
    have first := @unused ⟨session, index⟩ (mem_new_pages.mpr ⟨rfl, le_refl _, by simp only [SESSION_PAGE_SIZE]; omega⟩)
    have there := (paged ⟨session, index⟩ rfl).mpr less
    rw [first] at there
    cases there
  refine ⟨fun page own => ?_, fun page item found => ?_, fun name member => ?_, sessions⟩
  next =>
    by_cases new : page ∈ (new_pages session index fresh).map Prod.fst
    next => exact iff_of_true (placed_page new) (mem_new_pages.mp new).2.2
    next =>
      rw [kept page new, paged page own, ← same]
      rw [mem_new_pages, not_and] at new
      have outside := new own
      simp only [SESSION_PAGE_SIZE] at outside ⊢
      omega
  next =>
    refine (kept page fun new => ?_).trans found
    rw [unused new] at found
    cases found
  next =>
    obtain ⟨chunk, below, inside⟩ := mem_chunk member
    obtain ⟨item, found, body⟩ := placed _ (List.mem_map_of_mem (List.mem_range.mpr below))
    exact ⟨_, item, rfl, found, body ▸ inside⟩

theorem same_pages_commit {rows : List (SessionPage × Item (List ObjectName))} {renewed : WriteSession}
    {expires_at_us : Option Int} (once : (rows.map Prod.fst).Nodup)
    (stored : ∀ row ∈ rows, ∃ item, partition.session_pages[row.1]? = some item ∧ item.body = row.2.body)
    (applied : partition.transact_write (.put (.session session) renewed none none expires_at_us ::
      rows.map fun row => .put (.session_page row.1) row.2.body none none expires_at_us) = .ok after) (page : SessionPage) :
    (after.session_pages[page]?).map Item.body = (partition.session_pages[page]?).map Item.body := by
  obtain ⟨middle, first, rest⟩ := transact_ok.mp applied
  obtain ⟨-, rfl⟩ := apply_put.mp first
  have puts : page_puts none expires_at_us (rows.map fun row => (row.1, row.2.body)) =
      rows.map fun row => .put (.session_page row.1) row.2.body none none expires_at_us := by
    rw [page_puts, List.map_map]
    rfl
  have keys : (rows.map fun row => (row.1, row.2.body)).map Prod.fst = rows.map Prod.fst := by
    rw [List.map_map]
    rfl
  rw [← puts] at rest
  obtain ⟨-, placed, kept, -⟩ := transact_page_puts (keys ▸ once) rest
  by_cases listed : page ∈ rows.map Prod.fst
  next =>
    obtain ⟨row, member, rfl⟩ := List.mem_map.mp listed
    obtain ⟨item, found, body⟩ := stored row member
    obtain ⟨item', found', body'⟩ := placed _ (List.mem_map_of_mem member)
    rw [found, found', Option.map_some, Option.map_some, body, body']
  next =>
    rw [kept page (keys ▸ listed)]
    rfl

theorem mem_session_rows {row : SessionPage × Item (List ObjectName)}
    (member : row ∈ partition.session_pages.toList.filter fun row => row.1.session = session) :
    row.1.session = session ∧ partition.session_pages[row.1]? = some row.2 := by
  obtain ⟨listed, own⟩ := List.mem_filter.mp member
  exact ⟨of_decide_eq_true own, Std.ExtTreeMap.mem_toList_iff_getElem?_eq_some.mp listed⟩

theorem session_rows_once :
    ((partition.session_pages.toList.filter fun row => row.1.session = session).map Prod.fst).Nodup := by
  have ordered := Std.ExtTreeMap.ordered_keys_toList (t := partition.session_pages)
  refine List.pairwise_map.mpr ((ordered.filter _).imp fun {left right} behind same => ?_)
  rw [same, Std.ReflOrd.compare_self] at behind
  cases behind

/-- Distinct pages of a session are no more than it has. -/
theorem pages_bounded {pages : List SessionPage} {count : Nat} (once : pages.Nodup)
    (within : ∀ page ∈ pages, page.session = session ∧ page.page < count) : pages.length ≤ count := by
  have numbers : (pages.map SessionPage.page).Nodup := by
    refine List.Nodup.map_on (fun left mine right yours same => ?_) once
    obtain ⟨session', number⟩ := left
    obtain ⟨session'', number'⟩ := right
    have own := (within _ mine).1.trans (within _ yours).1.symm
    exact SessionPage.mk.injEq .. ▸ ⟨own, same⟩
  have below : (pages.map SessionPage.page).toFinset ⊆ Finset.range count := fun number member => by
    obtain ⟨page, listed, rfl⟩ := List.mem_map.mp (List.mem_toFinset.mp member)
    exact Finset.mem_range.mpr (within page listed).2
  have counted := Finset.card_le_card below
  rwa [List.toFinset_card_of_nodup numbers, List.length_map, Finset.card_range] at counted

/-- A query returns all pages of the session, when there are no more than it can return. -/
theorem page_query_whole {count : Nat} (paged : partition.Paged session count) (few : count ≤ PAGE_QUERY_LIMIT) :
    partition.query PAGE_QUERY_LIMIT (.session_pages session) =
      partition.session_pages.toList.filter fun row => row.1.session = session := by
  have bounded : (partition.session_pages.toList.filter fun row => row.1.session = session).length ≤ count := by
    rw [← List.length_map Prod.fst]
    refine @pages_bounded session _ count session_rows_once fun page member => ?_
    obtain ⟨row, listed, rfl⟩ := List.mem_map.mp member
    obtain ⟨own, found⟩ := mem_session_rows listed
    exact ⟨own, (paged row.1 own).mp (by rw [found]; rfl)⟩
  exact List.take_of_length_le (bounded.trans few)

end Pages

/-! ## Calls on one session -/

inductive SessionCall
  | record (names : List ObjectName)
  | renew (ttl_us : Int)
  | finish
deriving DecidableEq

def SessionCall.code (env : EnvId) (session : SessionId) : SessionCall → Act Unit
  | .record names => do
      let _ ← record_uploaded env session names
  | .renew ttl_us => do
      let _ ← renew_session env session ttl_us
  | .finish => end_session env session

section Calls

variable {ι : Type} {corpus : Corpus} {env : EnvId} {session : SessionId} {calls : ι → SessionCall}
  {party : ι} {journal : Journal ι}

abbrev PageRows := List (SessionPage × Item (List ObjectName))

def page_read [DecidableEq ι] (pk : EnvId) (session : SessionId) (party : ι) : Prog.Event ι Cmd Cmd.Response → Option PageRows
  | ⟨reader, .meta_query env (.session_pages other) _, rows⟩ =>
      if reader = party ∧ env = pk ∧ other = session then some rows else none
  | _ => none

/-- What the party has read of the session's pages. -/
def page_reads [DecidableEq ι] (env : EnvId) (session : SessionId) (party : ι) (journal : Journal ι) : List PageRows :=
  journal.trace.filterMap (page_read env session party)

/-- The names that `record_uploaded` finds on none of the pages. -/
def fresh_names (rows : PageRows) (names : List ObjectName) : List ObjectName :=
  (fromkeys names).filter fun name => name ∉ (rows.flatMap fun row => row.2.body).toFinset

/-- Whether the call may change the session now, given the pages that it has read. A recording and a renewal find the
session's head, and a recording leaves no more pages than a query returns; an end has read every page there is. -/
def SessionCall.Fits (session : SessionId) (partition : Partition) (rows : PageRows) : SessionCall → Prop
  | .record names => (partition.sessions[session]?).isSome ∧
      rows.length + ((fresh_names rows names).length + SESSION_PAGE_SIZE - 1) / SESSION_PAGE_SIZE ≤ PAGE_QUERY_LIMIT
  | .renew _ => (partition.sessions[session]?).isSome
  | .finish => ∀ row ∈ partition.session_pages.toList, row.1.session = session → row.1 ∈ rows.map Prod.fst

instance (session : SessionId) (partition : Partition) (rows : PageRows) :
    (call : SessionCall) → Decidable (call.Fits session partition rows)
  | .record _ => inferInstanceAs (Decidable (_ ∧ _))
  | .renew _ => inferInstanceAs (Decidable (_ = true))
  | .finish => inferInstanceAs (Decidable (∀ row ∈ partition.session_pages.toList, _ → _))

/-- Each call reads, and then changes a session that fits what it has read. -/
def uploading [DecidableEq ι] (corpus : Corpus) (env : EnvId) (session : SessionId) (calls : ι → SessionCall) (party : ι) :
    Actor Cmd Cmd.Response (Journal ι) where
  exec := Traced.exec (exec corpus) party
  may command journal := transacts command → ∀ rows ∈ page_reads env session party journal,
    (calls party).Fits session (journal.state.partition env) rows

instance [DecidableEq ι] (command : Cmd) (journal : Journal ι) :
    Decidable ((uploading corpus env session calls party).may command journal) :=
  inferInstanceAs (Decidable (_ → ∀ rows ∈ page_reads env session party journal,
    (calls party).Fits session (journal.state.partition env) rows))

/-- An end of the session has gone through. -/
def HasEnded (env : EnvId) (calls : ι → SessionCall) (journal : Journal ι) : Prop :=
  ∃ party writes, calls party = .finish ∧
    (⟨party, .transact_write env writes, .ok ()⟩ : Prog.Event ι Cmd Cmd.Response) ∈ journal.trace

/-- The pages are numbered without a gap, and nothing is left of a session that has been ended. -/
structure Gapless (env : EnvId) (session : SessionId) (calls : ι → SessionCall) (journal : Journal ι) : Prop where
  paged : ∃ count ≤ PAGE_QUERY_LIMIT, (journal.state.partition env).Paged session count
  ended : HasEnded env calls journal → (journal.state.partition env).Sessionless session

/-- The pages of the one are pages of the other, with the same names. -/
def Partition.Keeps (before after : Partition) (session : SessionId) : Prop :=
  ∀ (page : SessionPage) (item : Item (List ObjectName)), page.session = session → before.session_pages[page]? = some item →
    ∃ later, after.session_pages[page]? = some later ∧ later.body = item.body

/-- Pages stay until an end goes through. -/
structure Follows (env : EnvId) (session : SessionId) (calls : ι → SessionCall) (before after : Journal ι) : Prop where
  gapless : Gapless env session calls before → Gapless env session calls after
  grows : before.trace ⊆ after.trace
  keeps : Gapless env session calls before → ¬ HasEnded env calls after →
    (before.state.partition env).Keeps (after.state.partition env) session

def following (env : EnvId) (session : SessionId) (calls : ι → SessionCall) : Contract (Journal ι) where
  rely := Follows env session calls
  guarantee := Follows env session calls
  rely_refl _ := ⟨id, fun _ held => held, fun _ _ _ item _ found => ⟨item, found, rfl⟩⟩
  rely_trans early late := by
    refine ⟨late.gapless ∘ early.gapless, List.Subset.trans early.grows late.grows, fun gapless still page item own found => ?_⟩
    have before_that : ¬ HasEnded env calls _ := fun ⟨party, writes, finish, member⟩ =>
      still ⟨party, writes, finish, late.grows member⟩
    obtain ⟨middle, found, body⟩ := early.keeps gapless before_that page item own found
    obtain ⟨last, found, body'⟩ := late.keeps (early.gapless gapless) still page middle own found
    exact ⟨last, found, body'.trans body⟩

/-! ## Steps -/

theorem ended_step {command : Cmd} (silent : ∀ writes, calls party = .finish →
      (⟨party, command, (exec corpus command journal.state).1⟩ : Prog.Event ι Cmd Cmd.Response) ≠
        ⟨party, .transact_write env writes, .ok ()⟩) :
    HasEnded env calls (Traced.exec (exec corpus) party command journal).2 ↔ HasEnded env calls journal := by
  constructor
  next =>
    rintro ⟨other, writes, finish, member⟩
    rcases List.mem_cons.mp member with now | before
    next =>
      obtain rfl : other = party := congrArg Prog.Event.party now
      exact absurd now.symm (silent writes finish)
    next => exact ⟨other, writes, finish, before⟩
  next => exact fun ⟨other, writes, finish, before⟩ => ⟨other, writes, finish, List.mem_cons_of_mem _ before⟩

theorem still_follows {command : Cmd} (still : (exec corpus command journal.state).2 = journal.state)
    (silent : ∀ writes, calls party = .finish →
      (⟨party, command, (exec corpus command journal.state).1⟩ : Prog.Event ι Cmd Cmd.Response) ≠
        ⟨party, .transact_write env writes, .ok ()⟩) :
    Follows env session calls journal (Traced.exec (exec corpus) party command journal).2 := by
  have same : (Traced.exec (exec corpus) party command journal).2.state = journal.state := still
  refine ⟨fun gapless => ⟨same ▸ gapless.paged, fun ended => ?_⟩, List.subset_cons_self _ _, fun _ _ page item own found => ?_⟩
  next => exact same ▸ gapless.ended ((ended_step silent).mp ended)
  next => exact ⟨item, same ▸ found, rfl⟩

theorem exec_commit {pk : EnvId} {writes : List WriteOp} {world : World} {final : Partition}
    (applied : (world.partition pk).transact_write writes = .ok final) :
    exec corpus (.transact_write pk writes) world = (.ok (), world.with_partition pk final) := by
  rw [exec, applied]

theorem commit_partition {writes : List WriteOp} {final : Partition}
    (applied : (journal.state.partition env).transact_write writes = .ok final) :
    (Traced.exec (exec corpus) party (.transact_write env writes) journal).2.state.partition env = final := by
  rw [Traced.exec, exec_commit applied]
  exact partition_with_self ..

/-- A recording or a renewal that goes through while the session is open. -/
theorem commit_follows {writes : List WriteOp} {final : Partition} (other : calls party ≠ .finish)
    (still : ¬ HasEnded env calls journal) (applied : (journal.state.partition env).transact_write writes = .ok final)
    (paged : ∃ count ≤ PAGE_QUERY_LIMIT, final.Paged session count)
    (keeps : (journal.state.partition env).Keeps final session) :
    Follows env session calls journal (Traced.exec (exec corpus) party (.transact_write env writes) journal).2 := by
  have same := @commit_partition _ corpus env party journal writes final applied
  refine ⟨fun _ => ⟨same ▸ paged, fun ended => ?_⟩, List.subset_cons_self _ _, fun _ _ => same ▸ keeps⟩
  exact absurd ((ended_step fun _ finish => absurd finish other).mp ended) still

theorem finish_follows {rows : PageRows} {writes : List WriteOp} {final : Partition}
    (whole : ∀ row ∈ (journal.state.partition env).session_pages.toList, row.1.session = session → row.1 ∈ rows.map Prod.fst)
    (finish : calls party = .finish)
    (deletes : writes = rows.map (fun row => .delete (.session_page row.1) none) ++ [.delete (.session session) none])
    (applied : (journal.state.partition env).transact_write writes = .ok final) :
    Follows env session calls journal (Traced.exec (exec corpus) party (.transact_write env writes) journal).2 ∧
      HasEnded env calls (Traced.exec (exec corpus) party (.transact_write env writes) journal).2 := by
  have ended : HasEnded env calls (Traced.exec (exec corpus) party (.transact_write env writes) journal).2 := by
    refine ⟨party, writes, finish, ?_⟩
    rw [Traced.exec, exec_commit applied]
    exact List.mem_cons_self
  have same := @commit_partition _ corpus env party journal writes final applied
  have keys : (rows.map Prod.fst).map (fun page => WriteOp.delete (.session_page page) none) =
      rows.map fun row => .delete (.session_page row.1) none := by
    rw [List.map_map]
    rfl
  rw [deletes, ← keys] at applied
  obtain ⟨gone, kept, head⟩ := transact_page_deletes applied
  have sessionless : final.Sessionless session := by
    refine ⟨head, fun page own => ?_⟩
    by_cases listed : page ∈ rows.map Prod.fst
    next => exact gone page listed
    next =>
      rw [kept page listed]
      cases found : (journal.state.partition env).session_pages[page]? with
      | none => rfl
      | some item =>
        exact absurd (whole (page, item) (Std.ExtTreeMap.mem_toList_iff_getElem?_eq_some.mpr found) own) listed
  have none_left : final.Paged session 0 := fun page own => by simp [sessionless.pages page own]
  refine ⟨⟨fun _ => ⟨⟨0, Nat.zero_le _, same ▸ none_left⟩, fun _ => same ▸ sessionless⟩, List.subset_cons_self _ _,
    fun _ still => absurd ended still⟩, ended⟩

/-! ## What the calls do -/

variable [DecidableEq ι]

/-- The rows were read of the session's pages, and are still there if the session is. -/
structure Known (env : EnvId) (session : SessionId) (calls : ι → SessionCall) (party : ι) (rows : PageRows)
    (journal : Journal ι) : Prop where
  read : rows ∈ page_reads env session party journal
  once : (rows.map Prod.fst).Nodup
  own : ∀ row ∈ rows, row.1.session = session
  stored : ¬ HasEnded env calls journal → ∀ row ∈ rows,
    ∃ item, (journal.state.partition env).session_pages[row.1]? = some item ∧ item.body = row.2.body

/-- The names are on the session's pages, as long as no end has gone through. -/
def Reported (env : EnvId) (session : SessionId) (calls : ι → SessionCall) (names : List ObjectName)
    (journal : Journal ι) : Prop :=
  ¬ HasEnded env calls journal → ∀ name ∈ names, ∃ (page : SessionPage) (item : Item (List ObjectName)),
    page.session = session ∧ (journal.state.partition env).session_pages[page]? = some item ∧ name ∈ item.body

variable {before after : Journal ι} {rows : PageRows} {names : List ObjectName}

omit [DecidableEq ι] in
theorem ended_later (follows : Follows env session calls before after) (ended : HasEnded env calls before) :
    HasEnded env calls after := by
  obtain ⟨other, writes, finish, member⟩ := ended
  exact ⟨other, writes, finish, follows.grows member⟩

theorem known_later (follows : Follows env session calls before after) (gapless : Gapless env session calls before)
    (known : Known env session calls party rows before) : Known env session calls party rows after := by
  refine ⟨List.filterMap_subset _ follows.grows known.read, known.once, known.own, fun still row member => ?_⟩
  obtain ⟨item, found, body⟩ := known.stored (fun ended => still (ended_later follows ended)) row member
  obtain ⟨later, found, body'⟩ := follows.keeps gapless still row.1 item (known.own row member) found
  exact ⟨later, found, body'.trans body⟩

omit [DecidableEq ι] in
theorem reported_later (follows : Follows env session calls before after) (gapless : Gapless env session calls before)
    (reported : Reported env session calls names before) : Reported env session calls names after := by
  intro still name member
  obtain ⟨page, item, own, found, listed⟩ := reported (fun ended => still (ended_later follows ended)) name member
  obtain ⟨later, found, body⟩ := follows.keeps gapless still page item own found
  exact ⟨page, later, own, found, body ▸ listed⟩

theorem session_look_meets {command : Cmd} {fact : command.Response → Journal ι → Prop}
    (still : ∀ world, (exec corpus command world).2 = world) (silent : transacts command = false)
    (stable : ∀ response before after, Follows env session calls before after → Gapless env session calls before →
      fact response before → fact response after)
    (tells : ∀ later, Gapless env session calls later →
      fact (exec corpus command later.state).1 (Traced.exec (exec corpus) party command later).2)
    (gapless : Gapless env session calls journal) :
    (issue command).Meets (uploading corpus env session calls party) (following env session calls)
      (Prog.Meets.Returns fun response after => Gapless env session calls after ∧ fact response after) journal := by
  refine Prog.Meets.ask ?_ ?_
  next =>
    rintro response before after follows ⟨held, told⟩
    exact ⟨follows.gapless held, stable response before after follows held told⟩
  next =>
    rintro later passes -
    have follows : Follows env session calls later (Traced.exec (exec corpus) party command later).2 := by
      refine still_follows (still _) fun writes _ same => ?_
      rw [show command = .transact_write env writes from congrArg Prog.Event.command same] at silent
      cases silent
    have held : Gapless env session calls later := Follows.gapless passes gapless
    exact ⟨follows, follows.gapless held, tells later held⟩

theorem session_pages_meets (gapless : Gapless env session calls journal) :
    (session_pages env session).Meets (uploading corpus env session calls party) (following env session calls)
      (Prog.Meets.Returns fun rows after => Gapless env session calls after ∧ Known env session calls party rows after)
        journal := by
  refine session_look_meets (fun _ => rfl) rfl (fun rows before after follows held known => known_later follows held known)
    (fun later held => ?_) gapless
  obtain ⟨count, few, paged⟩ := held.paged
  have whole := page_query_whole paged few
  show Known env session calls party ((later.state.partition env).query PAGE_QUERY_LIMIT (.session_pages session)) _
  rw [whole]
  refine ⟨List.mem_filterMap.mpr ⟨_, List.mem_cons_self, ?_⟩, session_rows_once, fun row member => (mem_session_rows member).1,
    fun _ row member => ⟨row.2, (mem_session_rows member).2, rfl⟩⟩
  rw [← whole]
  exact if_pos ⟨rfl, rfl, rfl⟩

theorem get_session_meets (gapless : Gapless env session calls journal) :
    (get_session env session).Meets (uploading corpus env session calls party) (following env session calls)
      (Prog.Meets.Returns fun _ after => Gapless env session calls after) journal := by
  refine (@session_look_meets _ corpus env session calls party journal _ (.meta_get env (.session session)) (fun _ _ => True)
    (fun _ => rfl) rfl (fun _ _ _ _ _ _ => trivial) (fun _ _ => trivial) gapless).seq ?_
  rintro found after ⟨held, -⟩
  cases found with
  | none => exact fun _ _ => trivial
  | some item => exact fun later follows => Follows.gapless follows held

/-- A transaction of a call, which is refused and changes nothing, or goes through. -/
theorem session_transact_meets {writes : List WriteOp} {fact : Journal ι → Prop}
    (stable : ∀ before after, Follows env session calls before after → Gapless env session calls before → fact before → fact after)
    (commits : ∀ later final, Follows env session calls journal later → Gapless env session calls later →
      (uploading corpus env session calls party).may (.transact_write env writes) later →
      (later.state.partition env).transact_write writes = .ok final →
        Follows env session calls later (Traced.exec (exec corpus) party (.transact_write env writes) later).2 ∧
          fact (Traced.exec (exec corpus) party (.transact_write env writes) later).2)
    (gapless : Gapless env session calls journal) :
    (transact env writes).Meets (uploading corpus env session calls party) (following env session calls)
      (Prog.Meets.Returns fun _ after => Gapless env session calls after ∧ fact after) journal := by
  have asks : (issue (.transact_write env writes)).Meets (uploading corpus env session calls party)
      (following env session calls) (Prog.Meets.Returns fun response after => Gapless env session calls after ∧
        (response = .ok () → fact after)) journal := by
    refine Prog.Meets.ask ?_ ?_
    next =>
      rintro response before after follows ⟨held, told⟩
      exact ⟨follows.gapless held, fun went => stable before after follows held (told went)⟩
    next =>
      intro later passes may
      have held : Gapless env session calls later := Follows.gapless passes gapless
      cases applied : (later.state.partition env).transact_write writes with
      | error error =>
        have refused : exec corpus (.transact_write env writes) later.state = (.error error, later.state) := by
          rw [exec, applied]
        have follows : Follows env session calls later (Traced.exec (exec corpus) party (.transact_write env writes) later).2 := by
          refine still_follows (congrArg Prod.snd refused) fun other _ same => ?_
          rw [refused] at same
          cases same
        refine ⟨follows, follows.gapless held, fun went => ?_⟩
        cases (congrArg Prod.fst refused).symm.trans went
      | ok final =>
        obtain ⟨follows, told⟩ := commits later final passes held may applied
        exact ⟨follows, follows.gapless held, fun _ => told⟩
  refine asks.seq fun response after held => Prog.Meets.ofExcept fun _ went later follows => ?_
  exact ⟨Follows.gapless follows held.1, stable after later follows held.1 (held.2 went)⟩

theorem known_bounded {count : Nat} (known : Known env session calls party rows journal)
    (still : ¬ HasEnded env calls journal) (paged : (journal.state.partition env).Paged session count) :
    rows.length ≤ count := by
  rw [← List.length_map Prod.fst]
  refine @pages_bounded session _ count known.once fun page member => ?_
  obtain ⟨row, listed, rfl⟩ := List.mem_map.mp member
  obtain ⟨item, found, -⟩ := known.stored still row listed
  exact ⟨known.own row listed, (paged row.1 (known.own row listed)).mp (by rw [found]; rfl)⟩

theorem record_meets (called : calls party = .record names) (gapless : Gapless env session calls journal) :
    (record_uploaded env session names).Meets (uploading corpus env session calls party) (following env session calls)
      (Prog.Meets.Returns fun _ after => Gapless env session calls after ∧ Reported env session calls names after)
        journal := by
  -- A name that is on a page which has been read is reported.
  have told {rows : PageRows} {later : Journal ι} (known : Known env session calls party rows later) {name : ObjectName}
      (already : name ∈ (rows.flatMap fun row => row.2.body).toFinset) (still : ¬ HasEnded env calls later) :
      ∃ row ∈ rows, name ∈ row.2.body ∧ ∃ item, (later.state.partition env).session_pages[row.1]? = some item ∧
        item.body = row.2.body := by
    obtain ⟨row, member, listed⟩ := List.mem_flatMap.mp (List.mem_toFinset.mp already)
    exact ⟨row, member, listed, known.stored still row member⟩
  rw [record_uploaded]
  split
  next none =>
    have counted : (uploaded_objects env session).Meets (uploading corpus env session calls party)
        (following env session calls) (Prog.Meets.Returns fun _ after => Gapless env session calls after) journal :=
      (session_pages_meets gapless).seq fun rows after held later follows => Follows.gapless follows held.1
    refine counted.seq fun uploaded after held later follows => ⟨Follows.gapless follows held, fun _ name member => ?_⟩
    rw [none] at member
    cases member
  next =>
    refine (get_session_meets gapless).seq fun current after held => (session_pages_meets held).seq ?_
    rintro rows later ⟨held, known⟩
    dsimp only
    split
    next all_there =>
      intro last follows
      have known := known_later follows held known
      refine ⟨Follows.gapless follows held, fun still name member => ?_⟩
      have already : name ∈ (rows.flatMap fun row => row.2.body).toFinset := by
        by_contra new
        have fresh : name ∈ fresh_names rows names :=
          List.mem_filter.mpr ⟨mem_fromkeys.mpr member, decide_eq_true new⟩
        rw [show fresh_names rows names = [] from all_there] at fresh
        cases fresh
      obtain ⟨row, listed, named, item, found, body⟩ := told known already still
      exact ⟨row.1, item, known.own row listed, found, body ▸ named⟩
    next some_fresh =>
      refine (session_transact_meets (fun _ _ => reported_later) (fun last final follows gapless may applied => ?_) held).seq
        fun _ last done final follows => ⟨Follows.gapless follows done.1, reported_later follows done.1 done.2⟩
      have known := known_later follows held known
      have fits := may rfl rows known.read
      rw [called] at fits
      obtain ⟨head, few⟩ := fits
      have still : ¬ HasEnded env calls last := fun ended => by
        rw [(gapless.ended ended).head] at head
        cases head
      obtain ⟨count, -, paged⟩ := gapless.paged
      obtain ⟨paged, kept, listed, -⟩ := new_pages_commit paged some_fresh (known_bounded known still paged) applied
      have other : calls party ≠ .finish := by
        rw [called]
        exact SessionCall.noConfusion
      refine ⟨commit_follows other still applied ⟨_, few, paged⟩ fun page item _ found => ⟨item, kept page item found, rfl⟩,
        fun _ name member => ?_⟩
      rw [commit_partition applied]
      by_cases already : name ∈ (rows.flatMap fun row => row.2.body).toFinset
      next =>
        obtain ⟨row, member, named, item, found, body⟩ := told known already still
        exact ⟨row.1, item, known.own row member, kept row.1 item found, body ▸ named⟩
      next => exact listed name (List.mem_filter.mpr ⟨mem_fromkeys.mpr member, decide_eq_true already⟩)

theorem renew_meets {ttl_us : Int} (called : calls party = .renew ttl_us) (gapless : Gapless env session calls journal) :
    (renew_session env session ttl_us).Meets (uploading corpus env session calls party) (following env session calls)
      (Prog.Meets.Returns fun _ after => Gapless env session calls after) journal := by
  refine (get_session_meets gapless).seq fun current after held => ?_
  refine (@session_look_meets _ corpus env session calls party after _ .now_us (fun _ _ => True) (fun _ => rfl) rfl
    (fun _ _ _ _ _ _ => trivial) (fun _ _ => trivial) held).seq fun now after held => ?_
  refine Prog.Meets.seq (Q := fun _ after => Gapless env session calls after)
    (Prog.Meets.ofExcept fun _ _ later follows => Follows.gapless follows held.1) fun _ after held => ?_
  refine (session_pages_meets held).seq ?_
  rintro rows later ⟨held, known⟩
  refine (@session_transact_meets _ corpus env session calls party later _ _ (fun _ => True) (fun _ _ _ _ _ => trivial)
    (fun last final follows gapless may applied => ⟨?_, trivial⟩) held).seq
      fun _ last done final follows => Follows.gapless follows done.1
  have known := known_later follows held known
  have head := may rfl rows known.read
  rw [called] at head
  have still : ¬ HasEnded env calls last := fun ended => by
    have found : ((last.state.partition env).sessions[session]?).isSome := head
    rw [(gapless.ended ended).head] at found
    cases found
  have same := same_pages_commit known.once (known.stored still) applied
  obtain ⟨count, few, paged⟩ := gapless.paged
  have other : calls party ≠ .finish := by
    rw [called]
    exact SessionCall.noConfusion
  refine commit_follows other still applied ⟨count, few, fun page own => ?_⟩ fun page item own found => ?_
  next =>
    rw [← paged page own, ← Option.isSome_map, same page, Option.isSome_map]
  next =>
    have body := same page
    rw [found] at body
    exact Option.map_eq_some_iff.mp body

theorem end_meets (called : calls party = .finish) (gapless : Gapless env session calls journal) :
    (end_session env session).Meets (uploading corpus env session calls party) (following env session calls)
      (Prog.Meets.Returns fun _ after => Gapless env session calls after ∧ HasEnded env calls after) journal := by
  refine (session_pages_meets gapless).seq ?_
  rintro rows later ⟨held, known⟩
  refine session_transact_meets (fun _ _ follows _ => ended_later follows)
    (fun last final follows gapless may applied => ?_) held
  have known := known_later follows held known
  have whole := may rfl rows known.read
  rw [called] at whole
  exact finish_follows whole called rfl applied

/-- What a call that has returned has seen to. -/
def SessionCall.Done (env : EnvId) (session : SessionId) (calls : ι → SessionCall) (journal : Journal ι) :
    SessionCall → Prop
  | .record names => Reported env session calls names journal
  | .renew _ => True
  | .finish => HasEnded env calls journal

theorem session_call_meets {call : SessionCall} (called : calls party = call) (gapless : Gapless env session calls journal) :
    (call.code env session).Meets (uploading corpus env session calls party) (following env session calls)
      (Prog.Meets.Returns fun _ after => Gapless env session calls after ∧ call.Done env session calls after) journal := by
  cases call with
  | record names =>
    exact (record_meets called gapless).seq fun _ after held later follows =>
      ⟨Follows.gapless follows held.1, reported_later follows held.1 held.2⟩
  | renew ttl_us =>
    exact (renew_meets called gapless).seq fun _ after held later follows => ⟨Follows.gapless follows held, trivial⟩
  | finish => exact end_meets called gapless

end Calls

/-- Whatever else goes on leaves the session alone. -/
structure SparesSession {ι : Type} (env : EnvId) (session : SessionId) (before after : Journal ι) : Prop where
  trace : after.trace = before.trace
  head : (after.state.partition env).sessions[session]? = (before.state.partition env).sessions[session]?
  pages : ∀ page : SessionPage, page.session = session →
    (after.state.partition env).session_pages[page]? = (before.state.partition env).session_pages[page]?

theorem spares_follows {ι : Type} {env : EnvId} {session : SessionId} {calls : ι → SessionCall} {before after : Journal ι}
    (spares : SparesSession env session before after) : Follows env session calls before after := by
  have ended : HasEnded env calls after ↔ HasEnded env calls before := by rw [HasEnded, spares.trace, HasEnded]
  refine ⟨fun gapless => ⟨?_, fun closed => ?_⟩, spares.trace ▸ List.Subset.refl _, fun _ _ page item own found => ?_⟩
  next =>
    obtain ⟨count, few, paged⟩ := gapless.paged
    exact ⟨count, few, fun page own => spares.pages page own ▸ paged page own⟩
  next =>
    have sessionless := gapless.ended (ended.mp closed)
    exact ⟨spares.head.trans sessionless.head, fun page own => (spares.pages page own).trans (sessionless.pages page own)⟩
  next => exact ⟨item, (spares.pages page own).trans found, rfl⟩

/-- In every run of calls that fit what they have read, nothing is left of the session once an end has returned, and until
an end begins every name of a recording that has returned is reported. -/
theorem uploads_kept {ι : Type} [DecidableEq ι] (corpus : Corpus) (env : EnvId) (session : SessionId) (calls : ι → SessionCall)
    (world : World) (unwritten : ∀ page : SessionPage, page.session = session →
      (world.partition env).session_pages[page]? = none)
    {after : Pool ι Cmd Cmd.Response PyError (fun _ => Unit) (Journal ι)}
    (run : Pool.Run (uploading corpus env session calls) (SparesSession env session)
      ⟨⟨world, []⟩, fun party => (calls party).code env session⟩ after) :
    (∀ party, calls party = .finish → after.procs party = .done () →
      (after.shared.state.partition env).Sessionless session) ∧
    ∀ party names, calls party = .record names → after.procs party = .done () →
      (∀ event ∈ after.shared.trace, calls event.party ≠ .finish) →
        ∃ uploaded, runs corpus (uploaded_objects env session) after.shared.state = (.ok uploaded, after.shared.state) ∧
          ∀ name ∈ names, name ∈ uploaded := by
  have start : Gapless env session calls (⟨world, []⟩ : Journal ι) := by
    refine ⟨⟨0, Nat.zero_le _, fun page own => ?_⟩, fun ⟨_, _, _, impossible⟩ => nomatch impossible⟩
    rw [show (world.partition env).session_pages[page]? = none from unwritten page own]
    simp
  have ended := @Pool.run_meets _ _ _ _ _ _ (uploading corpus env session calls) (SparesSession env session)
    (fun _ => following env session calls) (fun party => Prog.Meets.Returns fun _ after =>
      Gapless env session calls after ∧ (calls party).Done env session calls after) _ _ _
    (fun _ _ _ _ _ kept => kept) (fun _ _ _ => spares_follows) (fun party => session_call_meets rfl start) run
  constructor
  next =>
    intro party finish returned
    obtain ⟨gapless, done⟩ := ended.returned returned
    rw [finish] at done
    exact gapless.ended done
  next =>
    intro party names recorded returned open_still
    obtain ⟨gapless, done⟩ := ended.returned returned
    rw [recorded] at done
    obtain ⟨count, few, paged⟩ := gapless.paged
    have still : ¬ HasEnded env calls after.shared := fun ⟨other, writes, finish, member⟩ => open_still _ member finish
    refine ⟨_, rfl, fun name member => ?_⟩
    obtain ⟨page, item, own, found, listed⟩ := done still name member
    refine List.mem_flatMap.mpr ⟨(page, item), ?_, listed⟩
    show (page, item) ∈ (after.shared.state.partition env).query PAGE_QUERY_LIMIT (.session_pages session)
    rw [page_query_whole paged few]
    exact List.mem_filter.mpr ⟨Std.ExtTreeMap.mem_toList_iff_getElem?_eq_some.mpr found, decide_eq_true own⟩

/-! ## A page that comes too late -/

inductive Uploader
  | recorder | renewer | closer
deriving DecidableEq

def uploaders : Uploader → SessionCall
  | .recorder => .record [emptyTreeName]
  | .renewer => .renew WRITE_LEASE_TTL_US
  | .closer => .finish

/-- An environment with one upload session. -/
def openedEnv : World := (runs .none (begin_write ⟨"env"⟩ ⟨"s"⟩ "a" WRITE_LEASE_TTL_US) newEnv).2

abbrev Uploading := Pool Uploader Cmd Cmd.Response PyError (fun _ => Unit) (Journal Uploader)

def uploadsBegun : Uploading := ⟨⟨openedEnv, []⟩, fun party => (uploaders party).code ⟨"env"⟩ ⟨"s"⟩⟩

/-- One after the other. -/
def uploadsInOrder : Uploading :=
  uploadsBegun.play (uploading .none ⟨"env"⟩ ⟨"s"⟩ uploaders) [.turn .recorder 3, .turn .renewer 4, .turn .closer 2]

theorem uploads_kept_in_order : (uploadsInOrder.shared.state.partition ⟨"env"⟩).Sessionless ⟨"s"⟩ :=
  (uploads_kept .none ⟨"env"⟩ ⟨"s"⟩ uploaders openedEnv (unlisted_pages (by decide +kernel))
    (Pool.Run.play (by simp) (by decide +kernel))).1 .closer rfl (Prog.value_eq_some.mp (by decide +kernel))

/-- The page is recorded between the end's read of the pages and its deletion of what it has read. -/
def recordedBetween : Uploading :=
  [(.closer, 1), (.recorder, 3), (.closer, 1), (.renewer, 1)].foldl
    (fun before turn => before.turn (at_will .none) turn.1 turn.2) uploadsBegun

/-- All calls are over, the session has been ended, and one of its pages is there. -/
theorem page_outlives_session :
    Pool.Run (at_will .none) (SparesSession ⟨"env"⟩ ⟨"s"⟩) uploadsBegun recordedBetween ∧
      recordedBetween.procs .recorder = .done () ∧ recordedBetween.procs .closer = .done () ∧
      recordedBetween.procs .renewer = .fail (.notFound "write session does not exist") ∧
      ¬ (recordedBetween.shared.state.partition ⟨"env"⟩).Sessionless ⟨"s"⟩ := by
  refine ⟨Pool.Run.turns (fun _ _ _ => trivial) _ _, Prog.value_eq_some.mp (by decide +kernel),
    Prog.value_eq_some.mp (by decide +kernel), ?_, fun sessionless => ?_⟩
  next => rfl
  next =>
    have there : ((recordedBetween.shared.state.partition ⟨"env"⟩).session_pages[(⟨⟨"s"⟩, 0⟩ : SessionPage)]?).isSome := by
      decide +kernel
    rw [sessionless.pages ⟨⟨"s"⟩, 0⟩ rfl] at there
    cases there

end LedgerVcs
