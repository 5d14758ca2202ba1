import LedgerVcs.Lib.Machine
import LedgerVcs.Lib.Ordered
import LedgerVcs.Meta.Store
import Mathlib.Data.Prod.Lex

set_option autoImplicit false

/-! The change stream: every shard's outbox, and a consumer that polls them. -/

namespace LedgerVcs

structure OutboxRow where
  pk : EnvId
  event : StreamEvent
  created_at_us : Int
deriving DecidableEq

/-- One entry of the change stream. -/
structure Event where
  sequence : Nat
  shard : Nat
  partition : EnvId
  event : StreamEvent
  created_at_us : Int
deriving DecidableEq

/-! ## The consumer's position -/

structure StreamCursor where
  positions : List Nat
deriving DecidableEq

namespace StreamCursor

def start (shard_count : Nat) : StreamCursor := ⟨List.replicate shard_count 0⟩

def position (cursor : StreamCursor) (shard : Nat) : Nat := cursor.positions[shard]?.getD 0

def advance (cursor : StreamCursor) (event : Event) : StreamCursor :=
  if event.shard < cursor.positions.length then
    ⟨cursor.positions.set event.shard (max (cursor.position event.shard) event.sequence)⟩
  else cursor

def advanced (cursor : StreamCursor) (events : List Event) : StreamCursor := events.foldl advance cursor

@[simp] theorem position_start (shard_count shard : Nat) : (start shard_count).position shard = 0 := by
  rw [position, start, List.getElem?_replicate]
  split <;> rfl

theorem length_advance (cursor : StreamCursor) (event : Event) :
    (cursor.advance event).positions.length = cursor.positions.length := by
  rw [advance]
  split <;> simp

theorem position_advance {cursor : StreamCursor} {event : Event} (known : event.shard < cursor.positions.length)
    (shard : Nat) :
    (cursor.advance event).position shard =
      if event.shard = shard then max (cursor.position shard) event.sequence else cursor.position shard := by
  rw [advance, if_pos known]
  by_cases same : event.shard = shard
  next => subst same; simp [position, known]
  next => simp [position, same]

theorem length_advanced (cursor : StreamCursor) (events : List Event) :
    (cursor.advanced events).positions.length = cursor.positions.length := by
  induction events generalizing cursor with
  | nil => rfl
  | cons event events ih => exact (ih _).trans (length_advance cursor event)

/-- A position moves to the last of the shard's events, if at all. -/
theorem position_advanced {cursor : StreamCursor} {events : List Event}
    (known : ∀ event ∈ events, event.shard < cursor.positions.length) (shard : Nat) :
    (∀ event ∈ events, event.shard = shard → event.sequence ≤ (cursor.advanced events).position shard) ∧
      cursor.position shard ≤ (cursor.advanced events).position shard ∧
      ((cursor.advanced events).position shard = cursor.position shard ∨
        ∃ event ∈ events, event.shard = shard ∧ event.sequence = (cursor.advanced events).position shard) := by
  induction events generalizing cursor with
  | nil => exact ⟨fun _ none => absurd none List.not_mem_nil, le_refl _, .inl rfl⟩
  | cons event events ih =>
    obtain ⟨first, others⟩ := List.forall_mem_cons.mp known
    have step := position_advance first shard
    obtain ⟨passed, grows, reached⟩ :=
      ih (fun later member => (length_advance cursor event).symm ▸ others later member)
    have whole : cursor.advanced (event :: events) = (cursor.advance event).advanced events := rfl
    rw [whole]
    rw [step] at grows reached
    refine ⟨List.forall_mem_cons.mpr ⟨fun same => ?_, passed⟩, ?_, ?_⟩
    next => rw [if_pos same] at grows; omega
    next => split at grows <;> omega
    next =>
      rcases reached with stays | ⟨later, member, there⟩
      next =>
        by_cases same : event.shard = shard
        next =>
          rw [if_pos same] at stays
          by_cases behind : event.sequence ≤ cursor.position shard
          next => exact .inl (by rw [stays]; omega)
          next => exact .inr ⟨event, List.mem_cons_self, same, by rw [stays]; omega⟩
        next =>
          rw [if_neg same] at stays
          exact .inl stays
      next => exact .inr ⟨later, List.mem_cons_of_mem _ member, there⟩

theorem position_le_advanced (cursor : StreamCursor) (events : List Event) (shard : Nat) :
    cursor.position shard ≤ (cursor.advanced events).position shard := by
  induction events generalizing cursor with
  | nil => exact le_refl _
  | cons event events ih =>
    refine le_trans ?_ (ih (cursor.advance event))
    by_cases known : event.shard < cursor.positions.length
    next =>
      rw [position_advance known]
      split
      next => exact le_max_left _ _
      next => exact le_refl _
    next => rw [advance, if_neg known]

end StreamCursor

/-! ## The store -/

/-- Every partition, and an outbox for every shard. -/
structure ShardedStore where
  partitions : EnvId → Partition
  outboxes : Nat → List OutboxRow

def ShardedStore.new : ShardedStore := ⟨fun _ => .empty, fun _ => []⟩

def emitted (writes : List WriteOp) : List StreamEvent :=
  writes.filterMap fun
    | .emit event => some event
    | _ => none

section Store

variable (blake3 : Blake3) (shard_count : Nat)

def ShardedStore.shard_of (pk : EnvId) : Nat :=
  ((blake3.digest (pk.value.toList.flatMap String.utf8EncodeChar) 4).headD 0).toNat % shard_count

/-- The clock is read before the transaction begins. -/
def ShardedStore.transact_write (store : ShardedStore) (pk : EnvId) (writes : List WriteOp) (now_us : Int) :
    Except PyError ShardedStore := do
  let partition ← (store.partitions pk).transact_write writes
  let shard := ShardedStore.shard_of blake3 shard_count pk
  return {
    partitions := Function.update store.partitions pk partition
    outboxes := Function.update store.outboxes shard
      (store.outboxes shard ++ (emitted writes).map fun event => ⟨pk, event, now_us⟩) }

/-- A shard numbers its rows from one. -/
def ShardedStore.events (store : ShardedStore) (shard : Nat) : List Event :=
  (store.outboxes shard).mapIdx fun index row => ⟨index + 1, shard, row.pk, row.event, row.created_at_us⟩

/-- `SELECT * FROM outbox WHERE seq > after ORDER BY seq LIMIT limit` -/
def ShardedStore.select (store : ShardedStore) (shard after limit : Nat) : List Event :=
  ((store.events shard).filter fun event => after < event.sequence).take limit

end Store

def Event.key (event : Event) : Int ×ₗ ℕ ×ₗ ℕ :=
  toLex (event.created_at_us, toLex (event.shard, event.sequence))

/-- What `read_events` makes of the rows it has selected. -/
def merge_events (limit : Nat) (events : List Event) : List Event :=
  (events.insertionSort fun left right => left.key ≤ right.key).take limit

/-! ## The runs -/

/-- A poll under way: the shards it has still to read, and what it has read. -/
structure Poll where
  limit : Nat
  shards : List Nat
  events : List Event

structure Stream where
  store : ShardedStore
  cursor : StreamCursor
  delivered : List Event
  poll : Option Poll

inductive StreamStep
  /-- A transaction commits. -/
  | commit (pk : EnvId) (writes : List WriteOp) (now_us : Int)
  /-- The consumer starts a poll. -/
  | read_events (limit : Nat)
  /-- It reads the next shard, or has read them all and moves its cursor on. -/
  | proceed

section Runs

variable (blake3 : Blake3) (shard_count : Nat)

def Stream.new : Stream := ⟨.new, .start shard_count, [], none⟩

def Stream.step (stream : Stream) : StreamStep → Stream
  | .commit pk writes now_us =>
    match stream.store.transact_write blake3 shard_count pk writes now_us with
    | .ok store => { stream with store }
    | .error _ => stream
  | .read_events limit =>
    match stream.poll with
    | none => { stream with poll := some ⟨limit, List.range shard_count, []⟩ }
    | some _ => stream
  | .proceed =>
    match stream.poll with
    | none => stream
    | some ⟨limit, shard :: shards, events⟩ =>
      let selected := stream.store.select shard (stream.cursor.position shard) limit
      { stream with poll := some ⟨limit, shards, events ++ selected⟩ }
    | some ⟨limit, [], events⟩ =>
      let batch := merge_events limit events
      { stream with
        cursor := stream.cursor.advanced batch, delivered := stream.delivered ++ batch, poll := none }

end Runs

/-! ## Partitions and shards -/

theorem apply_outbox {partition after : Partition} {write : WriteOp} (applied : apply partition write = .ok after) :
    after.outbox = partition.outbox ++ emitted [write] := by
  cases write with
  | emit event =>
    obtain rfl := Except.ok.inj applied
    rfl
  | delete key condition =>
    obtain ⟨-, -, result⟩ := Monads.except_bind_ok.mp applied
    obtain rfl := Except.ok.inj result
    cases key <;> exact (List.append_nil _).symm
  | put key body condition generation expires_at_us =>
    obtain ⟨-, -, result⟩ := Monads.except_bind_ok.mp applied
    obtain rfl := Except.ok.inj result
    cases key <;> exact (List.append_nil _).symm

theorem transact_outbox {partition after : Partition} {writes : List WriteOp}
    (committed : partition.transact_write writes = .ok after) :
    after.outbox = partition.outbox ++ emitted writes := by
  induction writes generalizing partition with
  | nil =>
    obtain rfl := Except.ok.inj committed
    exact (List.append_nil _).symm
  | cons write writes ih =>
    obtain ⟨middle, applied, rest⟩ := Monads.except_bind_ok.mp committed
    have split : emitted (write :: writes) = emitted [write] ++ emitted writes :=
      (List.filterMap_append (l := [write]))
    rw [ih rest, apply_outbox applied, split, List.append_assoc]

/-- A shard holds the outboxes of its partitions, and nothing else. -/
def ShardedStore.Recorded (blake3 : Blake3) (shard_count : Nat) (store : ShardedStore) : Prop :=
  ∀ pk, ((store.outboxes (ShardedStore.shard_of blake3 shard_count pk)).filter fun row => row.pk = pk).map
    OutboxRow.event = (store.partitions pk).outbox

theorem transact_recorded {blake3 : Blake3} {shard_count : Nat} {store after : ShardedStore} {pk : EnvId}
    {writes : List WriteOp} {now_us : Int} (recorded : store.Recorded blake3 shard_count)
    (committed : store.transact_write blake3 shard_count pk writes now_us = .ok after) :
    after.Recorded blake3 shard_count := by
  obtain ⟨partition, written, result⟩ := Monads.except_bind_ok.mp committed
  obtain rfl := Except.ok.inj result
  intro other
  have before := recorded other
  by_cases same : other = pk
  next =>
    subst same
    simp only [Function.update_self, List.filter_append, List.map_append, before, transact_outbox written]
    congr 1
    induction emitted writes with
    | nil => rfl
    | cons event events ih => simpa using ih
  next =>
    have others : ((emitted writes).map fun event => OutboxRow.mk pk event now_us).filter
        (fun row => row.pk = other) = [] :=
      List.filter_eq_nil_iff.mpr fun row member => by
        obtain ⟨event, -, rfl⟩ := List.mem_map.mp member
        simpa using Ne.symm same
    simp only [Function.update_of_ne same, ← before]
    by_cases shard : ShardedStore.shard_of blake3 shard_count other = ShardedStore.shard_of blake3 shard_count pk
    next => rw [shard, Function.update_self, List.filter_append, others, List.append_nil]
    next => rw [Function.update_of_ne shard]

theorem run_recorded (blake3 : Blake3) (shard_count : Nat) (steps : List StreamStep) :
    (Machine.run (Stream.step blake3 shard_count) steps (Stream.new shard_count)).store.Recorded blake3 shard_count := by
  refine Machine.run_keeps (I := fun stream : Stream => stream.store.Recorded blake3 shard_count)
    (fun stream action _ recorded => ?_) (Machine.along_true steps _) (fun _ => rfl)
  cases action with
  | commit pk writes now_us =>
    rw [Stream.step]
    cases committed : stream.store.transact_write blake3 shard_count pk writes now_us with
    | ok after => exact transact_recorded recorded committed
    | error => exact recorded
  | read_events limit => rw [Stream.step]; split <;> exact recorded
  | proceed => rw [Stream.step]; split <;> exact recorded

/-! ## The rows -/

open Ordered (rank)

section Rows

variable {store : ShardedStore} {shard : Nat} {event : Event}

theorem events_ascending : Ordered.Ascending Event.sequence (store.events shard) := by
  rw [Ordered.Ascending, ShardedStore.events, List.pairwise_iff_getElem]
  intro first second below bound before
  simp only [List.getElem_mapIdx]
  omega

theorem mem_events (member : event ∈ store.events shard) :
    event.shard = shard ∧ 0 < event.sequence ∧ event.sequence ≤ (store.outboxes shard).length ∧
      ∃ row ∈ store.outboxes shard, event.partition = row.pk := by
  obtain ⟨index, bound, rfl⟩ := List.getElem_of_mem member
  simp only [ShardedStore.events, List.length_mapIdx] at bound
  simp only [ShardedStore.events, List.getElem_mapIdx]
  exact ⟨trivial, by omega, by omega, _, List.getElem_mem bound, rfl⟩

theorem event_at {sequence : Nat} (positive : 0 < sequence) (bound : sequence ≤ (store.outboxes shard).length) :
    ∃ event ∈ store.events shard, event.sequence = sequence := by
  have there : sequence - 1 < (store.events shard).length := by rw [ShardedStore.events, List.length_mapIdx]; omega
  refine ⟨(store.events shard)[sequence - 1], List.getElem_mem there, ?_⟩
  simp only [ShardedStore.events, List.getElem_mapIdx]
  omega

/-- A shard's rows stay where they are when others come after them. -/
theorem events_grow {after : ShardedStore} (grows : store.outboxes shard <+: after.outboxes shard) :
    event ∈ store.events shard ↔
      event ∈ after.events shard ∧ event.sequence ≤ (store.outboxes shard).length := by
  obtain ⟨more, whole⟩ := grows
  rw [ShardedStore.events, ShardedStore.events, ← whole, List.mapIdx_append, List.mem_append]
  constructor
  next => exact fun member => ⟨.inl member, (mem_events member).2.2.1⟩
  next =>
    rintro ⟨old | new, early⟩
    next => exact old
    next =>
      obtain ⟨index, bound, rfl⟩ := List.getElem_of_mem new
      simp only [List.getElem_mapIdx] at early
      omega

theorem key_lt {left right : Event} (same : left.shard = right.shard) :
    left.key < right.key ↔ left.created_at_us < right.created_at_us ∨
      left.created_at_us = right.created_at_us ∧ left.sequence < right.sequence := by
  simp only [Event.key, Prod.Lex.toLex_lt_toLex, same, lt_self_iff_false, true_and, false_or]

theorem key_inj {left right : Event} (same : left.key = right.key) :
    left.shard = right.shard ∧ left.sequence = right.sequence := by
  simp only [Event.key, toLex_inj, Prod.mk.injEq] at same
  exact same.2

end Rows

/-! ## One poll -/

/-- The rows a poll has read, each shard's from the cursor on and without a gap. -/
structure Selected (store : ShardedStore) (cursor : StreamCursor) (events : List Event) : Prop where
  genuine : ∀ event ∈ events, event ∈ store.events event.shard
  fresh : ∀ event ∈ events, cursor.position event.shard < event.sequence
  closed : ∀ event ∈ events, ∀ earlier ∈ store.events event.shard, cursor.position event.shard < earlier.sequence →
    earlier.sequence ≤ event.sequence → earlier ∈ events
  apart : events.Nodup

/-- Where the clock readings of two rows of one shard are not in the order of their numbers, they are of
different partitions, and the limit does not fall between them in the order of time. -/
def Tidy (limit : Nat) (events : List Event) : Prop :=
  ∀ earlier ∈ events, ∀ later ∈ events, earlier.shard = later.shard → earlier.sequence < later.sequence →
    later.created_at_us < earlier.created_at_us →
      limit ≤ rank Event.key events later ∨
        earlier.partition ≠ later.partition ∧ rank Event.key events earlier < limit

instance (limit : Nat) (events : List Event) : Decidable (Tidy limit events) := by
  unfold Tidy
  infer_instance

/-- Where the clock readings of two rows of one shard are not in the order of their numbers, the limit does not
fall between them in the order of time. -/
def Unskipping (limit : Nat) (events : List Event) : Prop :=
  ∀ earlier ∈ events, ∀ later ∈ events, earlier.shard = later.shard → earlier.sequence < later.sequence →
    later.created_at_us < earlier.created_at_us →
      limit ≤ rank Event.key events later ∨ rank Event.key events earlier < limit

instance (limit : Nat) (events : List Event) : Decidable (Unskipping limit events) := by
  unfold Unskipping
  infer_instance

theorem Tidy.unskipping {limit : Nat} {events : List Event} (tidy : Tidy limit events) : Unskipping limit events :=
  fun earlier first later second shard before inverted =>
    (tidy earlier first later second shard before inverted).imp_right And.right

section Merge

variable {store : ShardedStore} {cursor : StreamCursor} {events : List Event} {limit : Nat} {event : Event}

theorem Selected.same (selected : Selected store cursor events) {other : Event} (first : event ∈ events)
    (second : other ∈ events) (shard : event.shard = other.shard) (sequence : event.sequence = other.sequence) :
    event = other :=
  events_ascending.inj (selected.genuine event first) (shard ▸ selected.genuine other second) sequence

theorem sorted_ascending (selected : Selected store cursor events) :
    Ordered.Ascending Event.key (events.insertionSort fun left right => left.key ≤ right.key) := by
  refine Ordered.insertionSort_ascending (List.Pairwise.imp_of_mem (fun first second different same => ?_) selected.apart)
  exact different (selected.same first second (key_inj same).1 (key_inj same).2)

theorem merged_ascending (selected : Selected store cursor events) :
    Ordered.Ascending Event.key (merge_events limit events) :=
  (sorted_ascending selected).sublist (List.take_sublist _ _)

theorem mem_merged (selected : Selected store cursor events) :
    event ∈ merge_events limit events ↔ event ∈ events ∧ rank Event.key events event < limit := by
  rw [merge_events, Ordered.mem_take (sorted_ascending selected), List.mem_insertionSort,
    Ordered.rank_perm (List.perm_insertionSort _ _)]

/-- A poll that skips nothing leaves nothing behind the position it moves to. -/
theorem merged_closed (selected : Selected store cursor events) (whole : Unskipping limit events) {earlier : Event}
    (taken : event ∈ merge_events limit events) (member : earlier ∈ store.events event.shard)
    (fresh : cursor.position event.shard < earlier.sequence) (before : earlier.sequence ≤ event.sequence) :
    earlier ∈ merge_events limit events := by
  obtain ⟨there, small⟩ := (mem_merged selected).mp taken
  have read := selected.closed event there earlier member fresh before
  have shard := (mem_events member).1
  refine (mem_merged selected).mpr ⟨read, ?_⟩
  by_cases sooner : earlier.key ≤ event.key
  next =>
    have below := Ordered.take_closed (sorted_ascending selected) taken ((List.mem_insertionSort _).mpr read) sooner
    exact ((mem_merged selected).mp below).2
  next =>
    rw [not_le, key_lt shard.symm] at sooner
    rcases sooner with inverted | ⟨-, behind⟩
    next =>
      have strictly : earlier.sequence < event.sequence := by
        refine lt_of_le_of_ne before fun same => ?_
        rw [selected.same read there shard same] at inverted
        exact lt_irrefl _ inverted
      rcases whole earlier read event there shard strictly inverted with late | early
      next => omega
      next => exact early
    next => omega

/-- A tidy poll hands on the events of a partition in the order of their numbers. -/
theorem merged_in_order (selected : Selected store cursor events) (tidy : Tidy limit events)
    (placed : ∀ left ∈ events, ∀ right ∈ events, left.partition = right.partition → left.shard = right.shard)
    (pk : EnvId) : Ordered.Ascending Event.sequence ((merge_events limit events).filter fun event => event.partition = pk) := by
  refine List.Pairwise.imp_of_mem (fun {left right} first second before => ?_)
    ((merged_ascending selected).sublist List.filter_sublist)
  obtain ⟨leftTaken, leftOf⟩ := List.mem_filter.mp first
  obtain ⟨rightTaken, rightOf⟩ := List.mem_filter.mp second
  obtain ⟨leftRead, small⟩ := (mem_merged selected).mp leftTaken
  obtain ⟨rightRead, -⟩ := (mem_merged selected).mp rightTaken
  have partition : right.partition = left.partition :=
    (of_decide_eq_true rightOf).trans (of_decide_eq_true leftOf).symm
  have shard := placed right rightRead left leftRead partition
  by_contra backwards
  rcases (key_lt shard.symm).mp before with sooner | ⟨-, ordered⟩
  next =>
    rcases lt_or_eq_of_le (not_lt.mp backwards) with strictly | same
    next =>
      rcases tidy right rightRead left leftRead shard strictly sooner with late | ⟨different, -⟩
      next => omega
      next => exact different partition
    next =>
      rw [selected.same rightRead leftRead shard same] at sooner
      exact lt_irrefl _ sooner
  next => exact backwards ordered

theorem tidy_of_merged (selected : Selected store cursor events)
    (closed : ∀ later ∈ merge_events limit events, ∀ earlier ∈ events, earlier.shard = later.shard →
      earlier.sequence < later.sequence → earlier ∈ merge_events limit events)
    (ordered : ∀ pk, Ordered.Ascending Event.sequence
      ((merge_events limit events).filter fun event => event.partition = pk)) : Tidy limit events := by
  intro earlier first later second shard before inverted
  by_cases late : limit ≤ rank Event.key events later
  next => exact .inl late
  next =>
    have taken := (mem_merged selected).mpr ⟨second, not_le.mp late⟩
    have kept := closed later taken earlier first shard before
    refine .inr ⟨fun partition => ?_, ((mem_merged selected).mp kept).2⟩
    have there : ∀ event ∈ merge_events limit events, event.partition = later.partition →
        event ∈ (merge_events limit events).filter fun event => event.partition = later.partition :=
      fun event member same => List.mem_filter.mpr ⟨member, decide_eq_true same⟩
    have backwards := Ordered.agree ((merged_ascending selected).sublist List.filter_sublist) (ordered _)
      (there later taken rfl) (there earlier kept partition) ((key_lt shard.symm).mpr (.inl inverted))
    exact absurd backwards (not_lt_of_gt before)

end Merge

/-! ## The invariant -/

/-- Nothing is left behind the cursor. -/
def NoSkip (stream : Stream) : Prop :=
  ∀ shard, ∀ event ∈ stream.store.events shard, event.sequence ≤ stream.cursor.position shard →
    event ∈ stream.delivered

/-- The events of one partition are delivered once each and in their outbox order. -/
def InOrder (stream : Stream) : Prop :=
  ∀ pk, Ordered.Ascending Event.sequence (stream.delivered.filter fun event => event.partition = pk)

/-- A poll that has read all shards is about to hand on a tidy batch. -/
def Stream.May (stream : Stream) : StreamStep → Prop
  | .proceed => ∀ limit events, stream.poll = some ⟨limit, [], events⟩ → Tidy limit events
  | _ => True

instance (stream : Stream) : (action : StreamStep) → Decidable (stream.May action)
  | .commit _ _ _ | .read_events _ => isTrue trivial
  | .proceed =>
    match under : stream.poll with
    | none => isTrue fun _ _ same => by rw [under] at same; cases same
    | some ⟨_, _ :: _, _⟩ => isTrue fun _ _ same => by rw [under] at same; cases same
    | some ⟨limit, [], events⟩ =>
      decidable_of_iff (Tidy limit events)
        ⟨fun tidy _ _ same => by rw [under] at same; cases same; exact tidy, fun may => may _ _ under⟩

section Invariant

variable (blake3 : Blake3) (shard_count : Nat)

/-- What a poll under way has read. -/
structure Reading (stream : Stream) (poll : Poll) : Prop where
  selected : Selected stream.store stream.cursor poll.events
  once : poll.shards.Nodup
  ahead : ∀ event ∈ poll.events, event.shard ∉ poll.shards
  known : ∀ shard ∈ poll.shards, shard < shard_count

structure Sound (stream : Stream) : Prop where
  known : stream.cursor.positions.length = shard_count
  placed : ∀ shard, ∀ row ∈ stream.store.outboxes shard, ShardedStore.shard_of blake3 shard_count row.pk = shard
  genuine : ∀ event ∈ stream.delivered,
    event ∈ stream.store.events event.shard ∧ event.sequence ≤ stream.cursor.position event.shard
  behind : ∀ shard, stream.cursor.position shard ≤ (stream.store.outboxes shard).length
  unskipped : NoSkip stream
  ordered : InOrder stream
  reading : ∀ poll, stream.poll = some poll → Reading shard_count stream poll

end Invariant

section Steps

variable {blake3 : Blake3} {shard_count : Nat} {stream : Stream}

theorem new_sound : Sound blake3 shard_count (Stream.new shard_count) where
  known := List.length_replicate
  placed _ _ none := absurd none List.not_mem_nil
  genuine _ none := absurd none List.not_mem_nil
  behind shard := by simp [Stream.new]
  unskipped _ _ none := absurd none List.not_mem_nil
  ordered _ := List.Pairwise.nil
  reading _ impossible := by cases impossible

theorem Sound.shard_of (sound : Sound blake3 shard_count stream) {event : Event}
    (member : event ∈ stream.store.events event.shard) :
    ShardedStore.shard_of blake3 shard_count event.partition = event.shard := by
  obtain ⟨-, -, -, row, there, same⟩ := mem_events member
  rw [same]
  exact sound.placed _ row there

/-! ### A commit -/

theorem commit_grows {store after : ShardedStore} {pk : EnvId} {writes : List WriteOp} {now_us : Int}
    (committed : store.transact_write blake3 shard_count pk writes now_us = .ok after) (shard : Nat) :
    store.outboxes shard <+: after.outboxes shard ∧ ∀ row ∈ after.outboxes shard,
      row ∈ store.outboxes shard ∨ ShardedStore.shard_of blake3 shard_count row.pk = shard := by
  simp only [ShardedStore.transact_write, Monads.except_bind_ok, pure, Except.pure, Except.ok.injEq] at committed
  obtain ⟨partition, -, rfl⟩ := committed
  by_cases same : shard = ShardedStore.shard_of blake3 shard_count pk
  next =>
    subst same
    simp only [Function.update_self]
    refine ⟨List.prefix_append _ _, fun row member => ?_⟩
    rcases List.mem_append.mp member with old | new
    next => exact .inl old
    next =>
      obtain ⟨event, -, rfl⟩ := List.mem_map.mp new
      exact .inr rfl
  next =>
    simp only [Function.update_of_ne same]
    exact ⟨List.prefix_rfl, fun row member => .inl member⟩

theorem Selected.grow {store after : ShardedStore} {cursor : StreamCursor} {events : List Event}
    (selected : Selected store cursor events) (grows : ∀ shard, store.outboxes shard <+: after.outboxes shard) :
    Selected after cursor events where
  genuine event member := ((events_grow (grows _)).mp (selected.genuine event member)).1
  fresh := selected.fresh
  closed event member earlier there fresh before := by
    refine selected.closed event member earlier ((events_grow (grows _)).mpr ⟨there, ?_⟩) fresh before
    exact before.trans (mem_events (selected.genuine event member)).2.2.1
  apart := selected.apart

theorem commit_sound (sound : Sound blake3 shard_count stream) {pk : EnvId} {writes : List WriteOp} {now_us : Int}
    {after : ShardedStore} (committed : stream.store.transact_write blake3 shard_count pk writes now_us = .ok after) :
    Sound blake3 shard_count { stream with store := after } where
  known := sound.known
  placed shard row member := by
    rcases (commit_grows committed shard).2 row member with old | new
    next => exact sound.placed shard row old
    next => exact new
  genuine event member :=
    ⟨((events_grow (commit_grows committed _).1).mp (sound.genuine event member).1).1, (sound.genuine event member).2⟩
  behind shard := (sound.behind shard).trans (commit_grows committed shard).1.length_le
  unskipped shard event member before :=
    sound.unskipped shard event
      ((events_grow (commit_grows committed shard).1).mpr ⟨member, before.trans (sound.behind shard)⟩) before
  ordered := sound.ordered
  reading poll under :=
    { sound.reading poll under with
      selected := (sound.reading poll under).selected.grow fun shard => (commit_grows committed shard).1 }

/-! ### A read -/

theorem mem_select {store : ShardedStore} {shard after limit : Nat} {event : Event}
    (member : event ∈ store.select shard after limit) : event ∈ store.events shard ∧ after < event.sequence := by
  have kept := List.mem_filter.mp (List.mem_of_mem_take member)
  exact ⟨kept.1, of_decide_eq_true kept.2⟩

theorem select_closed {store : ShardedStore} {shard after limit : Nat} {event earlier : Event}
    (member : event ∈ store.select shard after limit) (there : earlier ∈ store.events shard)
    (fresh : after < earlier.sequence) (before : earlier.sequence ≤ event.sequence) :
    earlier ∈ store.select shard after limit :=
  Ordered.take_closed (events_ascending.sublist List.filter_sublist) member
    (List.mem_filter.mpr ⟨there, decide_eq_true fresh⟩) before

theorem Selected.read {store : ShardedStore} {cursor : StreamCursor} {events : List Event} {shard : Nat}
    (selected : Selected store cursor events) (apart : ∀ event ∈ events, event.shard ≠ shard) (limit : Nat) :
    Selected store cursor (events ++ store.select shard (cursor.position shard) limit) := by
  have own (event : Event) (member : event ∈ store.select shard (cursor.position shard) limit) : event.shard = shard :=
    (mem_events (mem_select member).1).1
  refine ⟨fun event member => ?_, fun event member => ?_, fun event member earlier there fresh before => ?_, ?_⟩
  next =>
    rcases List.mem_append.mp member with old | new
    next => exact selected.genuine event old
    next => rw [own event new]; exact (mem_select new).1
  next =>
    rcases List.mem_append.mp member with old | new
    next => exact selected.fresh event old
    next => rw [own event new]; exact (mem_select new).2
  next =>
    rcases List.mem_append.mp member with old | new
    next => exact List.mem_append_left _ (selected.closed event old earlier there fresh before)
    next =>
      rw [own event new] at there fresh
      exact List.mem_append_right _ (select_closed new there fresh before)
  next =>
    refine selected.apart.append ?_ fun event old new => apart event old (own event new)
    exact (events_ascending.sublist ((List.take_sublist _ _).trans List.filter_sublist)).nodup

theorem Reading.read {limit shard : Nat} {shards : List Nat} {events : List Event}
    (reading : Reading shard_count stream ⟨limit, shard :: shards, events⟩) :
    Reading shard_count stream
      ⟨limit, shards, events ++ stream.store.select shard (stream.cursor.position shard) limit⟩ := by
  obtain ⟨absent, once⟩ := List.nodup_cons.mp reading.once
  have apart (event : Event) (member : event ∈ events) : event.shard ≠ shard := fun same =>
    reading.ahead event member (same ▸ List.mem_cons_self)
  refine ⟨reading.selected.read apart limit, once, fun event member => ?_,
    fun other member => reading.known other (List.mem_cons_of_mem _ member)⟩
  rcases List.mem_append.mp member with old | new
  next => exact fun later => reading.ahead event old (List.mem_cons_of_mem _ later)
  next => rw [(mem_events (mem_select new).1).1]; exact absent

/-! ### The end of a poll -/

def Stream.hand_on (stream : Stream) (batch : List Event) : Stream :=
  { stream with cursor := stream.cursor.advanced batch, delivered := stream.delivered ++ batch, poll := none }

theorem advanced_by (sound : Sound blake3 shard_count stream) (positive : 0 < shard_count) {limit : Nat}
    {events : List Event} (selected : Selected stream.store stream.cursor events) (shard : Nat) :
    (∀ event ∈ merge_events limit events, event.shard = shard →
      event.sequence ≤ (stream.cursor.advanced (merge_events limit events)).position shard) ∧
      stream.cursor.position shard ≤ (stream.cursor.advanced (merge_events limit events)).position shard ∧
      ((stream.cursor.advanced (merge_events limit events)).position shard = stream.cursor.position shard ∨
        ∃ event ∈ merge_events limit events, event.shard = shard ∧
          event.sequence = (stream.cursor.advanced (merge_events limit events)).position shard) := by
  refine StreamCursor.position_advanced (fun event member => ?_) shard
  have read := ((mem_merged selected).mp member).1
  rw [sound.known, ← sound.shard_of (selected.genuine event read)]
  exact Nat.mod_lt _ positive

theorem finish_sound (sound : Sound blake3 shard_count stream) (positive : 0 < shard_count) {limit : Nat}
    {events : List Event} (selected : Selected stream.store stream.cursor events) (tidy : Tidy limit events) :
    Sound blake3 shard_count (stream.hand_on (merge_events limit events)) := by
  have advanced := @advanced_by blake3 shard_count stream sound positive limit events selected
  have genuine (event : Event) (member : event ∈ merge_events limit events) :
      event ∈ stream.store.events event.shard := selected.genuine event ((mem_merged selected).mp member).1
  refine ⟨?_, sound.placed, fun event member => ?_, fun shard => ?_, fun shard event member before => ?_,
    fun pk => ?_, fun _ impossible => by cases impossible⟩
  next => exact (StreamCursor.length_advanced _ _).trans sound.known
  next =>
    rcases List.mem_append.mp member with old | new
    next =>
      obtain ⟨there, before⟩ := sound.genuine event old
      exact ⟨there, before.trans (advanced event.shard).2.1⟩
    next => exact ⟨genuine event new, (advanced event.shard).1 event new rfl⟩
  next =>
    rcases (advanced shard).2.2 with stays | ⟨event, member, same, reached⟩
    next => exact stays.le.trans (sound.behind shard)
    next => exact reached.symm.le.trans (same ▸ (mem_events (genuine event member)).2.2.1)
  next =>
    by_cases passed : event.sequence ≤ stream.cursor.position shard
    next => exact List.mem_append_left _ (sound.unskipped shard event member passed)
    next =>
      rcases (advanced shard).2.2 with stays | ⟨last, taken, same, reached⟩
      next => exact absurd (stays ▸ before) passed
      next =>
        subst same
        exact List.mem_append_right _
          (merged_closed selected tidy.unskipping taken member (not_le.mp passed) (reached.symm ▸ before))
  next =>
    change Ordered.Ascending Event.sequence ((stream.delivered ++ merge_events limit events).filter _)
    rw [List.filter_append]
    have placed (left : Event) (first : left ∈ stream.store.events left.shard) (right : Event)
        (second : right ∈ stream.store.events right.shard) (same : left.partition = right.partition) :
        left.shard = right.shard := by rw [← sound.shard_of first, ← sound.shard_of second, same]
    refine List.pairwise_append.mpr ⟨sound.ordered pk, merged_in_order selected tidy
      (fun left first right second => placed left (selected.genuine left first) right (selected.genuine right second))
      pk, fun old first new second => ?_⟩
    obtain ⟨delivered, of⟩ := List.mem_filter.mp first
    obtain ⟨taken, of'⟩ := List.mem_filter.mp second
    obtain ⟨there, before⟩ := sound.genuine old delivered
    have shard := placed old there new (genuine new taken)
      ((of_decide_eq_true of).trans (of_decide_eq_true of').symm)
    have fresh := selected.fresh new ((mem_merged selected).mp taken).1
    rw [shard] at before
    omega

/-- A batch that is handed on without harm was tidy. -/
theorem finish_tidy (sound : Sound blake3 shard_count stream) (positive : 0 < shard_count) {limit : Nat}
    {events : List Event} (selected : Selected stream.store stream.cursor events)
    (unskipped : NoSkip (stream.hand_on (merge_events limit events)))
    (ordered : InOrder (stream.hand_on (merge_events limit events))) : Tidy limit events := by
  refine tidy_of_merged selected (fun later taken earlier member shard before => ?_) fun pk => ?_
  next =>
    have moved := (@advanced_by blake3 shard_count stream sound positive limit events selected later.shard).1 later
      taken rfl
    have there := selected.genuine earlier member
    have fresh := selected.fresh earlier member
    rcases List.mem_append.mp (unskipped _ earlier (shard ▸ there) (before.le.trans moved)) with old | new
    next => exact absurd (sound.genuine earlier old).2 (not_le.mpr fresh)
    next => exact new
  next =>
    have whole := ordered pk
    change Ordered.Ascending Event.sequence ((stream.delivered ++ merge_events limit events).filter _) at whole
    rw [List.filter_append] at whole
    exact whole.sublist (List.sublist_append_right _ _)

theorem step_sound (positive : 0 < shard_count) (action : StreamStep) (may : stream.May action)
    (sound : Sound blake3 shard_count stream) : Sound blake3 shard_count (stream.step blake3 shard_count action) := by
  cases action with
  | commit pk writes now_us =>
    rw [Stream.step]
    cases committed : stream.store.transact_write blake3 shard_count pk writes now_us with
    | ok after => exact commit_sound sound committed
    | error => exact sound
  | read_events limit =>
    rw [Stream.step]
    cases under : stream.poll with
    | none =>
      refine { sound with reading := fun poll same => ?_ }
      obtain rfl := Option.some.inj same
      exact ⟨⟨fun _ none => absurd none List.not_mem_nil, fun _ none => absurd none List.not_mem_nil,
        fun _ none => absurd none List.not_mem_nil, List.nodup_nil⟩, List.nodup_range,
        fun _ none => absurd none List.not_mem_nil, fun shard member => List.mem_range.mp member⟩
    | some poll => exact sound
  | proceed =>
    rw [Stream.step]
    match under : stream.poll with
    | none => exact sound
    | some ⟨limit, shard :: shards, events⟩ =>
      refine { sound with reading := fun poll same => ?_ }
      obtain rfl := Option.some.inj same
      obtain ⟨selected, once, ahead, known⟩ := (sound.reading _ under).read
      exact ⟨selected, once, ahead, known⟩
    | some ⟨limit, [], events⟩ =>
      exact finish_sound sound positive (sound.reading _ under).selected (may limit events under)

theorem step_may (positive : 0 < shard_count) (action : StreamStep) (sound : Sound blake3 shard_count stream)
    (unskipped : NoSkip (stream.step blake3 shard_count action))
    (ordered : InOrder (stream.step blake3 shard_count action)) : stream.May action := by
  cases action with
  | proceed =>
    intro limit events under
    simp only [Stream.step, under] at unskipped ordered
    exact finish_tidy sound positive (sound.reading _ under).selected unskipped ordered
  | commit | read_events => trivial

/-! ## Enough polls -/

/-- What a poll that starts with these shards to read will have selected. -/
def Stream.selection (stream : Stream) (limit : Nat) (shards : List Nat) : List Event :=
  shards.flatMap fun shard => stream.store.select shard (stream.cursor.position shard) limit

/-- A poll from its start to its end. -/
def poll_steps (shard_count limit : Nat) : List StreamStep :=
  .read_events limit :: List.replicate (shard_count + 1) .proceed

theorem Reading.read_all {limit : Nat} {shards : List Nat} {events : List Event}
    (reading : Reading shard_count stream ⟨limit, shards, events⟩) :
    Reading shard_count stream ⟨limit, [], events ++ stream.selection limit shards⟩ := by
  induction shards generalizing events with
  | nil =>
    rw [Stream.selection, List.flatMap_nil, List.append_nil]
    exact reading
  | cons shard shards ih =>
    rw [Stream.selection, List.flatMap_cons, ← List.append_assoc]
    exact ih reading.read

theorem proceed_idle (idle : stream.poll = none) (count : Nat) :
    Machine.run (Stream.step blake3 shard_count) (List.replicate count .proceed) stream = stream := by
  induction count with
  | zero => rfl
  | succ count ih =>
    rw [List.replicate_succ, Machine.run_cons]
    have stays : stream.step blake3 shard_count .proceed = stream := by rw [Stream.step, idle]
    rw [stays, ih]

theorem proceed_through {limit : Nat} {shards : List Nat} {events : List Event}
    (under : stream.poll = some ⟨limit, shards, events⟩) {count : Nat} (enough : shards.length < count) :
    Machine.run (Stream.step blake3 shard_count) (List.replicate count .proceed) stream =
      stream.hand_on (merge_events limit (events ++ stream.selection limit shards)) := by
  induction shards generalizing events count stream with
  | nil =>
    obtain ⟨count, rfl⟩ := Nat.exists_eq_succ_of_ne_zero (Nat.ne_zero_of_lt enough)
    have finishes : stream.step blake3 shard_count .proceed = stream.hand_on (merge_events limit events) := by
      rw [Stream.step, under]
      rfl
    rw [List.replicate_succ, Machine.run_cons, finishes, proceed_idle rfl, Stream.selection, List.flatMap_nil,
      List.append_nil]
  | cons shard shards ih =>
    obtain ⟨count, rfl⟩ := Nat.exists_eq_succ_of_ne_zero (Nat.ne_zero_of_lt enough)
    have reads : stream.step blake3 shard_count .proceed = { stream with poll := some ⟨limit, shards,
        events ++ stream.store.select shard (stream.cursor.position shard) limit⟩ } := by
      rw [Stream.step, under]
    have whole : stream.selection limit (shard :: shards) =
        stream.store.select shard (stream.cursor.position shard) limit ++ stream.selection limit shards := by
      rw [Stream.selection, List.flatMap_cons]
      rfl
    rw [List.replicate_succ, Machine.run_cons, reads, ih rfl (by simpa using enough), whole, ← List.append_assoc]
    rfl

/-- A whole poll hands on what it has read: all that is new, or what an earlier one had left unread. -/
theorem poll_through (sound : Sound blake3 shard_count stream) (limit : Nat) :
    ∃ asked events, Reading shard_count stream ⟨asked, [], events⟩ ∧
      Machine.run (Stream.step blake3 shard_count) (poll_steps shard_count limit) stream =
        stream.hand_on (merge_events asked events) ∧
      (stream.poll = none → asked = limit ∧ events = stream.selection limit (List.range shard_count)) := by
  rw [poll_steps, Machine.run_cons]
  cases under : stream.poll with
  | none =>
    have starts : stream.step blake3 shard_count (.read_events limit) =
        { stream with poll := some ⟨limit, List.range shard_count, []⟩ } := by rw [Stream.step, under]
    have first : Reading shard_count stream ⟨limit, List.range shard_count, []⟩ :=
      ⟨⟨fun _ none => absurd none List.not_mem_nil, fun _ none => absurd none List.not_mem_nil,
        fun _ none => absurd none List.not_mem_nil, List.nodup_nil⟩, List.nodup_range,
        fun _ none => absurd none List.not_mem_nil, fun shard member => List.mem_range.mp member⟩
    refine ⟨limit, stream.selection limit (List.range shard_count), first.read_all, ?_, fun _ => ⟨rfl, rfl⟩⟩
    rw [starts, proceed_through rfl (by rw [List.length_range]; exact Nat.lt_succ_self _)]
    rfl
  | some poll =>
    obtain ⟨asked, shards, events⟩ := poll
    have stays : stream.step blake3 shard_count (.read_events limit) = stream := by rw [Stream.step, under]
    have reading := sound.reading _ under
    have few : shards.length ≤ shard_count := by
      have within : shards ⊆ List.range shard_count := fun shard member => List.mem_range.mpr (reading.known shard member)
      simpa using (reading.once.subperm within).length_le
    refine ⟨asked, _, reading.read_all, ?_, fun impossible => by cases impossible⟩
    rw [stays, proceed_through under (Nat.lt_succ_of_le few)]

/-- How many events the cursor has still to pass. -/
def Stream.pending (shard_count : Nat) (stream : Stream) : Nat :=
  ∑ shard ∈ Finset.range shard_count, ((stream.store.outboxes shard).length - stream.cursor.position shard)

def Complete (stream : Stream) : Prop :=
  ∀ shard, ∀ event ∈ stream.store.events shard, event ∈ stream.delivered

theorem pending_none (sound : Sound blake3 shard_count stream) (positive : 0 < shard_count)
    (none : stream.pending shard_count = 0) : Complete stream := by
  intro shard event member
  have same := (mem_events member).1
  subst same
  have known : event.shard < shard_count := by
    rw [← sound.shard_of member]
    exact Nat.mod_lt _ positive
  have passed := Finset.sum_eq_zero_iff.mp none event.shard (Finset.mem_range.mpr known)
  have bound := (mem_events member).2.2.1
  exact sound.unskipped event.shard event member (by omega)

theorem pending_hand_on (sound : Sound blake3 shard_count stream) (positive : 0 < shard_count) {limit : Nat}
    {events : List Event} (selected : Selected stream.store stream.cursor events) :
    (stream.hand_on (merge_events limit events)).pending shard_count ≤ stream.pending shard_count ∧
      (merge_events limit events ≠ [] →
        (stream.hand_on (merge_events limit events)).pending shard_count < stream.pending shard_count) := by
  have advanced := @advanced_by blake3 shard_count stream sound positive limit events selected
  have each (shard : Nat) : (stream.store.outboxes shard).length -
      (stream.cursor.advanced (merge_events limit events)).position shard ≤
        (stream.store.outboxes shard).length - stream.cursor.position shard :=
    Nat.sub_le_sub_left (advanced shard).2.1 _
  refine ⟨Finset.sum_le_sum fun shard _ => each shard, fun some => ?_⟩
  obtain ⟨event, member⟩ := List.exists_mem_of_ne_nil _ some
  have read := ((mem_merged selected).mp member).1
  have there := selected.genuine event read
  have known : event.shard < shard_count := by
    rw [← sound.shard_of there]
    exact Nat.mod_lt _ positive
  refine Finset.sum_lt_sum (fun shard _ => each shard) ⟨event.shard, Finset.mem_range.mpr known, ?_⟩
  have fresh := selected.fresh event read
  have bound := (mem_events there).2.2.1
  have moved := (advanced event.shard).1 event member rfl
  change (stream.store.outboxes event.shard).length -
    (stream.cursor.advanced (merge_events limit events)).position event.shard < _
  omega

theorem selection_nonempty {limit : Nat} (allowed : 0 < limit) (some : stream.pending shard_count ≠ 0) :
    merge_events limit (stream.selection limit (List.range shard_count)) ≠ [] := by
  obtain ⟨shard, member, waiting⟩ : ∃ shard ∈ Finset.range shard_count,
      (stream.store.outboxes shard).length - stream.cursor.position shard ≠ 0 := by
    by_contra none
    push Not at none
    exact some (Finset.sum_eq_zero none)
  obtain ⟨event, there, next⟩ := @event_at stream.store shard (stream.cursor.position shard + 1) (by omega) (by omega)
  have chosen : stream.store.select shard (stream.cursor.position shard) limit ≠ [] := by
    intro empty
    rcases List.take_eq_nil_iff.mp empty with zero | nothing
    next => omega
    next =>
      refine List.ne_nil_of_mem (List.mem_filter.mpr ⟨there, ?_⟩) nothing
      exact decide_eq_true (by omega)
  obtain ⟨first, selected⟩ := List.exists_mem_of_ne_nil _ chosen
  intro empty
  rcases List.take_eq_nil_iff.mp empty with zero | nothing
  next => omega
  next =>
    have inside : first ∈ stream.selection limit (List.range shard_count) :=
      List.mem_flatMap.mpr ⟨shard, List.mem_range.mpr (Finset.mem_range.mp member), selected⟩
    exact List.ne_nil_of_mem ((List.mem_insertionSort _).mpr inside) nothing

/-- More polls than there are events left deliver them all. -/
theorem polls_complete (positive : 0 < shard_count) (limits : List Nat) (allowed : ∀ limit ∈ limits, 0 < limit)
    (along : Machine.Along (Stream.step blake3 shard_count) Stream.May (limits.flatMap (poll_steps shard_count)) stream)
    (sound : Sound blake3 shard_count stream)
    (enough : stream.pending shard_count < limits.length ∨
      stream.poll = none ∧ stream.pending shard_count ≤ limits.length) :
    Complete (Machine.run (Stream.step blake3 shard_count) (limits.flatMap (poll_steps shard_count)) stream) := by
  induction limits generalizing stream with
  | nil =>
    have none : stream.pending shard_count = 0 := by
      simp only [List.length_nil] at enough
      omega
    exact pending_none sound positive none
  | cons limit limits ih =>
    obtain ⟨first, others⟩ := List.forall_mem_cons.mp allowed
    rw [List.flatMap_cons] at along ⊢
    obtain ⟨along, rest⟩ := Machine.along_append.mp along
    rw [Machine.run_append]
    have after := Machine.run_keeps (fun _ action may held => step_sound positive action may held) along sound
    obtain ⟨asked, events, reading, ends, idle⟩ := @poll_through blake3 shard_count stream sound limit
    obtain ⟨fewer, strictly⟩ := @pending_hand_on blake3 shard_count stream sound positive asked events reading.selected
    refine ih others rest after (.inr ⟨?_, ?_⟩)
    next => rw [ends]; rfl
    next =>
      rw [ends]
      rw [List.length_cons] at enough
      rcases enough with more | ⟨quiet, bound⟩
      next => omega
      next =>
        obtain ⟨rfl, rfl⟩ := idle quiet
        by_cases none : stream.pending shard_count = 0
        next => omega
        next =>
          have less := strictly (selection_nonempty first none)
          omega

/-- The events behind the cursor have all been delivered, and each partition's in their order, in exactly the
runs whose polls are tidy; and then enough polls deliver every event. -/
theorem change_stream_exact (blake3 : Blake3) (positive : 0 < shard_count) (steps : List StreamStep) :
    (Machine.Throughout (Stream.step blake3 shard_count) (fun stream => NoSkip stream ∧ InOrder stream) steps
        (Stream.new shard_count) ↔
      Machine.Along (Stream.step blake3 shard_count) Stream.May steps (Stream.new shard_count)) ∧
    ∀ limits : List Nat, (∀ limit ∈ limits, 0 < limit) →
      Stream.pending shard_count (Machine.run (Stream.step blake3 shard_count) steps (Stream.new shard_count)) <
        limits.length →
      Machine.Along (Stream.step blake3 shard_count) Stream.May (steps ++ limits.flatMap (poll_steps shard_count))
        (Stream.new shard_count) →
      Complete (Machine.run (Stream.step blake3 shard_count) (steps ++ limits.flatMap (poll_steps shard_count))
        (Stream.new shard_count)) := by
  have initially := @new_sound blake3 shard_count
  have keeps (stream : Stream) (action : StreamStep) (may : stream.May action)
      (sound : Sound blake3 shard_count stream) : Sound blake3 shard_count (stream.step blake3 shard_count action) :=
    step_sound positive action may sound
  refine ⟨Machine.throughout_iff_along (fun _ sound => ⟨sound.unskipped, sound.ordered⟩) keeps
    (fun _ action sound harmless => step_may positive action sound harmless.1 harmless.2) initially, ?_⟩
  intro limits allowed enough along
  obtain ⟨along, rest⟩ := Machine.along_append.mp along
  rw [Machine.run_append]
  exact polls_complete positive limits allowed rest (Machine.run_keeps keeps along initially) (.inl enough)

end Steps

def firstEnv : EnvId := ⟨"env_01ARZ3NDEKTSV4RRFFQ69G5FAV"⟩

def secondEnv : EnvId := ⟨"env_01ARZ3NDEKTSV4RRFFQ69G5FAX"⟩

/-- The digests are those of BLAKE3. -/
def envDigests : Blake3 := .ofTable [
  (firstEnv.value.toList.flatMap String.utf8EncodeChar, [0x41, 0x67, 0x2f, 0xb7]),
  (secondEnv.value.toList.flatMap String.utf8EncodeChar, [0x26, 0x08, 0xc2, 0xfe])]

def mainDeleted (op_sequence : Nat) : List WriteOp :=
  [.emit (.ref_deleted ⟨"main"⟩ ⟨List.replicate DIGEST_BYTES 0, zeros_sized⟩ op_sequence)]

theorem change_stream_exact_polled :
    Complete (Machine.run (Stream.step envDigests 2)
      ([.commit firstEnv (mainDeleted 1) 10, .commit secondEnv (mainDeleted 1) 6] ++ [1, 1, 1].flatMap (poll_steps 2))
      (Stream.new 2)) :=
  (change_stream_exact envDigests (by decide)
    [.commit firstEnv (mainDeleted 1) 10, .commit secondEnv (mainDeleted 1) 6]).2 [1, 1, 1] (by decide)
    (by decide) (by decide)

/-! ## An event left behind -/

/-- Behind the cursor, and neither delivered nor read. -/
structure Passed (event : Event) (stream : Stream) : Prop where
  behind : event.sequence ≤ stream.cursor.position event.shard
  undelivered : event ∉ stream.delivered
  unread : ∀ poll, stream.poll = some poll → event ∉ poll.events

theorem Passed.step {event : Event} {stream : Stream} (passed : Passed event stream) (blake3 : Blake3)
    (shard_count : Nat) (action : StreamStep) : Passed event (stream.step blake3 shard_count action) := by
  cases action with
  | commit pk writes now_us =>
    rw [Stream.step]
    cases stream.store.transact_write blake3 shard_count pk writes now_us with
    | ok after => exact ⟨passed.behind, passed.undelivered, passed.unread⟩
    | error => exact passed
  | read_events limit =>
    rw [Stream.step]
    cases stream.poll with
    | none =>
      refine ⟨passed.behind, passed.undelivered, fun poll same => ?_⟩
      obtain rfl := Option.some.inj same
      exact List.not_mem_nil
    | some => exact passed
  | proceed =>
    rw [Stream.step]
    match under : stream.poll with
    | none => exact passed
    | some ⟨limit, shard :: shards, events⟩ =>
      refine ⟨passed.behind, passed.undelivered, fun poll same member => ?_⟩
      obtain rfl := Option.some.inj same
      rcases List.mem_append.mp member with old | new
      next => exact passed.unread _ under old
      next =>
        -- a shard is read from the cursor on
        obtain ⟨there, beyond⟩ := List.mem_filter.mp (List.mem_of_mem_take new)
        obtain rfl := (mem_events there).1
        have := passed.behind
        simp only [decide_eq_true_eq] at beyond
        omega
    | some ⟨limit, [], events⟩ =>
      refine ⟨passed.behind.trans (StreamCursor.position_le_advanced _ _ _), fun member => ?_, fun _ none => by cases none⟩
      rcases List.mem_append.mp member with old | new
      next => exact passed.undelivered old
      next => exact passed.unread _ under ((List.mem_insertionSort _).mp (List.mem_of_mem_take new))

/-- What the cursor has passed undelivered is never delivered. -/
theorem Passed.for_good {event : Event} {stream : Stream} (passed : Passed event stream) (blake3 : Blake3)
    (shard_count : Nat) (steps : List StreamStep) :
    event ∉ (Machine.run (Stream.step blake3 shard_count) steps stream).delivered := by
  induction steps generalizing stream with
  | nil => exact passed.undelivered
  | cons action steps ih => exact ih (passed.step blake3 shard_count action)

/-- The clock is set back between the first environment's two events, and the page ends before the first. -/
def clockSetBack : List StreamStep :=
  [.commit firstEnv (mainDeleted 1) 10, .commit firstEnv (mainDeleted 2) 5, .commit secondEnv (mainDeleted 1) 6] ++
    poll_steps 2 2

theorem event_skipped_for_good :
    ∃ event ∈ (Machine.run (Stream.step envDigests 2) clockSetBack (Stream.new 2)).store.events 1, ∀ more,
      event ∉ (Machine.run (Stream.step envDigests 2) (clockSetBack ++ more) (Stream.new 2)).delivered := by
  refine ⟨⟨1, 1, firstEnv, .ref_deleted ⟨"main"⟩ ⟨List.replicate DIGEST_BYTES 0, rfl⟩ 1, 10⟩, by decide,
    fun more => ?_⟩
  rw [Machine.run_append]
  refine Passed.for_good ⟨by decide, by decide, fun poll same => ?_⟩ envDigests 2 more
  have none : (Machine.run (Stream.step envDigests 2) clockSetBack (Stream.new 2)).poll = none := by rfl
  rw [none] at same
  cases same

end LedgerVcs
