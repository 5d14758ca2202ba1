import LedgerVcs.Store.Backend
import LedgerVcs.Store.Effects

set_option autoImplicit false

/-! The object store over its bytes: the names of `World` with what is stored under them. -/

namespace LedgerVcs

open Wire (Bytes)
open Text (PyStr)

def key_for (name : ObjectName) : PyStr := Text.hex name.digest

theorem key_for_injective {left right : ObjectName} (same : key_for left = key_for right) : left = right := by
  have digests := congrArg Text.fromhex same
  rw [key_for, key_for, Text.fromhex_hex, Text.fromhex_hex] at digests
  exact ObjectName.ext (Option.some.inj digests)

/-- An `ObjectStore` over a `CompressedBackend`. -/
structure ObjectStore (inner : RawBlobBackend) where
  backend : inner.State
  catalog : Std.ExtTreeMap ObjectName CatalogRow
  tombstones : Std.ExtTreeMap ObjectName Int

namespace ObjectStore

variable (inner : RawBlobBackend) (zstd : Zstd) (blake3 : Blake3) (level : Int)

/-- What an exception interrupts stays done. -/
abbrev Op (α : Type) := ExceptT PyError (StateM (ObjectStore inner)) α

def backend_exists (key : PyStr) : Op inner Bool := do
  let store ← get
  return (inner.exists_many [key] store.backend).contains key

def backend_write (key : PyStr) (framed : Bytes) : Op inner Nat := do
  let store ← get
  let (occupied, backend) := inner.write key (compress zstd framed level) store.backend
  set { store with backend }
  return occupied

def backend_read (key : PyStr) : Op inner Bytes := do
  let store ← get
  let packed ← liftM (inner.read key store.backend)
  liftM (decompress zstd packed)

def tombstones_clear (name : ObjectName) : Op inner Unit :=
  modify fun store => { store with tombstones := store.tombstones.erase name }

def catalog_record (entry : CatalogEntry) : Op inner Unit :=
  modify fun store => { store with catalog := store.catalog.insertIfNew entry.name entry.toCatalogRow }

def put_encoded (now_us : Int) (name : ObjectName) (framed : Bytes) : Op inner PutOutcome := do
  let key := key_for name
  if ← backend_exists inner key then
    tombstones_clear inner name
    return ⟨name, false, framed.length, 0⟩
  let occupied ← backend_write inner zstd level key framed
  tombstones_clear inner name
  let kind ← liftM (peek_kind framed)
  catalog_record inner { name, size := occupied, kind := some kind, written_at_us := now_us }
  return ⟨name, true, framed.length, occupied⟩

def put (now_us : Int) (name : ObjectName) (framed : Bytes) : Op inner PutOutcome := do
  let actual := name_of_encoded blake3 framed
  liftM (ensure (actual = name) (.corruptObject "offered bytes do not hash to the name they were sent under"))
  let object ← liftM (decode framed)
  let encoded ← liftM (encode object)
  liftM (ensure (encoded = framed) (.notCanonical
    "bytes hash correctly but are not the canonical encoding of what they mean; accepting them would give this object a second name"))
  put_encoded inner zstd level now_us name framed

def put_object (now_us : Int) (object : LedgerObject) : Op inner PutOutcome := do
  let framed ← liftM (encode object)
  put_encoded inner zstd level now_us (name_of_encoded blake3 framed) framed

def get (name : ObjectName) : Op inner Bytes := do
  let framed ← backend_read inner zstd (key_for name)
  liftM (verify blake3 name framed)
  return framed

def delete (names : List ObjectName) : Op inner Nat := do
  let store ← MonadState.get
  let (removed, backend) := inner.delete (names.map key_for) store.backend
  set { store with backend, catalog := names.foldl (fun rows name => rows.erase name) store.catalog }
  return removed

/-! ## What each operation does -/

section Specs

variable {inner zstd blake3 level} {store : ObjectStore inner}

abbrev run {α : Type} (op : Op inner α) (store : ObjectStore inner) : Except PyError α × ObjectStore inner :=
  (ExceptT.run op).run store

@[simp] theorem run_bind {α β : Type} (op : Op inner α) (rest : α → Op inner β) :
    run (op >>= rest) store =
      match run op store with
      | (.ok value, after) => run (rest value) after
      | (.error error, after) => (.error error, after) := by
  simp only [run, ExceptT.run_bind, StateT.run_bind]
  rcases (ExceptT.run op).run store with ⟨_ | _, after⟩ <;> rfl

@[simp] theorem run_liftM {α : Type} (outcome : Except PyError α) :
    run (liftM outcome : Op inner α) store = (outcome, store) := by
  cases outcome <;> rfl

@[simp] theorem run_pure {α : Type} (value : α) : run (pure value : Op inner α) store = (.ok value, store) := rfl

def Stores (store : ObjectStore inner) (name : ObjectName) : Prop :=
  inner.stored store.backend (key_for name) ≠ none

theorem run_backend_exists (name : ObjectName) [Decidable (store.Stores name)] :
    run (backend_exists inner (key_for name)) store = (.ok (decide (store.Stores name)), store) := by
  refine Prod.ext (congrArg Except.ok ?_) rfl
  rw [Bool.eq_iff_iff, List.contains_iff_mem, inner.mem_exists_many, decide_eq_true_eq]
  simp [Stores]

/-- The object written, its row recorded and its tombstone gone. -/
def written (zstd : Zstd) (level now_us : Int) (store : ObjectStore inner) (name : ObjectName) (framed : Bytes)
    (kind : ObjectKind) : ObjectStore inner :=
  let (occupied, backend) := inner.write (key_for name) (compress zstd framed level) store.backend
  { backend
    tombstones := store.tombstones.erase name
    catalog := store.catalog.insertIfNew name ⟨occupied, some kind, now_us⟩ }

theorem run_put_stored {now_us : Int} {name : ObjectName} {framed : Bytes} (present : store.Stores name) :
    run (put_encoded inner zstd level now_us name framed) store =
      (.ok ⟨name, false, framed.length, 0⟩, { store with tombstones := store.tombstones.erase name }) := by
  classical
  rw [put_encoded, run_bind, run_backend_exists, decide_eq_true present]
  rfl

theorem run_put_new {now_us : Int} {name : ObjectName} {framed : Bytes} {kind : ObjectKind}
    (fresh : ¬ store.Stores name) (readable : peek_kind framed = .ok kind) :
    run (put_encoded inner zstd level now_us name framed) store =
      (.ok ⟨name, true, framed.length, (inner.write (key_for name) (compress zstd framed level) store.backend).1⟩,
        written zstd level now_us store name framed kind) := by
  classical
  rw [put_encoded, run_bind, run_backend_exists, decide_eq_false fresh]
  simp only [Bool.false_eq_true, if_false, run_bind, readable, run_liftM]
  rfl

/-- A put is rejected before it has touched anything, or goes on as one of the store's own. -/
theorem run_put (now_us : Int) (name : ObjectName) (framed : Bytes) :
    (∃ error, run (put inner zstd blake3 level now_us name framed) store = (.error error, store)) ∨
      (name_of_encoded blake3 framed = name ∧ (∃ object, decode framed = .ok object ∧ encode object = .ok framed) ∧
        run (put inner zstd blake3 level now_us name framed) store =
          run (put_encoded inner zstd level now_us name framed) store) := by
  simp only [put, run_bind, run_liftM]
  cases hashed : ensure (name_of_encoded blake3 framed = name)
    (.corruptObject "offered bytes do not hash to the name they were sent under") with
  | error error => exact .inl ⟨error, rfl⟩
  | ok =>
    cases read : decode framed with
    | error error => exact .inl ⟨error, rfl⟩
    | ok object =>
      have again := decode_canonical.1 framed object read
      simp only [again, ensure, if_true]
      exact .inr ⟨ensure_ok.mp hashed, ⟨object, rfl, again⟩, trivial⟩

theorem encoded_kind {object : LedgerObject} {framed : Bytes} (encoded : encode object = .ok framed) :
    peek_kind framed = .ok object.kind :=
  peek_kind_ok.mpr ⟨1, Layout.payload object, (encode_ok.mp encoded).2⟩

theorem run_accepted {now_us : Int} {name : ObjectName} {framed : Bytes} {object : LedgerObject}
    (encoded : encode object = .ok framed) :
    (∃ outcome, (run (put_encoded inner zstd level now_us name framed) store).1 = .ok outcome) ∧
      inner.stored (run (put_encoded inner zstd level now_us name framed) store).2.backend =
        if inner.stored store.backend (key_for name) = none then
          Function.update (inner.stored store.backend) (key_for name) (some (compress zstd framed level))
        else inner.stored store.backend := by
  by_cases absent : inner.stored store.backend (key_for name) = none
  next =>
    rw [run_put_new (not_not_intro absent) (encoded_kind encoded), if_pos absent]
    exact ⟨⟨_, rfl⟩, inner.stored_write _ _ _⟩
  next =>
    rw [run_put_stored absent, if_neg absent]
    exact ⟨⟨_, rfl⟩, rfl⟩

theorem run_get {name : ObjectName} {packed framed : Bytes}
    (stored : inner.stored store.backend (key_for name) = some packed) (unpacked : decompress zstd packed = .ok framed)
    (hashed : name_of_encoded blake3 framed = name) :
    run (get inner zstd blake3 name) store = (.ok framed, store) := by
  have opened : run (backend_read inner zstd (key_for name)) store = (.ok framed, store) := by
    have found : run (backend_read inner zstd (key_for name)) store =
        run (do let packed ← liftM (inner.read (key_for name) store.backend)
                liftM (decompress zstd packed)) store := rfl
    rw [found, run_bind, run_liftM, inner.read_stored _ _ _ stored]
    simp only [unpacked, run_liftM]
  have verified : verify blake3 name framed = .ok () := ensure_ok.mpr hashed
  simp only [get, run_bind, opened, run_liftM, verified, run_pure]

/-! ## The names alone -/

/-- What the services see of a store: which names it has. -/
structure Represents (store : ObjectStore inner) (world : World) : Prop where
  backend : ∀ name, name ∈ world.backend ↔ store.Stores name
  catalog : store.catalog = world.catalog
  tombstones : store.tombstones = world.tombstones

theorem stores_written {now_us : Int} {name other : ObjectName} {framed : Bytes} {kind : ObjectKind} :
    (written zstd level now_us store name framed kind).Stores other ↔ other = name ∨ store.Stores other := by
  rw [Stores, written, inner.stored_write]
  by_cases same : other = name
  next => simp [same]
  next =>
    rw [Function.update_of_ne fun keys => same (key_for_injective keys)]
    simp [same, Stores]

/-- Bytes that stand for their name in the corpus are put as the name is. -/
theorem put_encoded_represents {corpus : Corpus} {world : World} {name : ObjectName} {framed : Bytes}
    {object : LedgerObject} (encoded : encode object = .ok framed) (content : corpus.content name = some object)
    (length : corpus.length name = framed.length)
    (occupied : corpus.occupied name =
      (inner.write (key_for name) (compress zstd framed level) store.backend).1)
    (represents : store.Represents world) :
    (run (put_encoded inner zstd level world.clock name framed) store).1 =
        (runs corpus (LedgerVcs.put_encoded corpus name) world).1 ∧
      (run (put_encoded inner zstd level world.clock name framed) store).2.Represents
        (runs corpus (LedgerVcs.put_encoded corpus name) world).2 := by
  by_cases present : store.Stores name
  next =>
    rw [run_put_stored present, runs_put_stored ((represents.backend name).mpr present), length]
    exact ⟨rfl, represents.backend, represents.catalog, congrArg (·.erase name) represents.tombstones⟩
  next =>
    rw [run_put_new present (encoded_kind encoded),
      runs_put_new fun there => present ((represents.backend name).mp there), length, occupied]
    refine ⟨rfl, fun other => ?_, ?_, congrArg (·.erase name) represents.tombstones⟩
    next => rw [stores_written, World.written, Finset.mem_insert, represents.backend]
    next => simp only [written, World.written, represents.catalog, content, occupied, Option.map_some]

theorem delete_represents {corpus : Corpus} {world : World} (names : List ObjectName)
    (represents : store.Represents world) :
    (run (delete inner names) store).2.Represents (runs corpus (LedgerVcs.delete names) world).2 := by
  obtain ⟨removed, deleted⟩ := @runs_delete corpus names world
  rw [deleted]
  have forgotten : (run (delete inner names) store).2.catalog = (world.deleted names).catalog := by
    rw [World.deleted, ← represents.catalog]
    rfl
  refine ⟨fun name => ?_, forgotten, represents.tombstones⟩
  have kept : (run (delete inner names) store).2.Stores name ↔
      inner.stored (inner.delete (names.map key_for) store.backend).2 (key_for name) ≠ none := .rfl
  rw [kept, inner.stored_delete, World.deleted, Finset.mem_sdiff, List.mem_toFinset, represents.backend]
  have listed : key_for name ∈ names.map key_for ↔ name ∈ names := by
    rw [List.mem_map]
    exact ⟨fun ⟨_, member, same⟩ => key_for_injective same ▸ member, fun member => ⟨name, member, rfl⟩⟩
  by_cases member : name ∈ names <;> simp [listed, member, Stores]

end Specs

/-! ## Runs -/

inductive Operation
  | put (now_us : Int) (name : ObjectName) (framed : Bytes)
  | put_object (now_us : Int) (object : LedgerObject)
  | delete (names : List ObjectName)

/-- The bytes are those of the operation, and their name is the one it gives them. -/
def Operation.Offers (blake3 : Blake3) (name : ObjectName) (framed : Bytes) : Operation → Prop
  | .put _ claimed offered => offered = framed ∧ claimed = name ∧ name_of_encoded blake3 framed = name
  | .put_object _ object => encode object = .ok framed ∧ name_of_encoded blake3 framed = name
  | .delete _ => False

section Runs

def perform (store : ObjectStore inner) : Operation → ObjectStore inner
  | .put now_us name framed => (run (put inner zstd blake3 level now_us name framed) store).2
  | .put_object now_us object => (run (put_object inner zstd blake3 level now_us object) store).2
  | .delete names => (run (delete inner names) store).2

def perform_all (ops : List Operation) (store : ObjectStore inner) : ObjectStore inner :=
  ops.foldl (perform inner zstd blake3 level) store

end Runs

/-! ## The invariant -/

/-- The canonical encoding of what it means. -/
def IsCanonical (framed : Bytes) : Prop := ∃ object, decode framed = .ok object ∧ encode object = .ok framed

/-- Under each key the bytes of some operation, packed, and their name is the key. -/
def Sound {inner : RawBlobBackend} (zstd : Zstd) (blake3 : Blake3) (ops : List Operation) (store : ObjectStore inner) : Prop :=
  ∀ key packed, inner.stored store.backend key = some packed →
    ∃ name framed, key = key_for name ∧ decompress zstd packed = .ok framed ∧ name_of_encoded blake3 framed = name ∧
      IsCanonical framed ∧ ∃ op ∈ ops, op.Offers blake3 name framed

/-- No commit that the store encodes itself has a space in its change id. -/
def Operation.Spaceless : Operation → Prop
  | .put_object _ (.commit commit) =>
      (∃ framed, encode (.commit commit) = .ok framed) → ∀ point ∈ commit.change_id.value, ¬ Text.isSpace point
  | _ => True

section Invariant

variable {inner zstd blake3 level} {store : ObjectStore inner} {ops : List Operation}

theorem respell_canonical {commit : Commit} {framed : Bytes} (encoded : encode (.commit commit) = .ok framed)
    (spaceless : ∀ point ∈ commit.change_id.value, ¬ Text.isSpace point) : CanonicalChangeId (respell commit) := by
  obtain ⟨fits, -⟩ := encode_ok.mp encoded
  obtain ⟨bytes, read⟩ := Option.ne_none_iff_exists'.mp (validate_commit_ok.mp fits.1).2.1
  intro point member
  obtain ⟨original, there, rfl⟩ := List.mem_map.mp member
  have digit := (Text.fromhex_characters read original there).resolve_left (spaceless original there)
  exact Text.respell_lower (spaceless original there) digit

theorem encoded_canonical {now_us : Int} {object : LedgerObject} {framed : Bytes}
    (encoded : encode object = .ok framed) (spaceless : (Operation.put_object now_us object).Spaceless) :
    IsCanonical framed := by
  have reads {other : LedgerObject} (encoded : encode other = .ok framed) (canonical : Canonical other) :
      IsCanonical framed :=
    ⟨other, decode_ok.mpr ⟨(encode_ok.mp encoded).1, canonical, (encode_ok.mp encoded).2⟩, encoded⟩
  cases object with
  | commit commit => exact reads (respell_encodes encoded) (respell_canonical encoded (spaceless ⟨framed, encoded⟩))
  | _ => exact reads encoded trivial

/-- Whatever is offered under its own name may be put. -/
theorem put_sound {now_us : Int} {name : ObjectName} {framed : Bytes} (canonical : IsCanonical framed)
    (hashed : name_of_encoded blake3 framed = name) (offered : ∃ op ∈ ops, op.Offers blake3 name framed)
    (sound : Sound zstd blake3 ops store) :
    Sound zstd blake3 ops (run (put_encoded inner zstd level now_us name framed) store).2 := by
  obtain ⟨object, read, encoded⟩ := canonical
  have kept := (@run_accepted inner zstd level store now_us name framed object encoded).2
  intro key packed found
  rw [kept] at found
  split at found
  next =>
    by_cases same : key = key_for name
    next =>
      rw [same, Function.update_self, Option.some.injEq] at found
      refine ⟨name, framed, same, ?_, hashed, ⟨object, read, encoded⟩, offered⟩
      rw [← found, decompress_compress]
    next =>
      rw [Function.update_of_ne same] at found
      exact sound key packed found
  next => exact sound key packed found

theorem perform_sound {op : Operation} (member : op ∈ ops) (spaceless : op.Spaceless)
    (sound : Sound zstd blake3 ops store) : Sound zstd blake3 ops (perform inner zstd blake3 level store op) := by
  cases op with
  | put now_us name framed =>
    rcases @run_put inner zstd blake3 level store now_us name framed with ⟨error, rejected⟩ | ⟨hashed, canonical, same⟩
    next => rw [perform, rejected]; exact sound
    next =>
      rw [perform, same]
      exact put_sound canonical hashed ⟨_, member, rfl, rfl, hashed⟩ sound
  | put_object now_us object =>
    rw [perform, put_object, run_bind, run_liftM]
    cases encoded : encode object with
    | error => exact sound
    | ok framed => exact put_sound (encoded_canonical encoded spaceless) rfl ⟨_, member, encoded, rfl⟩ sound
  | delete names =>
    intro key packed found
    have left : inner.stored (inner.delete (names.map key_for) store.backend).2 key = some packed := found
    rw [inner.stored_delete] at left
    split at left
    next => cases left
    next => exact sound key packed left

theorem perform_all_sound (rest : List Operation) (whole : ∀ op ∈ rest, op ∈ ops ∧ op.Spaceless)
    (sound : Sound zstd blake3 ops store) : Sound zstd blake3 ops (perform_all inner zstd blake3 level rest store) := by
  induction rest generalizing store with
  | nil => exact sound
  | cons op rest ih =>
    obtain ⟨member, spaceless⟩ := whole op List.mem_cons_self
    exact ih (fun later there => whole later (List.mem_cons_of_mem _ there)) (perform_sound member spaceless sound)

end Invariant

/-! ## Every run -/

section Properties

variable {inner} (store : ObjectStore inner) (ops : List Operation)

/-- Every stored key's bytes are, unpacked, a canonical encoding whose hash is the key. -/
def Intact : Prop :=
  ∀ key packed, inner.stored store.backend key = some packed →
    ∃ framed, decompress zstd packed = .ok framed ∧ IsCanonical framed ∧ key = key_for (name_of_encoded blake3 framed)

/-- A put that raises has changed nothing. -/
def Rejects : Prop :=
  (∀ now_us name framed error,
    (run (put inner zstd blake3 level now_us name framed) store).1 = .error error →
      (run (put inner zstd blake3 level now_us name framed) store).2 = store) ∧
    ∀ now_us object error,
      (run (put_object inner zstd blake3 level now_us object) store).1 = .error error →
        (run (put_object inner zstd blake3 level now_us object) store).2 = store

/-- A stored name is read back as the bytes that were put under it. -/
def Delivers : Prop :=
  ∀ name, store.Stores name → ∃ framed, run (get inner zstd blake3 name) store = (.ok framed, store) ∧
    (∃ op ∈ ops, op.Offers blake3 name framed) ∧
      ∀ op ∈ ops, ∀ other, op.Offers blake3 name other →
        (blake3.digest other DIGEST_BYTES = blake3.digest framed DIGEST_BYTES → other = framed) → other = framed

end Properties

section Integrity

variable {inner zstd blake3 level} {store : ObjectStore inner} {ops : List Operation}

theorem sound_intact (sound : Sound zstd blake3 ops store) : Intact zstd blake3 store := by
  intro key packed found
  obtain ⟨name, framed, rfl, unpacked, rfl, canonical, -⟩ := sound key packed found
  exact ⟨framed, unpacked, canonical, rfl⟩

theorem Operation.Offers.named {op : Operation} {name : ObjectName} {framed : Bytes}
    (offers : op.Offers blake3 name framed) : name_of_encoded blake3 framed = name := by
  cases op with
  | put => exact offers.2.2
  | put_object => exact offers.2
  | delete => exact offers.elim

theorem sound_delivers (sound : Sound zstd blake3 ops store) : Delivers zstd blake3 store ops := by
  intro name stores
  obtain ⟨packed, found⟩ := Option.ne_none_iff_exists'.mp stores
  obtain ⟨other, framed, same, unpacked, hashed, -, offered⟩ := sound _ packed found
  obtain rfl := key_for_injective same
  refine ⟨framed, run_get found unpacked hashed, offered, fun op member bytes offers apart => apart ?_⟩
  exact congrArg ObjectName.digest (offers.named.trans hashed.symm)

theorem rejects : Rejects zstd blake3 level store := by
  refine ⟨fun now_us name framed error rejected => ?_, fun now_us object error rejected => ?_⟩
  next =>
    rcases @run_put inner zstd blake3 level store now_us name framed with ⟨_, same⟩ | ⟨_, ⟨object, _, encoded⟩, same⟩
    next => rw [same]
    next =>
      obtain ⟨⟨outcome, accepted⟩, -⟩ := @run_accepted inner zstd level store now_us name framed object encoded
      rw [same, accepted] at rejected
      cases rejected
  next =>
    rw [put_object, run_bind, run_liftM] at rejected ⊢
    cases encoded : encode object with
    | error => rfl
    | ok framed =>
      simp only [encoded] at rejected
      obtain ⟨⟨outcome, accepted⟩, -⟩ :=
        @run_accepted inner zstd level store now_us (name_of_encoded blake3 framed) framed object encoded
      rw [accepted] at rejected
      cases rejected

end Integrity

/-- In every state that puts and deletes take a new store through. -/
theorem store_integrity (ops : List Operation) (store : ObjectStore inner)
    (new : ∀ key, inner.stored store.backend key = none) (spaceless : ∀ op ∈ ops, op.Spaceless) :
    let reached := perform_all inner zstd blake3 level ops store
    Intact zstd blake3 reached ∧ Rejects zstd blake3 level reached ∧ Delivers zstd blake3 reached ops := by
  have sound : Sound zstd blake3 ops (perform_all inner zstd blake3 level ops store) := by
    refine perform_all_sound ops (fun op member => ⟨member, spaceless op member⟩) fun key packed found => ?_
    cases (new key).symm.trans found
  exact ⟨sound_intact sound, rejects, sound_delivers sound⟩

/-- A store of nothing. -/
def empty : ObjectStore InMemoryBackend := ⟨fun _ => none, ∅, ∅⟩

/-- A codec for objects too small for it to be used on. -/
def uncompressed : Zstd := ⟨fun payload _ => payload, some, fun _ _ => rfl⟩

theorem store_integrity_empty_tree :
    let reached := perform_all InMemoryBackend uncompressed emptyTreeDigests DEFAULT_LEVEL
      [.put_object 0 emptyTree, .put 0 emptyTreeName [3]] empty
    Intact uncompressed emptyTreeDigests reached ∧ Rejects uncompressed emptyTreeDigests DEFAULT_LEVEL reached ∧
      Delivers uncompressed emptyTreeDigests reached [.put_object 0 emptyTree, .put 0 emptyTreeName [3]] := by
  refine store_integrity InMemoryBackend uncompressed emptyTreeDigests DEFAULT_LEVEL _ empty (fun _ => rfl) ?_
  intro op member
  simp only [List.mem_cons, List.not_mem_nil, or_false] at member
  rcases member with rfl | rfl <;> trivial

/-- A commit of the empty tree whose change id is thirty letters and two spaces. -/
def spacedCommit : Commit where
  tree := emptyTreeName
  parents := []
  change_id := ⟨List.replicate 30 0x61 ++ [0x20, 0x20]⟩
  author := Text.lit "a"
  committer := Text.lit "a"
  timestamp_us := 0
  message := []
  metadata := []

/-- One byte short. -/
def spacedFramed : Bytes :=
  [4, 1] ++ emptyTreeName.digest ++ [0, 0] ++ List.replicate 15 0xaa ++ [1, 0x61, 1, 0x61] ++ List.replicate 16 0

/-- The digest is that of BLAKE3. -/
def spacedDigests : Blake3 := .ofTable [(spacedFramed,
  [0x4c, 0x64, 0x29, 0xae, 0x1e, 0x8b, 0x4e, 0x8e, 0x1f, 0xd3, 0x04, 0x50, 0x8b, 0x65, 0x3f, 0xba, 0x2b,
    0x94, 0xb9, 0x20, 0xf2, 0x85, 0xd3, 0x5a, 0x61, 0xbf, 0xcf, 0x82, 0xe3, 0x0f, 0x39, 0xe4])]

/-- The store takes it and can never decode it. -/
theorem spaced_change_id_stored :
    ¬ Intact uncompressed spacedDigests
      (perform_all InMemoryBackend uncompressed spacedDigests DEFAULT_LEVEL [.put_object 0 (.commit spacedCommit)]
        empty) := by
  intro intact
  have found : (perform_all InMemoryBackend uncompressed spacedDigests DEFAULT_LEVEL
      [.put_object 0 (.commit spacedCommit)] empty).backend (key_for (name_of_encoded spacedDigests spacedFramed)) =
        some (0 :: spacedFramed) := by
    decide
  obtain ⟨framed, unpacked, ⟨object, read, -⟩, -⟩ := intact _ _ found
  obtain rfl : spacedFramed = framed := Except.ok.inj unpacked
  have undecodable : (decode spacedFramed).toOption = none := by decide
  rw [read] at undecodable
  cases undecodable

end ObjectStore

end LedgerVcs
