import LedgerVcs.Lib.Machine
import LedgerVcs.Store.Objects

set_option autoImplicit false

/-! The store of bytes answers as the store of names does. -/

namespace LedgerVcs

open Prog (ofExcept)
open Wire (Bytes)

/-! ## Requests and answers -/

inductive StoreRequest
  | put (name : ObjectName) (framed : Bytes)
  | put_object (object : LedgerObject)
  | get (name : ObjectName)
  | get_object (name : ObjectName)
  | missing (names : List ObjectName)
  | delete (names : List ObjectName)
  | tombstones_record (names : List ObjectName) (expires_at_us : Int)
  | tombstones_purge_expired

/-- A request, and the time on the clock when it is served. -/
abbrev Timed := Int × StoreRequest

/-- What is counted is left out, and why a put is rejected. -/
inductive StoreAnswer
  | put (outcome : Option PutOutcome)
  | get (outcome : Except PyError Bytes)
  | get_object (outcome : Except PyError LedgerObject)
  | missing (outcome : Except PyError (Finset ObjectName))
  | done

/-- The bytes that a request brings. -/
def StoreRequest.bytes : StoreRequest → Option Bytes
  | .put _ framed => some framed
  | .put_object object => (encode object).toOption
  | _ => none

def offered (requests : List Timed) : List Bytes := requests.filterMap fun request => request.2.bytes

/-! ## Over bytes -/

namespace ObjectStore

variable (inner : RawBlobBackend) (zstd : Zstd) (blake3 : Blake3) (level : Int)

def missing (names : List ObjectName) : Op inner (Finset ObjectName) := do
  if names = [] then return ∅
  let store ← MonadState.get
  let unique := fromkeys names
  let present_keys := inner.exists_many (unique.map key_for) store.backend
  let absent := unique.toFinset.filter fun name => key_for name ∉ present_keys
  return absent ∪ unique.toFinset.filter fun name => name ∈ store.tombstones

def tombstones_record (names : List ObjectName) (expires_at_us : Int) : Op inner Unit :=
  modify fun store =>
    { store with tombstones := names.foldl (fun rows name => rows.insertIfNew name expires_at_us) store.tombstones }

def tombstones_purge_expired (now_us : Int) : Op inner Unit :=
  modify fun store => { store with tombstones := store.tombstones.filter fun _ expires_at_us => now_us < expires_at_us }

def answering {α : Type} (op : Op inner α) (answer : Except PyError α → StoreAnswer) (store : ObjectStore inner) :
    StoreAnswer × ObjectStore inner :=
  (answer (run op store).1, (run op store).2)

def respond : Timed → ObjectStore inner → StoreAnswer × ObjectStore inner
  | (now_us, .put name framed) =>
    answering inner (put inner zstd blake3 level now_us name framed) fun outcome => .put outcome.toOption
  | (now_us, .put_object object) =>
    answering inner (put_object inner zstd blake3 level now_us object) fun outcome => .put outcome.toOption
  | (_, .get name) => answering inner (get inner zstd blake3 name) .get
  | (_, .get_object name) => answering inner (get_object zstd blake3 name) .get_object
  | (_, .missing names) => answering inner (missing inner names) .missing
  | (_, .delete names) => answering inner (delete inner names) fun _ => .done
  | (_, .tombstones_record names expires_at_us) =>
    answering inner (tombstones_record inner names expires_at_us) fun _ => .done
  | (now_us, .tombstones_purge_expired) => answering inner (tombstones_purge_expired inner now_us) fun _ => .done

end ObjectStore

/-! ## Over names -/

namespace World

section Responding

variable (corpus : Corpus) (blake3 : Blake3)

def answering {α : Type} (act : Act α) (answer : Except PyError α → StoreAnswer) (world : World) : StoreAnswer × World :=
  (answer (runs corpus act world).1, (runs corpus act world).2)

/-- The bytes of an object are those it is encoded as. -/
def framed (name : ObjectName) : Act Bytes := do
  let object ← LedgerVcs.get_object name
  ofExcept (encode object)

def serve : StoreRequest → World → StoreAnswer × World
  | .put name framed =>
    answering corpus (LedgerVcs.put corpus name (name_of_encoded blake3 framed)) fun outcome => .put outcome.toOption
  | .put_object object => answering corpus (LedgerVcs.put_object corpus object) fun outcome => .put outcome.toOption
  | .get name => answering corpus (framed name) .get
  | .get_object name => answering corpus (LedgerVcs.get_object name) .get_object
  | .missing names => answering corpus (LedgerVcs.missing names) .missing
  | .delete names => answering corpus (LedgerVcs.delete names) fun _ => .done
  | .tombstones_record names expires_at_us =>
    answering corpus (each names fun name => issue (.tombstone_record name expires_at_us)) fun _ => .done
  | .tombstones_purge_expired =>
    answering corpus (issue .now_us >>= fun now_us => issue (.tombstone_purge now_us)) fun _ => .done

def respond (request : Timed) (world : World) : StoreAnswer × World :=
  serve corpus blake3 request.2 { world with clock := request.1 }

end Responding

end World

/-! ## Each request -/

namespace ObjectStore

section Requests

variable {inner : RawBlobBackend} {zstd : Zstd} {blake3 : Blake3} {level : Int} {play : List Bytes}
  {store : ObjectStore inner} {world : World} {ops : List Operation}

/-- No two byte strings in play have one name. -/
def Apart (blake3 : Blake3) (play : List Bytes) : Prop :=
  ∀ left ∈ play, ∀ right ∈ play, name_of_encoded blake3 left = name_of_encoded blake3 right → left = right

/-- The objects of the bytes in play, each as long as it is packed. -/
def packed (zstd : Zstd) (blake3 : Blake3) (level : Int) (play : List Bytes) (apart : Apart blake3 play) : Corpus :=
  .ofBytes blake3 play (fun framed => (compress zstd framed level).length) apart

theorem found_in_play {framed : Bytes} (member : framed ∈ play) (apart : Apart blake3 play) :
    (play.find? fun other => name_of_encoded blake3 other = name_of_encoded blake3 framed) = some framed := by
  cases search : play.find? fun other => name_of_encoded blake3 other = name_of_encoded blake3 framed with
  | none => exact absurd (List.find?_eq_none.mp search framed member) (by simp)
  | some other =>
    have same : name_of_encoded blake3 other = name_of_encoded blake3 framed := by simpa using List.find?_some search
    rw [apart other (List.mem_of_find?_eq_some search) framed member same]

section Packed

variable {apart : Apart blake3 play} {framed : Bytes}

theorem packed_content (member : framed ∈ play) :
    (packed zstd blake3 level play apart).content (name_of_encoded blake3 framed) = (decode framed).toOption := by
  simp only [packed, Corpus.ofBytes, found_in_play member apart, Option.bind_some]

theorem packed_length (member : framed ∈ play) :
    (packed zstd blake3 level play apart).length (name_of_encoded blake3 framed) = framed.length := by
  simp only [packed, Corpus.ofBytes, found_in_play member apart, Option.map_some, Option.getD_some]

theorem packed_occupied (member : framed ∈ play) :
    (packed zstd blake3 level play apart).occupied (name_of_encoded blake3 framed) =
      (compress zstd framed level).length := by
  simp only [packed, Corpus.ofBytes, found_in_play member apart, Option.map_some, Option.getD_some]

end Packed

/-- The same names, and under each the bytes of one of the operations. -/
structure Mirrors (zstd : Zstd) (blake3 : Blake3) (ops : List Operation) (store : ObjectStore inner) (world : World) : Prop where
  represents : store.Represents world
  sound : Sound zstd blake3 ops store

theorem Mirrors.at_time (mirrors : Mirrors zstd blake3 ops store world) (clock : Int) :
    Mirrors zstd blake3 ops store { world with clock } :=
  ⟨⟨mirrors.represents.backend, mirrors.represents.catalog, mirrors.represents.tombstones⟩, mirrors.sound⟩

/-- What was written is as long as the backend reports. -/
def Measured (inner : RawBlobBackend) : Prop := ∀ key data state, (inner.write key data state).1 = data.length

section Puts

variable {apart : Apart blake3 play} {framed : Bytes}

theorem put_encoded_mirrors (measured : Measured inner) (member : framed ∈ play) (canonical : IsCanonical framed)
    (offered : ∃ op ∈ ops, op.Offers blake3 (name_of_encoded blake3 framed) framed)
    (mirrors : Mirrors zstd blake3 ops store world) :
    let corpus := packed zstd blake3 level play apart
    let name := name_of_encoded blake3 framed
    (run (put_encoded inner zstd level world.clock name framed) store).1 =
        (runs corpus (LedgerVcs.put_encoded corpus name) world).1 ∧
      Mirrors zstd blake3 ops (run (put_encoded inner zstd level world.clock name framed) store).2
        (runs corpus (LedgerVcs.put_encoded corpus name) world).2 := by
  intro corpus name
  obtain ⟨object, read, encoded⟩ := canonical
  have content : corpus.content name = some object := by
    rw [packed_content member, read]
    rfl
  have occupied : corpus.occupied name = (inner.write (key_for name) (compress zstd framed level) store.backend).1 := by
    rw [packed_occupied member, measured]
  obtain ⟨same, represents⟩ :=
    put_encoded_represents encoded content (packed_length member) occupied mirrors.represents
  exact ⟨same, represents, put_sound ⟨object, read, encoded⟩ rfl offered mirrors.sound⟩

theorem put_mirrors (measured : Measured inner) (member : framed ∈ play) {name : ObjectName}
    (offers : .put world.clock name framed ∈ ops) (mirrors : Mirrors zstd blake3 ops store world) :
    let corpus := packed zstd blake3 level play apart
    let ran := run (put inner zstd blake3 level world.clock name framed) store
    let meant := runs corpus (LedgerVcs.put corpus name (name_of_encoded blake3 framed)) world
    ran.1.toOption = meant.1.toOption ∧ Mirrors zstd blake3 ops ran.2 meant.2 := by
  intro corpus ran meant
  have content : corpus.content (name_of_encoded blake3 framed) = (decode framed).toOption := packed_content member
  by_cases hashed : name_of_encoded blake3 framed = name
  next =>
    subst hashed
    cases read : decode framed with
    | error error =>
      have rejected : ran = (.error error, store) := by
        simp only [ran, put, run_bind, run_liftM, ensure, if_true, read]
      have same : meant = (.error (.malformedObject "offered bytes are not an object"), world) := by
        simp only [meant, LedgerVcs.put, content, read, ensure, if_true]
        rfl
      rw [rejected, same]
      exact ⟨rfl, mirrors⟩
    | ok object =>
      have encoded := decode_canonical.1 framed object read
      have accepted : ran = run (put_encoded inner zstd level world.clock (name_of_encoded blake3 framed) framed) store := by
        simp only [ran, put, run_bind, run_liftM, ensure, if_true, read, encoded]
      have same : meant = runs corpus (LedgerVcs.put_encoded corpus (name_of_encoded blake3 framed)) world := by
        simp only [meant, LedgerVcs.put, content, read, ensure, if_true]
        rfl
      obtain ⟨outcome, later⟩ := @put_encoded_mirrors inner zstd blake3 level play store world ops apart framed measured
        member ⟨object, read, encoded⟩ ⟨_, offers, rfl, rfl, rfl⟩ mirrors
      rw [accepted, same]
      exact ⟨congrArg Except.toOption outcome, later⟩
  next =>
    have rejected : ran = (.error (.corruptObject "offered bytes do not hash to the name they were sent under"), store) := by
      simp only [ran, put, run_bind, run_liftM, ensure, if_neg hashed]
    have same : meant = (.error (.corruptObject "offered bytes do not hash to the name they were sent under"), world) := by
      simp only [meant, LedgerVcs.put, ensure, if_neg hashed]
      rfl
    rw [rejected, same]
    exact ⟨rfl, mirrors⟩

theorem put_object_mirrors (measured : Measured inner) {object : LedgerObject}
    (member : ∀ framed, encode object = .ok framed → framed ∈ play) (offers : .put_object world.clock object ∈ ops)
    (spaceless : (Operation.put_object world.clock object).Spaceless) (mirrors : Mirrors zstd blake3 ops store world) :
    let corpus := packed zstd blake3 level play apart
    let ran := run (put_object inner zstd blake3 level world.clock object) store
    let meant := runs corpus (LedgerVcs.put_object corpus object) world
    ran.1.toOption = meant.1.toOption ∧ Mirrors zstd blake3 ops ran.2 meant.2 := by
  intro corpus ran meant
  cases encoded : encode object with
  | error error =>
    have rejected : ran = (.error error, store) := by
      simp only [ran, put_object, run_bind, run_liftM, encoded]
    have named : corpus.name_of object = .error error := by
      simp only [corpus, packed, Corpus.ofBytes, encoded]
      rfl
    have same : meant = (.error error, world) := by
      simp only [meant, LedgerVcs.put_object, named]
      rfl
    rw [rejected, same]
    exact ⟨rfl, mirrors⟩
  | ok framed =>
    have accepted : ran = run (put_encoded inner zstd level world.clock (name_of_encoded blake3 framed) framed) store := by
      simp only [ran, put_object, run_bind, run_liftM, encoded]
    have named : corpus.name_of object = .ok (name_of_encoded blake3 framed) := by
      simp only [corpus, packed, Corpus.ofBytes, encoded]
      exact Monads.except_bind_ok.mpr ⟨_, rfl, Monads.except_bind_ok.mpr ⟨(), ensure_ok.mpr (member framed encoded), rfl⟩⟩
    have same : meant = runs corpus (LedgerVcs.put_encoded corpus (name_of_encoded blake3 framed)) world := by
      simp only [meant, LedgerVcs.put_object, named]
      rfl
    obtain ⟨outcome, later⟩ := @put_encoded_mirrors inner zstd blake3 level play store world ops apart framed measured
      (member framed encoded) (encoded_canonical encoded spaceless) ⟨_, offers, encoded, rfl⟩ mirrors
    rw [accepted, same]
    exact ⟨congrArg Except.toOption outcome, later⟩

end Puts

section Reads

variable {apart : Apart blake3 play}

/-- Whatever the operations offer is in play. -/
def InPlay (blake3 : Blake3) (play : List Bytes) (ops : List Operation) : Prop :=
  ∀ op ∈ ops, ∀ name framed, op.Offers blake3 name framed → framed ∈ play

/-- A stored name's bytes are in play and mean what the name stands for. -/
theorem mirrors_stored (whole : InPlay blake3 play ops) {name : ObjectName}
    (mirrors : Mirrors zstd blake3 ops store world) (stored : name ∈ world.backend) :
    ∃ framed object, run (get inner zstd blake3 name) store = (.ok framed, store) ∧ decode framed = .ok object ∧
      encode object = .ok framed ∧ (packed zstd blake3 level play apart).content name = some object := by
  obtain ⟨bytes, found⟩ := Option.ne_none_iff_exists'.mp ((mirrors.represents.backend name).mp stored)
  obtain ⟨other, framed, same, unpacked, hashed, ⟨object, read, encoded⟩, op, member, offers⟩ := mirrors.sound _ bytes found
  obtain rfl := key_for_injective same
  refine ⟨framed, object, run_get found unpacked hashed, read, encoded, ?_⟩
  rw [← hashed, packed_content (whole op member _ framed offers), read]
  rfl

theorem run_get_absent {name : ObjectName} (absent : ¬ store.Stores name) :
    run (get inner zstd blake3 name) store = (.error (.objectNotFound "object is not present in the store"), store) := by
  have lacking := inner.read_absent (key_for name) store.backend (not_not.mp absent)
  have opened : run (backend_read inner zstd (key_for name)) store =
      run (do let packed ← liftM (inner.read (key_for name) store.backend)
              liftM (decompress zstd packed)) store := rfl
  rw [get, run_bind, opened, run_bind, run_liftM, lacking]

theorem run_get_object {name : ObjectName} :
    run (get_object zstd blake3 name) store =
      match run (get inner zstd blake3 name) store with
      | (.ok framed, after) => (decode framed, after)
      | (.error error, after) => (.error error, after) := by
  rw [get_object, run_bind]
  rcases run (get inner zstd blake3 name) store with ⟨_ | framed, after⟩
  next => rfl
  next => simp only [run_liftM]

theorem runs_get_object {corpus : Corpus} {name : ObjectName} :
    runs corpus (LedgerVcs.get_object name) world = ((exec corpus (.backend_read name) world).1, world) := by
  have asked : runs corpus (LedgerVcs.get_object name) world =
      runs corpus (ofExcept (exec corpus (.backend_read name) world).1) world := rfl
  rw [asked, runs, Prog.run_ofExcept]

theorem runs_framed {corpus : Corpus} {name : ObjectName} :
    runs corpus (World.framed name) world = ((exec corpus (.backend_read name) world).1 >>= encode, world) := by
  have read : Prog.run (exec corpus) (LedgerVcs.get_object name) world = _ := runs_get_object
  rw [World.framed, runs, Prog.run_bind, read]
  cases (exec corpus (.backend_read name) world).1 with
  | error error => rfl
  | ok object => exact Prog.run_ofExcept (exec corpus) (encode object) world

theorem get_mirrors (whole : InPlay blake3 play ops) {name : ObjectName} (mirrors : Mirrors zstd blake3 ops store world) :
    let corpus := packed zstd blake3 level play apart
    ∃ framed : Except PyError Bytes, ∃ object : Except PyError LedgerObject,
      run (get inner zstd blake3 name) store = (framed, store) ∧ run (get_object zstd blake3 name) store = (object, store) ∧
        runs corpus (LedgerVcs.get_object name) world = (object, world) ∧ runs corpus (World.framed name) world = (framed, world) := by
  intro corpus
  rw [run_get_object, runs_get_object, runs_framed]
  by_cases stored : name ∈ world.backend
  next =>
    obtain ⟨framed, object, found, decoded, encoded, content⟩ :=
      @mirrors_stored inner zstd blake3 level play store world ops apart whole name mirrors stored
    have read : (exec corpus (.backend_read name) world).1 = .ok object := by
      simp only [exec, if_pos stored, corpus, content]
    rw [found, read]
    exact ⟨.ok framed, .ok object, rfl, congrArg (·, store) decoded, rfl, congrArg (·, world) encoded⟩
  next =>
    have read : (exec corpus (.backend_read name) world).1 =
        .error (.objectNotFound "object is not present in the store") := by
      simp only [exec, if_neg stored]
    rw [run_get_absent fun there => stored ((mirrors.represents.backend name).mpr there), read]
    exact ⟨_, _, rfl, rfl, rfl, rfl⟩

/-- `missing(n) ⟺ not stored(n) or tombstoned(n)`, over the keys. -/
theorem run_missing (names : List ObjectName) :
    ∃ reported, run (missing inner names) store = (.ok reported, store) ∧
      ∀ name, name ∈ reported ↔ name ∈ names ∧ (¬ store.Stores name ∨ name ∈ store.tombstones) := by
  rw [missing]
  by_cases none : names = []
  next =>
    rw [if_pos none, none]
    exact ⟨∅, rfl, by simp⟩
  next =>
    rw [if_neg none]
    refine ⟨_, rfl, fun name => ?_⟩
    have listed : key_for name ∈ (fromkeys names).map key_for ↔ name ∈ names := by
      rw [List.mem_map]
      constructor
      next => rintro ⟨other, member, same⟩; exact mem_fromkeys.mp (key_for_injective same ▸ member)
      next => exact fun member => ⟨name, mem_fromkeys.mpr member, rfl⟩
    simp only [Finset.mem_union, Finset.mem_filter, List.mem_toFinset, mem_fromkeys, inner.mem_exists_many, listed, Stores]
    tauto

end Reads

/-! ## Every run -/

/-- The writes that the store of bytes has to account for. -/
def operation : Timed → Option Operation
  | (now_us, .put name framed) => some (.put now_us name framed)
  | (now_us, .put_object object) => some (.put_object now_us object)
  | (_, .delete names) => some (.delete names)
  | _ => none

theorem offered_in_play (requests : List Timed) : InPlay blake3 (offered requests) (requests.filterMap operation) := by
  intro op member name framed offers
  obtain ⟨⟨now_us, request⟩, there, meant⟩ := List.mem_filterMap.mp member
  refine List.mem_filterMap.mpr ⟨(now_us, request), there, ?_⟩
  cases request with
  | put claimed bytes =>
    obtain rfl := Option.some.inj meant
    exact congrArg some offers.1
  | put_object object =>
    obtain rfl := Option.some.inj meant
    exact congrArg Except.toOption offers.1
  | delete =>
    obtain rfl := Option.some.inj meant
    exact offers.elim
  | _ => cases meant

section Step

variable {apart : Apart blake3 play}

/-- Served over bytes and over names, a request is answered alike and leaves the two alike. -/
theorem respond_mirrors (measured : Measured inner) (whole : InPlay blake3 play ops) {request : Timed}
    (brought : ∀ framed, request.2.bytes = some framed → framed ∈ play) (accounted : ∀ op, operation request = some op → op ∈ ops)
    (spaceless : ∀ op, operation request = some op → op.Spaceless) (mirrors : Mirrors zstd blake3 ops store world) :
    let corpus := packed zstd blake3 level play apart
    (respond inner zstd blake3 level request store).1 = (World.respond corpus blake3 request world).1 ∧
      Mirrors zstd blake3 ops (respond inner zstd blake3 level request store).2 (World.respond corpus blake3 request world).2 := by
  intro corpus
  obtain ⟨now_us, request⟩ := request
  replace mirrors := mirrors.at_time now_us
  cases request with
  | put name framed =>
    obtain ⟨same, later⟩ := @put_mirrors inner zstd blake3 level play store _ ops apart framed measured
      (brought framed rfl) name (accounted _ rfl) mirrors
    exact ⟨congrArg StoreAnswer.put same, later⟩
  | put_object object =>
    have member : ∀ framed, encode object = .ok framed → framed ∈ play := fun framed encoded =>
      brought framed (congrArg Except.toOption encoded)
    obtain ⟨same, later⟩ := @put_object_mirrors inner zstd blake3 level play store _ ops apart measured
      object member (accounted _ rfl) (spaceless _ rfl) mirrors
    exact ⟨congrArg StoreAnswer.put same, later⟩
  | get name =>
    obtain ⟨framed, object, bytes, -, -, meant⟩ :=
      @get_mirrors inner zstd blake3 level play store _ ops apart whole name mirrors
    simp only [respond, World.respond, World.serve, answering, World.answering]
    rw [bytes, meant]
    exact ⟨rfl, mirrors⟩
  | get_object name =>
    obtain ⟨framed, object, -, read, meant, -⟩ :=
      @get_mirrors inner zstd blake3 level play store _ ops apart whole name mirrors
    simp only [respond, World.respond, World.serve, answering, World.answering]
    rw [read, meant]
    exact ⟨rfl, mirrors⟩
  | missing names =>
    obtain ⟨reported, ran, listed⟩ := @run_missing inner store names
    obtain ⟨meant, told, expected⟩ := @runs_missing corpus { world with clock := now_us } names
    have same : reported = meant := by
      ext name
      rw [listed, expected, mirrors.represents.backend, mirrors.represents.tombstones]
    simp only [respond, World.respond, World.serve, answering, World.answering]
    rw [ran, told, same]
    exact ⟨rfl, mirrors⟩
  | delete names =>
    refine ⟨rfl, delete_represents names mirrors.represents, ?_⟩
    exact @perform_sound inner zstd blake3 level store ops _ (accounted (.delete names) rfl) trivial mirrors.sound
  | tombstones_record names expires_at_us =>
    obtain ⟨values, ran⟩ := @runs_each_tombstone corpus names expires_at_us { world with clock := now_us }
    simp only [respond, World.respond, World.serve, answering, World.answering]
    rw [ran]
    refine ⟨trivial, ⟨mirrors.represents.backend, mirrors.represents.catalog, ?_⟩, mirrors.sound⟩
    have same := mirrors.represents.tombstones
    exact congrArg (fun rows => names.foldl (fun rows name => rows.insertIfNew name expires_at_us) rows) same
  | tombstones_purge_expired =>
    refine ⟨rfl, ⟨mirrors.represents.backend, mirrors.represents.catalog, ?_⟩, mirrors.sound⟩
    have same := mirrors.represents.tombstones
    exact congrArg (fun rows => rows.filter fun _ expires_at_us => now_us < expires_at_us) same

end Step

end Requests

/-- From an empty store on, the store of names answers every request as the store of bytes does. -/
theorem bytes_stand_for_names (inner : RawBlobBackend) (zstd : Zstd) (blake3 : Blake3) (level clock : Int)
    (requests : List Timed) (store : ObjectStore inner) (new : ∀ key, inner.stored store.backend key = none)
    (unrecorded : store.catalog = ∅ ∧ store.tombstones = ∅) (measured : Measured inner)
    (apart : Apart blake3 (offered requests)) (spaceless : ∀ op ∈ requests.filterMap operation, op.Spaceless) :
    let corpus := packed zstd blake3 level (offered requests) apart
    let bytes := Machine.answers (respond inner zstd blake3 level) requests store
    let names := Machine.answers (World.respond corpus blake3) requests (.empty clock)
    bytes.1 = names.1 ∧ bytes.2.Represents names.2 ∧ Intact zstd blake3 bytes.2 := by
  intro corpus bytes names
  have initially : Mirrors zstd blake3 (requests.filterMap operation) store (.empty clock) := by
    refine ⟨⟨fun name => ?_, unrecorded.1, unrecorded.2⟩, fun key packed found => ?_⟩
    next => simp [World.empty, Stores, new]
    next => cases (new key).symm.trans found
  have step (request : Timed) (member : request ∈ requests) (store : ObjectStore inner) (world : World)
      (mirrors : Mirrors zstd blake3 (requests.filterMap operation) store world) :=
    @respond_mirrors inner zstd blake3 level (offered requests) store world (requests.filterMap operation) apart measured
      (offered_in_play requests) request (fun framed brought => List.mem_filterMap.mpr ⟨request, member, brought⟩)
      (fun op meant => List.mem_filterMap.mpr ⟨request, member, meant⟩)
      (fun op meant => spaceless op (List.mem_filterMap.mpr ⟨request, member, meant⟩)) mirrors
  obtain ⟨same, last⟩ := Machine.answers_agree step initially
  exact ⟨same, last.represents, sound_intact last.sound⟩

/-- A tree, bytes that are not its name's, and a sweep. -/
def emptyTreeSwept : List Timed :=
  [(0, .put_object emptyTree), (1, .put emptyTreeName [3]), (2, .get emptyTreeName), (3, .delete [emptyTreeName]),
    (4, .tombstones_record [emptyTreeName] 9), (5, .missing [emptyTreeName]), (9, .tombstones_purge_expired)]

theorem emptyTreeSwept_apart : Apart emptyTreeDigests (offered emptyTreeSwept) := by
  have bytes : offered emptyTreeSwept = [emptyTreeFramed, [3]] := rfl
  rw [bytes]
  unfold Apart
  decide

theorem bytes_stand_for_names_swept :
    let corpus := packed uncompressed emptyTreeDigests DEFAULT_LEVEL (offered emptyTreeSwept) emptyTreeSwept_apart
    let bytes := Machine.answers (respond InMemoryBackend uncompressed emptyTreeDigests DEFAULT_LEVEL) emptyTreeSwept empty
    let names := Machine.answers (World.respond corpus emptyTreeDigests) emptyTreeSwept (.empty 0)
    bytes.1 = names.1 ∧ bytes.2.Represents names.2 ∧ Intact uncompressed emptyTreeDigests bytes.2 := by
  refine bytes_stand_for_names InMemoryBackend uncompressed emptyTreeDigests DEFAULT_LEVEL 0 emptyTreeSwept empty
    (fun _ => rfl) ⟨rfl, rfl⟩ (fun _ _ _ => rfl) emptyTreeSwept_apart ?_
  intro op member
  have ops : emptyTreeSwept.filterMap operation =
      [.put_object 0 emptyTree, .put 1 emptyTreeName [3], .delete [emptyTreeName]] := rfl
  rw [ops] at member
  simp only [List.mem_cons, List.not_mem_nil, or_false] at member
  rcases member with rfl | rfl | rfl <;> trivial

end ObjectStore

end LedgerVcs
