import LedgerVcs.Store.Integrity

set_option autoImplicit false

/-! What an object store answers to reads. -/

namespace LedgerVcs

open Wire (Bytes)

/-- The reads of a store that nobody writes to meanwhile. Whatever is read is what bytes of that name mean. -/
structure Objects (blake3 : Blake3) where
  get_object : ObjectName → Except PyError LedgerObject
  verified : ∀ {name object}, get_object name = .ok object →
    ∃ framed, decode framed = .ok object ∧ name_of_encoded blake3 framed = name

namespace Objects

variable {blake3 : Blake3} (store : Objects blake3)

def get_tree (name : ObjectName) : Except PyError Tree := do
  match ← store.get_object name with
  | .tree tree => return tree
  | _ => throw wrong_kind

def get_blob (name : ObjectName) : Except PyError Blob := do
  match ← store.get_object name with
  | .blob blob => return blob
  | _ => throw wrong_kind

def get_chunk (name : ObjectName) : Except PyError Chunk := do
  match ← store.get_object name with
  | .chunk chunk => return chunk
  | _ => throw wrong_kind

variable {store} {name : ObjectName}

theorem get_tree_ok {tree : Tree} : store.get_tree name = .ok tree ↔ store.get_object name = .ok (.tree tree) := by
  rw [get_tree]
  rcases store.get_object name with error | (chunk | blob | tree | commit) <;>
    simp [bind, Except.bind, pure, Except.pure, throw, throwThe, MonadExceptOf.throw]

theorem get_blob_ok {blob : Blob} : store.get_blob name = .ok blob ↔ store.get_object name = .ok (.blob blob) := by
  rw [get_blob]
  rcases store.get_object name with error | (chunk | blob | tree | commit) <;>
    simp [bind, Except.bind, pure, Except.pure, throw, throwThe, MonadExceptOf.throw]

theorem get_chunk_ok {chunk : Chunk} : store.get_chunk name = .ok chunk ↔ store.get_object name = .ok (.chunk chunk) := by
  rw [get_chunk]
  rcases store.get_object name with error | (chunk | blob | tree | commit) <;>
    simp [bind, Except.bind, pure, Except.pure, throw, throwThe, MonadExceptOf.throw]

theorem same_name {other : ObjectName} {object : LedgerObject} (first : store.get_object name = .ok object)
    (second : store.get_object other = .ok object) : name = other := by
  obtain ⟨framed, read, rfl⟩ := store.verified first
  obtain ⟨again, reread, rfl⟩ := store.verified second
  rw [decode_canonical.2 framed again object read reread]

end Objects

namespace ObjectStore

variable {inner : RawBlobBackend} (zstd : Zstd) (blake3 : Blake3)

def get_object (name : ObjectName) : Op inner LedgerObject := do
  let framed ← get inner zstd blake3 name
  liftM (decode framed)

theorem get_object_ok {store : ObjectStore inner} {name : ObjectName} {object : LedgerObject} :
    (run (get_object zstd blake3 name) store).1 = .ok object ↔
      ∃ framed, (run (get inner zstd blake3 name) store).1 = .ok framed ∧ decode framed = .ok object := by
  rw [get_object, run_bind]
  rcases run (get inner zstd blake3 name) store with ⟨error | framed, after⟩ <;> simp

theorem get_verified {store : ObjectStore inner} {name : ObjectName} {framed : Bytes}
    (read : (run (get inner zstd blake3 name) store).1 = .ok framed) : name_of_encoded blake3 framed = name := by
  rw [get, run_bind] at read
  generalize run (backend_read inner zstd (key_for name)) store = opened at read
  obtain ⟨error | found, after⟩ := opened
  next => cases read
  next =>
    simp only [run_bind, run_liftM, run_pure] at read
    cases checked : verify blake3 name found with
    | error => rw [checked] at read; cases read
    | ok =>
      rw [checked] at read
      obtain rfl := Except.ok.inj read
      exact ensure_ok.mp checked

def objects (store : ObjectStore inner) : Objects blake3 where
  get_object name := (run (get_object zstd blake3 name) store).1
  verified read := by
    obtain ⟨framed, found, decoded⟩ := (get_object_ok zstd blake3).mp read
    exact ⟨framed, decoded, get_verified zstd blake3 found⟩

/-- What a new store answers after each of these has been put under the name it hashes to. -/
def after_puts (offered : List Bytes) : Objects blake3 :=
  (perform_all InMemoryBackend uncompressed blake3 DEFAULT_LEVEL
    (offered.map fun framed => .put 0 (name_of_encoded blake3 framed) framed) empty).objects uncompressed blake3

end ObjectStore

end LedgerVcs
