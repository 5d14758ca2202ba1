import LedgerVcs.Format.RoundTrip
import Mathlib.Data.List.Perm.Basic

set_option autoImplicit false

namespace LedgerVcs

open Wire (Bytes)
open Text (PyStr)

/-- Opaque keys and bytes. `stored` is what the medium holds: a write is read back, and nothing else
changes. -/
structure RawBlobBackend where
  State : Type
  stored : State → PyStr → Option Bytes
  write : PyStr → Bytes → State → Nat × State
  read : PyStr → State → Except PyError Bytes
  exists_many : List PyStr → State → List PyStr
  delete : List PyStr → State → Nat × State
  stored_write : ∀ key data state, stored (write key data state).2 = Function.update (stored state) key (some data)
  read_stored : ∀ key state data, stored state key = some data → read key state = .ok data
  read_absent : ∀ key state, stored state key = none →
    read key state = .error (.objectNotFound "object is not present in the store")
  mem_exists_many : ∀ keys state key, key ∈ exists_many keys state ↔ key ∈ keys ∧ stored state key ≠ none
  stored_delete : ∀ keys state key, stored (delete keys state).2 key = if key ∈ keys then none else stored state key

/-- A dict. -/
def InMemoryBackend : RawBlobBackend where
  State := PyStr → Option Bytes
  stored state := state
  write key data state := (data.length, Function.update state key (some data))
  read key state :=
    match state key with
    | some data => .ok data
    | none => .error (.objectNotFound "object is not present in the store")
  exists_many keys state := keys.filter fun key => (state key).isSome
  delete keys state :=
    ((keys.dedup.filter fun key => (state key).isSome).length, fun key => if key ∈ keys then none else state key)
  stored_write _ _ _ := rfl
  read_stored _ _ _ found := by simp [found]
  read_absent _ _ absent := by simp [absent]
  mem_exists_many keys state key := by simp [List.mem_filter, Option.isSome_iff_ne_none]
  stored_delete _ _ _ := rfl

/-! ## Compression at rest -/

/-- The compression library. -/
structure Zstd where
  compress : Bytes → Int → Bytes
  /-- `none` is a `ZstdError`. -/
  decompress : Bytes → Option Bytes
  round_trip : ∀ payload level, decompress (compress payload level) = some payload

def CODEC_NONE : UInt8 := 0

def CODEC_ZSTD : UInt8 := 1

def DEFAULT_LEVEL : Int := 3

def MIN_WORTH_COMPRESSING : Nat := 256

section Framing

variable (zstd : Zstd)

def compress (payload : Bytes) (level : Int) : Bytes :=
  if payload.length < MIN_WORTH_COMPRESSING then CODEC_NONE :: payload
  else
    let packed := zstd.compress payload level
    if payload.length ≤ packed.length then CODEC_NONE :: payload else CODEC_ZSTD :: packed

def decompress : Bytes → Except PyError Bytes
  | [] => .error (.corruptObject "stored object is empty")
  | codec :: body =>
    if codec = CODEC_NONE then .ok body
    else if codec = CODEC_ZSTD then
      match zstd.decompress body with
      | some payload => .ok payload
      | none => .error (.corruptObject "stored object could not be decompressed")
    else .error (.corruptObject "stored object uses a compression codec this build cannot read")

/-- Whatever the payload looks like, its frame says how it was packed. -/
theorem decompress_compress (payload : Bytes) (level : Int) :
    decompress zstd (compress zstd payload level) = .ok payload := by
  have raw : decompress zstd (CODEC_NONE :: payload) = .ok payload := rfl
  have packed : decompress zstd (CODEC_ZSTD :: zstd.compress payload level) = .ok payload := by
    rw [decompress, if_neg (by decide), if_pos rfl, zstd.round_trip]
  rw [compress]
  split
  next => exact raw
  next =>
    dsimp only
    split
    next => exact raw
    next => exact packed

end Framing

end LedgerVcs
