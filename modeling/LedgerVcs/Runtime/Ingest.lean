import LedgerVcs.Format.Cdc
import LedgerVcs.Runtime.Building
import LedgerVcs.Service.Commits

set_option autoImplicit false

/-! Turning a directory on disk into objects. -/

namespace LedgerVcs

open Prog (ofExcept)
open Wire (Bytes)

/-- What there is on a disk. Names and link targets are bytes, and a directory lists its own in any order. -/
inductive Node
  | file (content : Bytes) (executable : Bool)
  | symlink (target : Bytes)
  | directory (children : List (Bytes × Node))
  /-- A socket, a FIFO or a device. -/
  | special

/-- `str.encode` of what the system decoded with `surrogateescape` -/
def fs_encode (raw : Bytes) : Except PyError Bytes := do
  ensure (Text.decodeUtf8 raw ≠ none) (.valueError "'utf-8' codec can't encode characters: surrogates not allowed")
  return raw

/-- `.git`, `.jj`, `__pycache__`, `.DS_Store` -/
def DEFAULT_EXCLUDED : List Bytes :=
  [[0x2e, 0x67, 0x69, 0x74], [0x2e, 0x6a, 0x6a],
    [0x5f, 0x5f, 0x70, 0x79, 0x63, 0x61, 0x63, 0x68, 0x65, 0x5f, 0x5f],
    [0x2e, 0x44, 0x53, 0x5f, 0x53, 0x74, 0x6f, 0x72, 0x65]]

def default_exclude (name : Bytes) : Bool := name ∈ DEFAULT_EXCLUDED

/-- What reads of so many bytes at a time give. -/
def file_reads (window : Nat) : (rounds : Nat) → Bytes → List Bytes
  | 0, _ => []
  | rounds + 1, content =>
    if content = [] then [] else content.take window :: file_reads window rounds (content.drop window)

/-- Tallies one write. -/
def IngestStats.record (stats : IngestStats) (outcome : PutOutcome) : IngestStats :=
  { stats with
    objects_offered := stats.objects_offered + 1
    objects_created := stats.objects_created + (if outcome.created then 1 else 0)
    bytes_offered := stats.bytes_offered + outcome.size
    bytes_stored := stats.bytes_stored + (if outcome.created then outcome.size else 0)
    bytes_on_disk := stats.bytes_on_disk + outcome.stored_size }

structure Ingester where
  corpus : Corpus
  blake3 : Blake3
  chunk_params : ChunkParams
  shape_params : ShapeParams
  exclude : Bytes → Bool

abbrev Ingesting := Storing IngestStats

namespace Ingester

variable (ingester : Ingester)

def put (object : LedgerObject) : Ingesting ObjectName := Storing.put ingester.corpus IngestStats.record object

def put_chunk (payload : Bytes) : Ingesting BlobEntry := do
  let name ← ingester.put (.chunk ⟨payload⟩)
  return ⟨name, payload.length⟩

def build_blob (entries : List BlobEntry) : Ingesting ObjectName :=
  Storing.build_blob ingester.corpus IngestStats.record ingester.blake3 entries ingester.shape_params

def write_stream (source : List Bytes) : Ingesting ObjectName := do
  let entries ← (chunk_stream ingester.blake3 source ingester.chunk_params).mapM fun payload => do
    let entry ← ingester.put_chunk payload
    modify fun stats => { stats with chunks := stats.chunks + 1 }
    return entry
  if entries = [] then ingester.put (.blob ⟨0, []⟩) else ingester.build_blob entries

def write_bytes (data : Bytes) : Ingesting ObjectName := do
  if data = [] then ingester.put (.blob ⟨0, []⟩)
  else
    let entries ← (chunk_bytes ingester.blake3 data ingester.chunk_params).mapM ingester.put_chunk
    modify fun stats => { stats with chunks := stats.chunks + entries.length }
    ingester.build_blob entries

def write_file (content : Bytes) : Ingesting ObjectName :=
  ingester.write_stream (file_reads (max (ingester.chunk_params.max_size * 4) (1 <<< 20)) content.length content)

/-- The loop of `_walk_directory`, over children that come with what makes their entries. -/
def walk_children (children : List (Bytes × Ingesting TreeEntry)) : Ingesting (List TreeEntry) := do
  let kept := children.filter fun child => ¬ ingester.exclude child.1
  kept.mapM fun child => do
    (ofExcept (ensure (child.1.length ≤ MAX_ENTRY_NAME_BYTES) (.invalidRequest "path component too long")) : Act Unit)
    child.2

/-- Sorted by the bytes of the names. -/
def walk_directory (children : List (Bytes × Ingesting TreeEntry)) : Ingesting ObjectName := do
  (ofExcept (children.forM fun child => do let _ ← fs_encode child.1) : Act Unit)
  let entries ← ingester.walk_children (children.mergeSort fun left right => left.1 ≤ right.1)
  modify fun stats => { stats with directories := stats.directories + 1 }
  Storing.build_tree ingester.corpus IngestStats.record ingester.blake3 entries ingester.shape_params

mutual

def entry_for : Node → (name : Bytes) → Ingesting TreeEntry
  | .symlink target, name => do
    let target ← (ofExcept (fs_encode target) : Act Bytes)
    modify fun stats => { stats with symlinks := stats.symlinks + 1 }
    let blob ← ingester.write_bytes target
    return ⟨name, .symlink, blob, 0, target.length⟩
  | .directory children, name => do
    let tree ← ingester.walk_directory (entries_for children)
    return ⟨name, .tree, tree, 0, 0⟩
  | .special, _ => (ofExcept (.error (.invalidRequest "unsupported file type")) : Act TreeEntry)
  | .file content executable, name => do
    modify fun stats => { stats with files := stats.files + 1 }
    let blob ← ingester.write_file content
    return ⟨name, .blob, blob, if executable then MODE_EXEC else MODE_REGULAR, content.length⟩

def entries_for : List (Bytes × Node) → List (Bytes × Ingesting TreeEntry)
  | [] => []
  | (name, child) :: children => (name, entry_for child name) :: entries_for children

end

/-- The stats are the state that it leaves. -/
def ingest_directory : Node → Ingesting ObjectName
  | .directory children => ingester.walk_directory (ingester.entries_for children)
  | _ => (ofExcept (.error (.invalidRequest "not a directory")) : Act ObjectName)

def ingest_stream (source : List Bytes) : Act (ObjectName × IngestStats) := ingester.write_stream source .none

def ingest_bytes (data : Bytes) : Act (ObjectName × IngestStats) := ingester.write_bytes data .none

end Ingester

end LedgerVcs
