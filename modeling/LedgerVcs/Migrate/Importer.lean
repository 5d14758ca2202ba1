import LedgerVcs.Lib.Failing
import LedgerVcs.Migrate.Listing
import LedgerVcs.Runtime.Ingest

set_option autoImplicit false

/-! Converting a git repository's history. -/

namespace LedgerVcs

open Wire (Bytes)
open Text (PyStr lit)

/-! ## Git's objects -/

/-- What `_parse_commit` reads of a commit. -/
structure CommitHeader where
  tree : PyStr
  parents : List PyStr
  author : PyStr
  committer : PyStr
  committed_at_us : Int
  message : PyStr

inductive GitObject
  | blob (content : Bytes)
  | tree (entries : List GitEntry)
  | commit (header : CommitHeader)

/-- Every git object there is, by its id. SHA-1 is taken to be injective on them, and what an object calls a tree is one. -/
structure Git where
  object : Bytes → Option GitObject
  empty : ∀ id, Text.fromhex GIT_EMPTY_TREE = some id → object id = some (.tree [])
  below : ∀ id entries, object id = some (.tree entries) → ∀ entry ∈ entries, entry.mode = .directory →
    ∃ inner, object entry.id = some (.tree inner)
  root : ∀ id header, object id = some (.commit header) → ∃ root entries, header.tree = Text.hex root ∧ object root = some (.tree entries)

/-- What a repository holds of them, and the commits that it finds behind a ref, oldest first. -/
structure GitRepository where
  holds : Bytes → Bool
  rev_list : PyStr → Option Int → Except PyError (List PyStr)
  ids : ∀ ref limit shas, rev_list ref limit = .ok shas → ∀ sha ∈ shas, ∃ id, sha = Text.hex id

namespace GitRepository

variable (git : Git) (repository : GitRepository)

def read_object (sha : PyStr) : Except PyError GitObject :=
  match (Text.fromhex sha).bind fun id => if repository.holds id then git.object id else none with
  | some object => .ok object
  | none => .error (.notFound "git has no such object")

def read_commit (sha : PyStr) : Except PyError CommitHeader := do
  match ← repository.read_object git sha with
  | .commit header => return header
  | _ => throw (.invalidRequest "expected a commit")

def read_blob (sha : PyStr) : Except PyError Bytes := do
  match ← repository.read_object git sha with
  | .blob content => return content
  | _ => throw (.invalidRequest "expected a blob")

/-- `git ls-tree` -/
def run_ls_tree (sha : PyStr) : Except PyError Bytes :=
  match repository.read_object git sha with
  | .ok (.tree entries) => .ok (ls_tree entries)
  | _ => .error (.invalidRequest "git could not answer that")

def list_tree (sha : PyStr) : Except PyError (List TreeItem) := LedgerVcs.list_tree sha (repository.run_ls_tree git sha)

end GitRepository

/-! ## The digest index -/

structure DigestRow where
  name : ObjectName
  size : Nat
deriving DecidableEq

/-- The rows of `alternate_digest` under `git-sha1`. -/
abbrev DigestIndex := Std.ExtTreeMap Bytes DigestRow

namespace DigestIndex

def lookup (index : DigestIndex) (encoded : PyStr) : Option DigestRow := (Text.fromhex encoded).bind fun key => index[key]?

/-- INSERT OR REPLACE -/
def record (index : DigestIndex) (encoded : PyStr) (row : DigestRow) : Except PyError DigestIndex :=
  match Text.fromhex encoded with
  | some key => .ok (index.insert key row)
  | none => .error (.valueError "non-hexadecimal number found in fromhex() arg")

def forget (index : DigestIndex) (names : List ObjectName) : DigestIndex := index.filter fun _ row => row.name ∉ names

end DigestIndex

/-! ## The importer -/

/-- `version https://git-lfs.github.com/spec/` -/
def LFS_MAGIC : Bytes := ascii (lit "version https://git-lfs.github.com/spec/")

def MODE_DIRECTORY : PyStr := lit "40000"

def MODE_SUBMODULE : PyStr := lit "160000"

def MODE_SYMLINK : PyStr := lit "120000"

/-- Why a path could not be converted faithfully. -/
inductive Unsupported
  | lfs_pointer
  | submodule
deriving DecidableEq

structure UnsupportedPath where
  path : PyStr
  reason : Unsupported
  detail : PyStr
deriving DecidableEq

structure ImportReport where
  head : Option ObjectName
  commits : Nat
  trees : Nat
  blobs : Nat
  reused : Nat
  git_bytes : Nat
  stats : IngestStats
  unsupported : List UnsupportedPath

def ImportReport.empty : ImportReport := ⟨none, 0, 0, 0, 0, 0, .none, []⟩

structure ImportState where
  world : World
  digests : DigestIndex

abbrev Importing := Failing ImportState PyError

/-- What the ledger does by itself. -/
def Importing.ledger {α : Type} (corpus : Corpus) (act : Act α) : Importing α :=
  Failing.ofStep fun state =>
    let (outcome, world) := runs corpus act state.world
    (outcome, { state with world })

def Importing.digests (change : DigestIndex → Except PyError DigestIndex) : Importing Unit :=
  Failing.ofStep fun state =>
    match change state.digests with
    | .ok digests => (.ok (), { state with digests })
    | .error error => (.error error, state)

def blob_entry (item : TreeItem) (encoded : Bytes) (name : ObjectName) (size : Nat) : TreeEntry :=
  if item.mode = MODE_SYMLINK then ⟨encoded, .symlink, name, 0, size⟩
  else ⟨encoded, .blob, name, if (lit "755").isSuffixOf item.mode then MODE_EXEC else MODE_REGULAR, size⟩

/-- The ledger is that of the ingester. -/
structure GitImporter where
  ingester : Ingester
  skip_unsupported : Bool

namespace GitImporter

variable (git : Git) (importer : GitImporter) (repository : GitRepository)

def ledger {α : Type} (act : Act α) : Importing α := .ledger importer.ingester.corpus act

def lookup (sha : PyStr) : Importing (Option DigestRow) := Failing.ofStep fun state => (.ok (state.digests.lookup sha), state)

/-- The row, where its object is in the store. -/
def confirmed (sha : PyStr) : Importing (Option DigestRow) := do
  match ← lookup sha with
  | none => return none
  | some hit =>
    let absent ← importer.ledger (missing [hit.name])
    return if absent = ∅ then some hit else none

/-- `_recall` -/
def recalled (sha : PyStr) : Importing (Option ObjectName) := do
  let hit ← importer.confirmed sha
  return hit.map DigestRow.name

/-- `_remember` -/
def remember (sha : PyStr) (name : ObjectName) (size : Nat) : Importing Unit := .digests fun index => index.record sha ⟨name, size⟩

/-- `_refuse` -/
def refuse (report : ImportReport) (path : PyStr) (reason : Unsupported) (detail : PyStr) : Except PyError ImportReport :=
  if importer.skip_unsupported then .ok { report with unsupported := report.unsupported ++ [⟨path, reason, detail⟩] }
  else .error (.invalidRequest "cannot import the path faithfully")

/-- `_convert_entry`; `convert_tree` is how it converts a directory. -/
def convert_entry (convert_tree : PyStr → PyStr → ImportReport → Importing (ObjectName × ImportReport)) (item : TreeItem) (path : PyStr)
    (report : ImportReport) : Importing (Option TreeEntry × ImportReport) := do
  if item.mode = MODE_SUBMODULE then
    let refused ← liftExcept (importer.refuse report path .submodule (lit "points at commit " ++ item.sha.take 12))
    return (none, refused)
  else if item.mode = MODE_DIRECTORY then
    let (subtree, report) ← convert_tree item.sha (path ++ lit "/") report
    let encoded ← liftExcept (encode_name item.name)
    return (some ⟨encoded, .tree, subtree, 0, 0⟩, report)
  else
    match ← importer.confirmed item.sha with
    | some known =>
      let encoded ← liftExcept (encode_name item.name)
      return (some (blob_entry item encoded known.name known.size),
        { report with reused := report.reused + 1, git_bytes := report.git_bytes + known.size })
    | none =>
      let content ← liftExcept (repository.read_blob git item.sha)
      if LFS_MAGIC <+: content then
        let refused ← liftExcept (importer.refuse report path .lfs_pointer
          (lit "the file is a pointer; its content lives on an LFS server"))
        return (none, refused)
      else
        let (name, converted) ← importer.ledger (importer.ingester.ingest_bytes content)
        remember item.sha name content.length
        let encoded ← liftExcept (encode_name item.name)
        return (some (blob_entry item encoded name content.length),
          { report with
            blobs := report.blobs + 1
            git_bytes := report.git_bytes + content.length
            stats := report.stats.add converted })

/-- The items that can be converted, in git's order. -/
def convert_items (convert_tree : PyStr → PyStr → ImportReport → Importing (ObjectName × ImportReport)) (items : List TreeItem)
    (start : PyStr) (report : ImportReport) : Importing (List TreeEntry × ImportReport) :=
  items.foldlM (fun (so_far : List TreeEntry × ImportReport) item => do
    let (converted, report) ← importer.convert_entry git repository convert_tree item (start ++ item.name) so_far.2
    return (so_far.1 ++ converted.toList, report)) ([], report)

/-- `_convert_tree`; the first argument is the recursion limit. -/
def convert_tree : (limit : Nat) → (sha start : PyStr) → ImportReport → Importing (ObjectName × ImportReport)
  | 0, _, _, _ => throw (.assertionError "maximum recursion depth exceeded")
  | limit + 1, sha, start, report => do
    match ← importer.recalled sha with
    | some known => return (known, { report with reused := report.reused + 1 })
    | none =>
      let items ← liftExcept (repository.list_tree git sha)
      let (entries, report) ← importer.convert_items git repository (convert_tree limit) items start report
      let entries := entries.mergeSort fun left right => left.name ≤ right.name
      let (name, stats) ← importer.ledger (Storing.build_tree importer.ingester.corpus IngestStats.record importer.ingester.blake3 entries
        importer.ingester.shape_params .none)
      remember sha name 0
      return (name, { report with trees := report.trees + 1, stats := report.stats.add stats })

/-- `sha[:32].ljust(32, "0")` -/
def change_id (sha : PyStr) : ChangeId := ⟨sha.take 32 ++ List.replicate (32 - sha.length) 0x30⟩

/-- `_convert_commit`; the dictionary is a list, latest first. -/
def convert_commit (limit : Nat) (sha : PyStr) (translated : List (PyStr × ObjectName)) (report : ImportReport) :
    Importing (List (PyStr × ObjectName) × ImportReport) := do
  let header ← liftExcept (repository.read_commit git sha)
  let (tree, report) ← importer.convert_tree git repository limit header.tree [] report
  let commit : Commit :=
    { tree, parents := header.parents.filterMap fun parent => translated.lookup parent, change_id := change_id sha, author := header.author,
      committer := header.committer, timestamp_us := header.committed_at_us, message := header.message,
      metadata := [(lit "git.sha", sha)] }
  let outcome ← importer.ledger (put_object importer.ingester.corpus (.commit commit))
  remember sha outcome.name header.message.length
  return ((sha, outcome.name) :: translated,
    { report with
      commits := report.commits + 1
      stats := report.stats.add { IngestStats.of_commit outcome with bytes_on_disk := outcome.stored_size } })

/-- `_publish` -/
def publish (env : EnvId) (ref : RefName) (head : ObjectName) (author : String) : Act Unit := do
  match ← try_get_ref env ref with
  | none => Functor.discard (create_ref env ref head author .permanent none none none none)
  | some current => Functor.discard (update_ref env ref current.generation head author none none none .update_ref)
  let reachable ← commit_closure head
  Functor.discard (GarbageCollector.graduate env reachable)

def import_repository (recursion : Nat) (env : EnvId) (ref : RefName) (source_ref : PyStr) (limit : Option Int) (author : String) :
    Importing ImportReport := do
  let shas ← liftExcept (repository.rev_list source_ref limit)
  match shas.getLast? with
  | none => throw (.invalidRequest "that ref names no commits")
  | some last =>
    let (translated, report) ← shas.foldlM (fun (so_far : List (PyStr × ObjectName) × ImportReport) sha =>
      importer.convert_commit git repository recursion sha so_far.1 so_far.2) ([], .empty)
    match translated.lookup last with
    | none => throw (.assertionError "unreachable")
    | some head =>
      liftExcept (ensure (report.unsupported = [] ∨ importer.skip_unsupported)
        (.assertionError "unsupported paths should have raised already"))
      importer.ledger (publish env ref head author)
      return { report with head := some head }

end GitImporter

end LedgerVcs
