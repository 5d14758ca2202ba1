import LedgerVcs.Fs.BuiltFile
import LedgerVcs.Fs.Edit
import LedgerVcs.Runtime.Ingest

set_option autoImplicit false

/-! Turning a tree back into files on a disk. -/

namespace LedgerVcs

open Wire (Bytes)

/-- What a checkout fails with: an exception that the code or its reads raise, or an `OSError`. -/
inductive CheckoutError
  | raised (error : PyError)
  | os_error (message : String)
deriving DecidableEq

def raising {α : Type} (result : Except PyError α) : Except CheckoutError α := result.mapError .raised

structure MaterializeStats where
  files : Nat
  directories : Nat
  symlinks : Nat
  bytes_written : Nat
  objects_fetched : Nat
deriving DecidableEq

def MaterializeStats.merge (left right : MaterializeStats) : MaterializeStats where
  files := left.files + right.files
  directories := left.directories + right.directories
  symlinks := left.symlinks + right.symlinks
  bytes_written := left.bytes_written + right.bytes_written
  objects_fetched := left.objects_fetched + right.objects_fetched

/-- What a directory on a disk has. -/
abbrev Listing := List (Bytes × Node)

/-- What there is under the name becomes this. -/
def put_child (name : Bytes) (node : Node) : Listing → Listing
  | [] => [(name, node)]
  | child :: children => if child.1 = name then (name, node) :: children else child :: put_child name node children

/-- `mkdir(parents=True, exist_ok=True)`, and what the directory has then. A link in the way is not followed. -/
def make_directory : (there : Option Node) → Except CheckoutError Listing
  | none => return []
  | some (.directory children) => return children
  | some _ => throw (.os_error "File exists")

section Materializing

variable {blake3 : Blake3} (store : Objects blake3)

def BlobReader.read_all (depth : Nat) (reader : BlobReader) : Except PyError Bytes := reader.read store depth 0 none

namespace Materializer

/-- The file with its mode, how many bytes it has, and how many objects were fetched. -/
def write_file (depth : Nat) (blob : ObjectName) (there : Option Node) (mode : Int) :
    Except CheckoutError (Node × Nat × Nat) := do
  let reader ← raising (BlobReader.init store blob)
  if there.isSome then throw (.os_error "File exists")
  else do
    let parts ← raising (reader.stream store depth 0 none)
    let parts ← raising parts.collect
    return (.file parts.flatten (mode = MODE_EXEC), (parts.map List.length).sum, 1 + parts.length)

def write_symlink (depth : Nat) (blob : ObjectName) (there : Option Node) : Except CheckoutError Node := do
  let reader ← raising (BlobReader.init store blob)
  let link_target ← raising (reader.read_all store depth)
  raising (ensure (Text.decodeUtf8 link_target ≠ none) (.valueError "'utf-8' codec can't decode bytes"))
  raising (ensure (0 ∉ link_target) (.valueError "embedded null byte"))
  if link_target = [] then throw (.os_error "No such file or directory")
  else if there.isSome then throw (.os_error "File exists")
  else return .symlink link_target

/-- A round of the loop of `_write_tree`, in a directory that has what it has so far. -/
def write_entry (depth : Nat) (write_tree : ObjectName → (there : Option Node) → Except CheckoutError (Listing × MaterializeStats))
    (so_far : Listing × MaterializeStats) (entry : TreeEntry) : Except CheckoutError (Listing × MaterializeStats) := do
  let (directory, stats) := so_far
  raising (ensure (Text.decodeUtf8 entry.name ≠ none) (.valueError "'utf-8' codec can't decode bytes"))
  raising (ensure (SEPARATOR ∉ entry.name ∧ entry.name ∉ RESERVED_NAMES ∧ 0 ∉ entry.name)
    (.invalidRequest "refusing to materialize unsafe entry name"))
  let there := directory.lookup entry.name
  match entry.kind with
  | .tree => do
    let (children, inside) ← write_tree entry.target there
    return (put_child entry.name (.directory children) directory, stats.merge inside)
  | .symlink => do
    let link ← write_symlink store depth entry.target there
    return (put_child entry.name link directory,
      { stats with symlinks := stats.symlinks + 1, objects_fetched := stats.objects_fetched + 1 })
  | .blob => do
    let (file, written, fetched) ← write_file store depth entry.target there entry.mode
    return (put_child entry.name file directory,
      { stats with
        files := stats.files + 1
        bytes_written := stats.bytes_written + written
        objects_fetched := stats.objects_fetched + fetched })
  | .conflict => throw (.raised (.invalidRequest "a conflicted entry cannot be materialized"))

/-- What the directory has when all is written. Trees are finite, so with depth enough none is too deep. -/
def write_tree : (depth : Nat) → (tree : ObjectName) → (there : Option Node) → Except CheckoutError (Listing × MaterializeStats)
  | 0, _, _ => throw (.raised too_deep)
  | depth + 1, tree, there => do
    let made ← make_directory there
    let listing := iter_entries store depth tree none
    let written ← listing.yielded.foldlM (write_entry store depth (write_tree depth)) (made, ⟨0, 1, 0, 0, 1⟩)
    -- what the generator raises comes after what it has yielded
    match listing.raised with
    | some error => throw (.raised error)
    | none => return written

end Materializer

end Materializing

/-! ## Publishing -/

/-- `b".old"` -/
def DISPLACED : Bytes := [0x2e, 0x6f, 0x6c, 0x64]

/-- Whether `rename` puts the one in the place of the other. -/
def Node.replaces : (source target : Node) → Bool
  | .directory _, .directory children => children.isEmpty
  | .directory _, _ => false
  | _, .directory _ => false
  | _, _ => true

/-- `os.replace`, of two names -/
def os_replace (source target : Bytes) (siblings : Listing) : Except CheckoutError Listing :=
  match siblings.lookup source with
  | none => throw (.os_error "No such file or directory")
  | some node =>
    if (siblings.lookup target).all node.replaces then
      return (siblings.filter fun sibling => sibling.1 ≠ target).map fun sibling => if sibling.1 = source then (target, sibling.2) else sibling
    else throw (.os_error "Not a directory, or a directory that is not empty")

/-- `shutil.rmtree`, which ignores errors and so leaves what is no directory -/
def rmtree (name : Bytes) (siblings : Listing) : Listing :=
  siblings.filter fun sibling => match sibling.2 with
    | .directory _ => sibling.1 ≠ name
    | _ => true

namespace Materializer

/-- Whether there is something under the name, links followed to where they lead. -/
def path_exists (leads : (link_target : Bytes) → Bool) (name : Bytes) (siblings : Listing) : Bool :=
  match siblings.lookup name with
  | none => false
  | some (.symlink link_target) => leads link_target
  | some _ => true

/-- From the staging directory to the destination. What there was is moved aside, and removed when the new one is there. -/
def publish (leads : (link_target : Bytes) → Bool) (staging destination : Bytes) (siblings : Listing) : Except CheckoutError Unit × Listing :=
  if path_exists leads destination siblings then
    let displaced := staging ++ DISPLACED
    match os_replace destination displaced siblings with
    | .error error => (.error error, siblings)
    | .ok moved =>
      match os_replace staging destination moved with
      | .error error => (.error error, moved)
      | .ok published => (.ok (), rmtree displaced published)
  else
    match os_replace staging destination siblings with
    | .error error => (.error error, siblings)
    | .ok published => (.ok (), published)

end Materializer

end LedgerVcs
