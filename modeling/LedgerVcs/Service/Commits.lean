import LedgerVcs.Maintenance.Gc

set_option autoImplicit false

namespace LedgerVcs

open Prog (ofExcept)
open Text (PyStr)

/-! ## What a write moved -/

structure IngestStats where
  files : Nat
  directories : Nat
  symlinks : Nat
  chunks : Nat
  objects_offered : Nat
  objects_created : Nat
  bytes_offered : Nat
  bytes_stored : Nat
  bytes_on_disk : Nat
deriving DecidableEq

namespace IngestStats

def none : IngestStats := ⟨0, 0, 0, 0, 0, 0, 0, 0, 0⟩

def add (left right : IngestStats) : IngestStats where
  files := left.files + right.files
  directories := left.directories + right.directories
  symlinks := left.symlinks + right.symlinks
  chunks := left.chunks + right.chunks
  objects_offered := left.objects_offered + right.objects_offered
  objects_created := left.objects_created + right.objects_created
  bytes_offered := left.bytes_offered + right.bytes_offered
  bytes_stored := left.bytes_stored + right.bytes_stored
  bytes_on_disk := left.bytes_on_disk + right.bytes_on_disk

/-- What a commit object adds to the bill. -/
def of_commit (outcome : PutOutcome) : IngestStats :=
  { none with
    objects_offered := 1
    objects_created := if outcome.created then 1 else 0
    bytes_offered := outcome.size
    bytes_stored := if outcome.created then outcome.size else 0 }

/-- Tallies writes made outside a directory walk. -/
def counting (outcomes : List PutOutcome) : IngestStats :=
  outcomes.foldl (fun total outcome => { total.add (of_commit outcome) with
    bytes_on_disk := total.bytes_on_disk + outcome.stored_size }) none

end IngestStats

/-! ## Committing -/

structure CommitResult where
  commit : ObjectName
  ref : RefName
  generation : Int
  stats : IngestStats
  op_sequence : Nat
  replayed : Bool
deriving DecidableEq

/-- Produces the tree to publish, given the ref's current record. -/
abbrev TreeBuilder := Option Ref → Act (ObjectName × IngestStats)

/-- The arguments of `publish`. `change_id` is the one the caller gave or else the one drawn, and
`drawn_session` is the id `SessionId.new` returns. -/
structure Publication where
  env : EnvId
  ref : RefName
  author : String
  message : PyStr
  change_id : ChangeId
  idempotency_key : Option String
  metadata : List (PyStr × PyStr)
  drawn_session : SessionId
deriving DecidableEq

/-- Python's order of pairs of texts. -/
def pair_le (left right : PyStr × PyStr) : Bool :=
  (compareLex (compareOn Prod.fst) (compareOn Prod.snd) left right).isLE

namespace Publication

def commit_object (publication : Publication) (current : Option Ref) (tree : ObjectName) (timestamp_us : Int) :
    Commit where
  tree := tree
  parents := (current.map Ref.target).toList
  change_id := publication.change_id
  author := Text.lit publication.author
  committer := Text.lit publication.author
  timestamp_us := timestamp_us
  message := publication.message
  metadata := publication.metadata.mergeSort pair_le

def recorded (publication : Publication) (request : Request) : Act (Option IdempotencyRecord) :=
  match publication.idempotency_key with
  | some key => recorded_outcome publication.env key request
  | none => return none

/-- The ref's move to the commit: its creation, or a swap against what `publish` read. -/
def move (publication : Publication) (request : Request) (target : ObjectName) : Option Ref → Act RefUpdate
  | none =>
    create_ref publication.env publication.ref target publication.author .permanent none publication.change_id
      publication.idempotency_key request
  | some current =>
    update_ref publication.env publication.ref current.generation target publication.author
      publication.change_id publication.idempotency_key request .update_ref

/-- From the commit object on: record, move, graduate. -/
def finish (corpus : Corpus) (publication : Publication) (session : SessionId) (current : Option Ref)
    (request : Request) (tree : ObjectName) (stats : IngestStats) : Act CommitResult := do
  let timestamp_us ← issue .now_us
  let outcome ← put_object corpus (.commit (publication.commit_object current tree timestamp_us))
  let below ← tree_closure tree
  let _ ← record_uploaded publication.env session (outcome.name :: below)
  let update ← publication.move request outcome.name current
  let kept ← tree_closure tree
  let _ ← GarbageCollector.graduate publication.env (outcome.name :: kept)
  return ⟨update.ref.target, publication.ref, update.ref.generation, stats.add (.of_commit outcome),
    update.op_sequence, update.replayed⟩

/-- What runs inside the session. -/
def body (corpus : Corpus) (publication : Publication) (build : TreeBuilder) (current : Option Ref)
    (session : SessionId) : Act CommitResult := do
  let (tree, stats) ← build current
  let request := Request.commit publication.ref tree
  match ← publication.recorded request with
  | some recorded =>
    let published ← get_ref publication.env publication.ref
    return ⟨published.target, publication.ref, published.generation, stats, recorded.op_sequence, true⟩
  | none => publication.finish corpus session current request tree stats

end Publication

def publish (corpus : Corpus) (publication : Publication) (build : TreeBuilder) : Act CommitResult := do
  let current ← try_get_ref publication.env publication.ref
  let session ← begin_write publication.env publication.drawn_session publication.author WRITE_LEASE_TTL_US
  (publication.body corpus build current session.session_id).ensuring
    (end_session publication.env session.session_id)

/-- A builder that writes the objects it is given, each as it comes, and returns the tree they make up. -/
def writing (corpus : Corpus) (objects : List LedgerObject) (tree : ObjectName) :
    Act (ObjectName × IngestStats) := do
  let outcomes ← objects.mapM (put_object corpus)
  return (tree, .counting outcomes)

/-! ## Reading history and going back -/

/-- First-parent history from a commit, at most `limit` commits of it. -/
def walk_from (limit : Nat) (seen : Finset ObjectName) (next : Option ObjectName) :
    Act (List (ObjectName × Commit)) :=
  match limit, next with
  | 0, _ => return []
  | _, none => return []
  | limit + 1, some name =>
    if name ∈ seen then return []
    else do
      let commit ← get_commit name
      let older ← walk_from limit (insert name seen) commit.parents.head?
      return (name, commit) :: older

def log_walk (start : ObjectName) (limit : Nat) : Act (List (ObjectName × Commit)) :=
  walk_from limit ∅ (some start)

def revert (env : EnvId) (ref : RefName) (target : ObjectName) (author : String)
    (idempotency_key : Option String) : Act CommitResult := do
  let current ← get_ref env ref
  let _ ← get_commit target
  let update ← update_ref env ref current.generation target author none idempotency_key none .update_ref
  return ⟨target, ref, update.ref.generation, .none, update.op_sequence, false⟩

end LedgerVcs
