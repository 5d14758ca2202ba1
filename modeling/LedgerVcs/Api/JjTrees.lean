import LedgerVcs.Api.Jj
import LedgerVcs.Fs.Revisions
import LedgerVcs.Lib.Failing
import LedgerVcs.Migrate.Listing
import LedgerVcs.Runtime.Accounting
import LedgerVcs.Runtime.Checkout
import LedgerVcs.Service.Leasing

set_option autoImplicit false

/-! The routes through which jj keeps its files, its links and its trees. -/

namespace LedgerVcs

open Prog (ofExcept)
open Text (PyStr lit)
open Wire (Bytes)

/-! ## Bodies -/

/-- An item of a tree in a request, which may leave out any of its fields. -/
structure TreeItemBody where
  name : Option PyStr
  kind : Option PyStr
  id : Option PyStr
  executable : Bool
deriving DecidableEq

/-- An entry as a tree is answered. -/
structure JjTreeEntry where
  name : PyStr
  kind : PyStr
  id : PyStr
  executable : Bool
deriving DecidableEq

/-- What one request does, also when it fails. -/
abbrev Serving := Failing World PyError

namespace Jj

def TREE : PyStr := lit "tree"

def SYMLINK : PyStr := lit "symlink"

def FILE : PyStr := lit "file"

def SUBMODULE : PyStr := lit "submodule"

def SLASH : Text.CodePoint := 0x2f

/-! ## Trees -/

section Trees

variable {blake3 : Blake3} (store : Objects blake3)

/-- `_tree_entry` -/
def tree_entry (item : Option TreeItemBody) : Except PyError TreeEntry := do
  match item with
  | none => throw (.invalidRequest "each tree entry must be an object")
  | some item =>
    let name := item.name.getD []
    let kind := item.kind.getD []
    let target ← parse_name (item.id.getD [])
    ensure (name ≠ [] ∧ SLASH ∉ name) (.invalidRequest "a tree entry name must be one path component")
    if kind = TREE then
      let name ← encode_name name
      return ⟨name, .tree, target, 0, 0⟩
    else if kind = SYMLINK then
      -- jj's entries carry no size
      let reader ← BlobReader.init store target
      let name ← encode_name name
      return ⟨name, .symlink, target, 0, reader.size⟩
    else if kind = FILE then
      let reader ← BlobReader.init store target
      let name ← encode_name name
      return ⟨name, .blob, target, if item.executable then MODE_EXEC else MODE_REGULAR, reader.size⟩
    else if kind = SUBMODULE then
      throw (.invalidRequest ("Ledger versions content, and a git submodule is a pointer to content held elsewhere; " ++
        "import it as real content instead"))
    else throw (.invalidRequest "unknown tree entry kind")

/-- `_reject_duplicates` -/
def reject_duplicates : List TreeEntry → Except PyError Unit
  | previous :: current :: entries => do
    ensure (previous.name ≠ current.name) (.invalidRequest "a tree cannot hold two entries with the same name")
    reject_duplicates (current :: entries)
  | _ => return ()

/-- `replaced` is what `decode(errors="replace")` makes of bytes that are no text. -/
def shown_entry (replaced : Bytes → PyStr) (entry : TreeEntry) : JjTreeEntry where
  name := (Text.decodeUtf8 entry.name).getD (replaced entry.name)
  kind :=
    match entry.kind with
    | .tree => TREE
    | .symlink => SYMLINK
    | _ => FILE
  id := entry.target.hex
  executable :=
    match entry.kind with
    | .tree | .symlink => false
    | _ => entry.mode = MODE_EXEC

end Trees

/-! ## The routes -/

section Routes

variable (ingester : Ingester) (spelled : ingester.corpus.Spelled ingester.blake3) (replaced : Bytes → PyStr)

def acting {α : Type} (act : Act α) : Serving α := Failing.ofStep (runs ingester.corpus act)

/-- What the store answers to a request's reads. -/
def store : Serving (Objects ingester.blake3) := Failing.ofStep fun world => (.ok (world.objects spelled), world)

/-- The names of what is put, one after the other. -/
def build_tree (entries : List TreeEntry) : Act (ObjectName × List ObjectName) :=
  Storing.build_tree ingester.corpus (fun written (outcome : PutOutcome) => written ++ [outcome.name]) ingester.blake3 entries
    ingester.shape_params []

def visible_name (auth : Authorized) (id : PyStr) : Serving ObjectName := do
  let name ← liftExcept (parse_name id)
  acting ingester (visible auth name)

variable (capability : Capability) (path : String)

def write_file (body : Bytes) : Serving PyStr := do
  let auth ← acting ingester (require_env capability path .WRITE)
  let (name, _) ← acting ingester (ingester.ingest_bytes body)
  acting ingester (retain auth [name])
  return name.hex

/-- The recursion limit is the first argument. -/
def read_blob (depth : Nat) (id : PyStr) : Serving Bytes := do
  let auth ← acting ingester (require_env capability path .READ)
  let name ← visible_name ingester auth id
  let store ← store ingester spelled
  let reader ← liftExcept (BlobReader.init store name)
  liftExcept (reader.read_all store depth)

def read_file (depth : Nat) (file_id : PyStr) : Serving Bytes := read_blob ingester spelled capability path depth file_id

def write_symlink (target : Option PyStr) : Serving PyStr := do
  let auth ← acting ingester (require_env capability path .WRITE)
  match target with
  | none => throw (.invalidRequest "a symlink needs a 'target' string")
  | some target =>
    let target ← liftExcept (encode_name target)
    let (name, _) ← acting ingester (ingester.ingest_bytes target)
    acting ingester (retain auth [name])
    return name.hex

def read_symlink (depth : Nat) (symlink_id : PyStr) : Serving PyStr := do
  let payload ← read_blob ingester spelled capability path depth symlink_id
  match Text.decodeUtf8 payload with
  | some target => return target
  | none => throw (.valueError "'utf-8' codec can't decode bytes")

/-- It is the readers who ask for it. -/
def empty_tree : Serving PyStr := do
  let auth ← acting ingester (require_env capability path .READ)
  let (name, _) ← acting ingester (build_tree ingester [])
  acting ingester (retain auth [name])
  return name.hex

def write_tree (entries : Option (List (Option TreeItemBody))) : Serving PyStr := do
  let auth ← acting ingester (require_env capability path .WRITE)
  match entries with
  | none => throw (.invalidRequest "a tree needs an 'entries' array")
  | some raw =>
    let store ← store ingester spelled
    let entries ← liftExcept (raw.mapM (tree_entry store))
    let entries := entries.insertionSort fun left right => left.name ≤ right.name
    liftExcept (reject_duplicates entries)
    let (name, written) ← acting ingester (build_tree ingester entries)
    acting ingester (retain auth written)
    return name.hex

def read_tree (depth : Nat) (tree_id : PyStr) : Serving (List JjTreeEntry) := do
  let auth ← acting ingester (require_env capability path .READ)
  let name ← visible_name ingester auth tree_id
  let store ← store ingester spelled
  let _ ← liftExcept (store.get_tree name)
  let entries ← liftExcept (iter_entries store depth name none).collect
  return entries.map (shown_entry replaced)

end Routes

/-! ## Requests, one after the other -/

inductive Request
  | write_file (body : Bytes)
  | read_file (file_id : PyStr)
  | write_symlink (target : Option PyStr)
  | read_symlink (symlink_id : PyStr)
  | empty_tree
  | write_tree (entries : Option (List (Option TreeItemBody)))
  | read_tree (tree_id : PyStr)
  | write_commit (drawn : ChangeId) (body : CommitBody)
  | read_commit (commit_id : PyStr)

inductive Answer
  | id (hex : PyStr)
  | content (body : Bytes)
  | target (text : PyStr)
  | entries (listed : List JjTreeEntry)
  | written (commit : WrittenCommit)
  | commit (body : JjCommit)
deriving DecidableEq

/-- Who asks, and of which environment. -/
structure Asked where
  capability : Capability
  path : String
  request : Request

section Serve

variable (ingester : Ingester) (spelled : ingester.corpus.Spelled ingester.blake3) (replaced : Bytes → PyStr) (depth : Nat)

def serve (asked : Asked) : Serving Answer :=
  match asked.request with
  | .write_file body => Answer.id <$> write_file ingester asked.capability asked.path body
  | .read_file id => Answer.content <$> read_file ingester spelled asked.capability asked.path depth id
  | .write_symlink target => Answer.id <$> write_symlink ingester asked.capability asked.path target
  | .read_symlink id => Answer.target <$> read_symlink ingester spelled asked.capability asked.path depth id
  | .empty_tree => Answer.id <$> empty_tree ingester asked.capability asked.path
  | .write_tree entries => Answer.id <$> write_tree ingester spelled asked.capability asked.path entries
  | .read_tree id => Answer.entries <$> read_tree ingester spelled replaced asked.capability asked.path depth id
  | .write_commit drawn body =>
    Answer.written <$> acting ingester (write_commit ingester.corpus drawn asked.capability asked.path body)
  | .read_commit id => Answer.commit <$> acting ingester (read_commit asked.capability asked.path id)

/-- The state that the requests leave, whatever each of them is answered. -/
def serve_all (asked : List Asked) (world : World) : World :=
  asked.foldl (fun world asked => ((serve ingester spelled replaced depth asked).exec world).2) world

end Serve

end Jj

/-! ## Nothing is taken away -/

/-- Objects and kept names are only added, and the registry stays as it is. -/
structure World.Keeps (before after : World) : Prop where
  stored : before.backend ⊆ after.backend
  keepset : before.keepset ⊆ after.keepset
  names : after.names = before.names
  partitions : after.partitions = before.partitions

section Keeps

variable {corpus : Corpus} {blake3 : Blake3} {first second third world : World}

theorem World.Keeps.refl (world : World) : world.Keeps world :=
  ⟨Finset.Subset.refl _, Finset.Subset.refl _, rfl, rfl⟩

theorem World.Keeps.trans (early : first.Keeps second) (late : second.Keeps third) : first.Keeps third :=
  ⟨early.stored.trans late.stored, early.keepset.trans late.keepset, late.names.trans early.names,
    late.partitions.trans early.partitions⟩

theorem World.Keeps.within (spelled : corpus.Spelled blake3) (keeps : first.Keeps second) :
    (first.objects spelled).Within (second.objects spelled) := by
  intro name object read
  obtain ⟨stored, content⟩ := World.objects_stored.mp read
  exact World.objects_stored.mpr ⟨keeps.stored stored, content⟩

theorem put_keeps (name : ObjectName) : world.Keeps (world.put corpus name).2 := by
  rw [World.put]
  split
  next => exact ⟨Finset.Subset.refl _, Finset.Subset.refl _, rfl, rfl⟩
  next => exact ⟨Finset.subset_insert _ _, Finset.Subset.refl _, rfl, rfl⟩

theorem puts_keep (names : List ObjectName) : world.Keeps (world.puts corpus names) := by
  induction names generalizing world with
  | nil => exact .refl world
  | cons name names ih => exact (put_keeps name).trans ih

end Keeps

/-! ### By what the services do -/

/-- Whether it returns or fails, the code takes nothing away. -/
def Adds {α : Type} (corpus : Corpus) (act : Act α) : Prop := ∀ world : World, world.Keeps (runs corpus act world).2

/-- So does code with a tally. -/
def Storing.Adds {σ α : Type} (corpus : Corpus) (act : Storing σ α) : Prop := ∀ so_far, LedgerVcs.Adds corpus (act so_far)

section Acts

variable {corpus : Corpus} {blake3 : Blake3} {ingester : Ingester} {α β σ : Type}

theorem Adds.bind {act : Act α} {rest : α → Act β} (first : Adds corpus act) (others : ∀ value, Adds corpus (rest value)) :
    Adds corpus (act >>= rest) := by
  intro world
  have early := first world
  rw [runs, Prog.run_bind]
  rw [runs] at early
  rcases ran : Prog.run (exec corpus) act world with ⟨error | value, after⟩
  next => rw [ran] at early; exact early
  next => rw [ran] at early; exact early.trans (others value after)

theorem Adds.reads {act : Act α} (reads : ∀ world, (runs corpus act world).2 = world) : Adds corpus act := by
  intro world
  rw [reads]
  exact .refl world

theorem Adds.ofExcept (outcome : Except PyError α) : Adds corpus (ofExcept outcome) := by
  refine .reads fun world => ?_
  rw [runs, Prog.run_ofExcept]

theorem put_object_adds (object : LedgerObject) : Adds corpus (put_object corpus object) := by
  refine .bind (.ofExcept _) fun name world => ?_
  rw [runs_put]
  exact put_keeps name

theorem retain_runs (auth : Authorized) (names : List ObjectName) (world : World) :
    ∃ after, runs corpus (Jj.retain auth names) world = (.ok (), after) ∧ world.Keeps after ∧ after.backend = world.backend ∧
      ∀ name ∈ names, (auth.env_id, name) ∈ after.keepset := by
  obtain ⟨count, after, ran, beside, kept, grown⟩ := @runs_graduate corpus auth.env_id names world
  refine ⟨after, Prog.run_bind_ok _ ran, ?_, ?_, kept⟩
  next =>
    rw [beside]
    exact ⟨Finset.Subset.refl _, grown, rfl, rfl⟩
  next => rw [beside]

theorem retain_adds (auth : Authorized) (names : List ObjectName) : Adds corpus (Jj.retain auth names) := by
  intro world
  obtain ⟨after, ran, keeps, -⟩ := @retain_runs corpus auth names world
  rw [ran]
  exact keeps

namespace Storing

variable {tally : σ → PutOutcome → σ}

theorem adds_bind {act : Storing σ α} {rest : α → Storing σ β} (first : Adds corpus act) (others : ∀ value, Adds corpus (rest value)) :
    Adds corpus (act >>= rest) := fun so_far =>
  show LedgerVcs.Adds corpus (act so_far >>= fun pair => rest pair.1 pair.2) from (first so_far).bind fun pair => others pair.1 pair.2

theorem adds_pure (value : α) : Adds corpus (pure value : Storing σ α) := fun _ world => .refl world

theorem adds_lift {act : Act α} (adds : LedgerVcs.Adds corpus act) : Adds corpus (act : Storing σ α) := fun so_far =>
  show LedgerVcs.Adds corpus (act >>= fun value => pure (value, so_far)) from adds.bind fun _ world => .refl world

theorem adds_put (object : LedgerObject) : Adds corpus (put corpus tally object) :=
  adds_bind (adds_lift (put_object_adds object)) fun _ => adds_bind (fun _ world => .refl world) fun _ => adds_pure _

theorem build_tree_nodes_adds (level : Nat) (current : List TreeEntry) (start : Nat) (ends : List Nat) :
    Adds corpus (build_tree_nodes corpus tally level current start ends) := by
  induction ends generalizing start with
  | nil => exact adds_pure []
  | cons stop ends ih => exact adds_bind (adds_put _) fun _ => adds_bind (ih stop) fun _ => adds_pure _

theorem build_tree_levels_adds (params : ShapeParams) (rounds level : Nat) (current : List TreeEntry) :
    Adds corpus (build_tree_levels corpus tally blake3 params rounds level current) := by
  induction rounds generalizing level current with
  | zero => exact adds_lift (.ofExcept _)
  | succ rounds ih =>
    refine adds_bind (adds_lift (.ofExcept _)) fun ends => adds_bind (build_tree_nodes_adds level current 0 ends) fun nodes => ?_
    rcases nodes with _ | ⟨node, _ | _⟩
    next => exact ih _ _
    next => exact adds_pure _
    next => exact ih _ _

theorem build_tree_adds (entries : List TreeEntry) (params : ShapeParams) :
    Adds corpus (build_tree corpus tally blake3 entries params) := by
  rw [build_tree]
  split
  next => exact adds_put _
  next => exact adds_bind (adds_lift (.ofExcept _)) fun _ => build_tree_levels_adds params _ _ _

end Storing

theorem ingest_bytes_adds (data : Bytes) : Adds ingester.corpus (ingester.ingest_bytes data) := by
  intro world
  rw [Ingester.ingest_bytes]
  obtain ⟨names, ⟨error, ran⟩ | ⟨value, ran⟩⟩ := @write_bytes_bills ingester data
  next =>
    rw [ran]
    exact puts_keep names
  next =>
    obtain ⟨counted, ran, -⟩ := ran .none world
    rw [ran]
    exact puts_keep names

theorem require_env_adds (capability : Capability) (path : String) (operation : Operation) :
    Adds corpus (require_env capability path operation) := .reads fun _ => Jj.require_env_reads

theorem visible_adds (auth : Authorized) (name : ObjectName) : Adds corpus (Jj.visible auth name) := by
  refine .bind (.reads fun _ => rfl) fun held => ?_
  split <;> exact .reads fun _ => rfl

theorem get_object_adds (name : ObjectName) : Adds corpus (get_object name) := .bind (.reads fun _ => rfl) fun _ => .ofExcept _

end Acts

/-! ### By the requests -/

namespace Jj

section Requests

variable {ingester : Ingester} {spelled : ingester.corpus.Spelled ingester.blake3} {replaced : Bytes → PyStr} {depth : Nat}
  {capability : Capability} {path : String} {α β : Type}

/-- Whether it is answered or fails, the request takes nothing away. -/
def Keeping (act : Serving α) : Prop := ∀ start : World, Failing.Triple start.Keeps act (fun _ after => start.Keeps after) start.Keeps

theorem Keeping.bind {act : Serving α} {rest : α → Serving β} (first : Keeping act) (others : ∀ value, Keeping (rest value)) :
    Keeping (act >>= rest) := fun start => Failing.triple_bind (first start) fun value => others value start

theorem Keeping.map {act : Serving α} (f : α → β) (keeping : Keeping act) : Keeping (f <$> act) := by
  rw [← bind_pure_comp]
  exact keeping.bind fun _ _ => Failing.triple_pure fun _ keeps => keeps

theorem keeping_except (outcome : Except PyError α) : Keeping (liftExcept outcome : Serving α) := fun _ =>
  Failing.triple_mono (Failing.triple_except fun _ keeps => keeps) (fun _ keeps => keeps) (fun _ _ met => met.1) fun _ keeps => keeps

theorem keeping_acting {act : Act α} (adds : Adds ingester.corpus act) : Keeping (acting ingester act) := by
  intro start state keeps
  have later := keeps.trans (adds state)
  rw [acting, Failing.exec_ofStep]
  rcases ran : runs ingester.corpus act state with ⟨error | value, after⟩ <;>
    rw [ran] at later <;> exact later

theorem keeping_store : Keeping (store ingester spelled) := fun _ => Failing.triple_step fun _ keeps => keeps

theorem keeping_visible (auth : Authorized) (id : PyStr) : Keeping (visible_name ingester auth id) :=
  (keeping_except _).bind fun name => keeping_acting (visible_adds auth name)

theorem keeping_gate (operation : Operation) : Keeping (acting ingester (require_env capability path operation)) :=
  keeping_acting (require_env_adds capability path operation)

theorem keeping_retain (auth : Authorized) (names : List ObjectName) : Keeping (acting ingester (retain auth names)) :=
  keeping_acting (retain_adds auth names)

theorem keeping_pure (value : α) : Keeping (pure value) := fun _ => Failing.triple_pure fun _ keeps => keeps

theorem keeping_throw (error : PyError) : Keeping (throw error : Serving α) := fun _ => Failing.triple_throw fun _ keeps => keeps

theorem keeping_build (entries : List TreeEntry) : Keeping (acting ingester (build_tree ingester entries)) :=
  keeping_acting (Storing.build_tree_adds entries ingester.shape_params [])

theorem keeping_read_blob (id : PyStr) : Keeping (read_blob ingester spelled capability path depth id) :=
  (keeping_gate _).bind fun auth => (keeping_visible auth id).bind fun _ => keeping_store.bind fun _ =>
    (keeping_except _).bind fun _ => keeping_except _

theorem serve_keeps (asked : Asked) : Keeping (serve ingester spelled replaced depth asked) := by
  obtain ⟨capability, path, request⟩ := asked
  cases request with
  | write_file body =>
    exact .map _ ((keeping_gate _).bind fun auth => (keeping_acting (ingest_bytes_adds body)).bind fun named =>
      (keeping_retain auth _).bind fun _ => keeping_pure _)
  | read_file id => exact .map _ (keeping_read_blob id)
  | write_symlink target =>
    refine .map _ ((keeping_gate _).bind fun auth => ?_)
    cases target with
    | none => exact keeping_throw _
    | some target =>
      exact (keeping_except _).bind fun payload => (keeping_acting (ingest_bytes_adds payload)).bind fun named =>
        (keeping_retain auth _).bind fun _ => keeping_pure _
  | read_symlink id =>
    refine .map _ ((keeping_read_blob id).bind fun payload => ?_)
    cases Text.decodeUtf8 payload with
    | none => exact keeping_throw _
    | some target => exact keeping_pure target
  | empty_tree =>
    exact .map _ ((keeping_gate _).bind fun auth => (keeping_build []).bind fun built =>
      (keeping_retain auth _).bind fun _ => keeping_pure _)
  | write_tree entries =>
    refine .map _ ((keeping_gate _).bind fun auth => ?_)
    cases entries with
    | none => exact keeping_throw _
    | some raw =>
      exact keeping_store.bind fun _ => (keeping_except _).bind fun entries => (keeping_except _).bind fun _ =>
        (keeping_build _).bind fun built => (keeping_retain auth _).bind fun _ => keeping_pure _
  | read_tree id =>
    exact .map _ ((keeping_gate _).bind fun auth => (keeping_visible auth id).bind fun _ => keeping_store.bind fun _ =>
      (keeping_except _).bind fun _ => (keeping_except _).bind fun _ => keeping_pure _)
  | write_commit drawn body =>
    refine .map _ (keeping_acting ((require_env_adds _ _ _).bind fun auth => (Adds.ofExcept _).bind fun commit => ?_))
    exact (put_object_adds _).bind fun outcome => (retain_adds auth _).bind fun _ => (Adds.ofExcept _).bind fun _ =>
      .reads fun _ => rfl
  | read_commit id =>
    refine .map _ (keeping_acting ((require_env_adds _ _ _).bind fun auth => (Adds.ofExcept _).bind fun name => ?_))
    refine (visible_adds auth name).bind fun name => .bind (.bind (get_object_adds name) fun object => ?_) fun _ => .ofExcept _
    cases object <;> exact .reads fun _ => rfl

/-- Requests only add. -/
theorem serve_all_keeps (asked : List Asked) (world : World) : world.Keeps (serve_all ingester spelled replaced depth asked world) := by
  induction asked generalizing world with
  | nil => exact .refl world
  | cons first asked ih =>
    have one : world.Keeps ((serve ingester spelled replaced depth first).exec world).2 := by
      have met := @serve_keeps ingester spelled replaced depth first world world (.refl world)
      rcases ran : (serve ingester spelled replaced depth first).exec world with ⟨error | answer, after⟩ <;>
        rw [ran] at met <;> exact met
    exact one.trans (ih _)

end Requests

end Jj

end LedgerVcs
