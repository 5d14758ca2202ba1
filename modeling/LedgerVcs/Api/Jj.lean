import LedgerVcs.Api.Routes
import LedgerVcs.Lib.Numeral
import LedgerVcs.Meta.Alone
import LedgerVcs.Store.Effects

set_option autoImplicit false

/-! The routes through which jj keeps its commits. -/

namespace LedgerVcs

open Prog (ofExcept)
open Text (PyStr lit)

/-! ## Bodies -/

structure JjSignature where
  name : PyStr
  email : PyStr
  timestamp_millis : Int
  tz_offset : Int
deriving DecidableEq

structure JjCommit where
  parents : List PyStr
  predecessors : List PyStr
  root_tree : List PyStr
  change_id : PyStr
  description : PyStr
  author : JjSignature
  committer : JjSignature
deriving DecidableEq

/-- A signature in a request, which may leave out any of its fields. -/
structure SignatureBody where
  name : Option PyStr
  email : Option PyStr
  timestamp_millis : Option Int
  tz_offset : Option Int
deriving DecidableEq

structure CommitBody where
  parents : Option (List PyStr)
  predecessors : Option (List PyStr)
  root_tree : Option (List PyStr)
  change_id : Option PyStr
  description : Option PyStr
  author : Option SignatureBody
  committer : Option SignatureBody
deriving DecidableEq

def JjSignature.body (signature : JjSignature) : SignatureBody :=
  ⟨some signature.name, some signature.email, some signature.timestamp_millis, some signature.tz_offset⟩

def JjCommit.body (commit : JjCommit) : CommitBody :=
  { parents := some commit.parents, predecessors := some commit.predecessors, root_tree := some commit.root_tree,
    change_id := some commit.change_id, description := some commit.description,
    author := some commit.author.body, committer := some commit.committer.body }

structure WrittenCommit where
  id : PyStr
  commit : JjCommit
deriving DecidableEq

namespace Jj

/-! ## Objects and the environment in the path -/

def visible (auth : Authorized) (name : ObjectName) : Act ObjectName := do
  let held : Finset ObjectName ← issue (.keepset_holds auth.env_id [name])
  if held.Nonempty then return name
  else .fail (.notFound "no such object in this environment")

def retain (auth : Authorized) (names : List ObjectName) : Act Unit := do
  let _ ← GarbageCollector.graduate auth.env_id names
  return ()

/-- `_name` -/
def parse_name (hex_id : PyStr) : Except PyError ObjectName :=
  match ObjectName.parse (if (lit "b3:").isPrefixOf hex_id then hex_id else lit "b3:" ++ hex_id) with
  | .ok name => .ok name
  | .error _ => .error (.notFound "not a Ledger object id")

/-! ## Signatures -/

def PREFIX : String := "jj."

/-- `f"{PREFIX}{which}.{field}"` -/
def field_key (which field : String) : PyStr := lit s!"{PREFIX}{which}.{field}"

def signature (raw : Option SignatureBody) (which : String) : Except PyError JjSignature :=
  match raw with
  | none => .error (.invalidRequest s!"a commit needs a '{which}' signature")
  | some raw =>
    .ok { name := raw.name.getD [], email := raw.email.getD [], timestamp_millis := raw.timestamp_millis.getD 0,
          tz_offset := raw.tz_offset.getD 0 }

def record_signature (which : String) (signature : JjSignature) : List (PyStr × PyStr) :=
  [(field_key which "name", signature.name), (field_key which "email", signature.email),
    (field_key which "timestamp_millis", Text.ofInt signature.timestamp_millis),
    (field_key which "tz_offset", Text.ofInt signature.tz_offset)]

/-- `int(metadata.get(key, 0))` -/
def read_int (metadata : List (PyStr × PyStr)) (key : PyStr) : Except PyError Int :=
  match metadata.lookup key with
  | none => .ok 0
  | some value =>
    match Text.toInt value with
    | some number => .ok number
    | none => .error (.valueError "invalid literal for int() with base 10")

def read_signature (metadata : List (PyStr × PyStr)) (which : String) (fallback : PyStr) (timestamp_us : Int) :
    Except PyError JjSignature :=
  match metadata.lookup (field_key which "name") with
  | none =>
    -- Written by something other than jj.
    let (name, email) := Text.partitionAt (lit " <") fallback
    .ok { name := if name = [] then fallback else name, email := email.rdropWhile fun point => point = 0x3e,
          timestamp_millis := timestamp_us / 1000, tz_offset := 0 }
  | some name => do
    let timestamp_millis ← read_int metadata (field_key which "timestamp_millis")
    let tz_offset ← read_int metadata (field_key which "tz_offset")
    return { name, email := (metadata.lookup (field_key which "email")).getD [], timestamp_millis, tz_offset }

def render (signature : JjSignature) : PyStr :=
  if signature.email = [] then signature.name else signature.name ++ lit " <" ++ signature.email ++ lit ">"

/-! ## Commits -/

def PREDECESSORS : PyStr := lit s!"{PREFIX}predecessors"

def COMMA : Text.CodePoint := 0x2c

def only_root (roots : List PyStr) : Except PyError PyStr :=
  match roots with
  | [] => .error (.invalidRequest "a commit needs a 'root_tree' with at least one term")
  | [root] => .ok root
  | _ =>
    .error (.invalidRequest ("this commit has a conflicted tree, which Ledger does not model: its merge refuses an " ++
      "overlap rather than storing one. Resolve the conflict in the working copy and commit the result"))

/-- The extra fields of a jj commit. -/
def metadata_of (author committer : JjSignature) (predecessors : List PyStr) : List (PyStr × PyStr) :=
  record_signature "author" author ++ record_signature "committer" committer ++
    if predecessors = [] then [] else [(PREDECESSORS, List.intercalate [COMMA] predecessors)]

/-- The commit that `write_commit` makes of the body; `drawn` is the id `ChangeId.new` returns. -/
def commit_of (drawn : ChangeId) (body : CommitBody) : Except PyError Commit := do
  let root ← only_root (body.root_tree.getD [])
  let author ← signature body.author "author"
  let committer ← signature body.committer "committer"
  let tree ← parse_name root
  let parents ← (body.parents.getD []).mapM parse_name
  let change := body.change_id.getD []
  return {
    tree, parents,
    change_id := if change = [] then drawn else ⟨change⟩,
    author := render author,
    committer := render committer,
    timestamp_us := committer.timestamp_millis * 1000,
    message := body.description.getD [],
    metadata := (metadata_of author committer (body.predecessors.getD [])).insertionSort fun left right =>
      left.1 ≤ right.1 }

/-- A commit's keys are distinct. -/
def commit_body (commit : Commit) : Except PyError JjCommit := do
  let predecessors := ((commit.metadata.lookup PREDECESSORS).getD []).splitOn COMMA
  let author ← read_signature commit.metadata "author" commit.author commit.timestamp_us
  let committer ← read_signature commit.metadata "committer" commit.committer commit.timestamp_us
  return {
    parents := commit.parents.map ObjectName.hex,
    predecessors := predecessors.filter fun predecessor => predecessor ≠ [],
    root_tree := [commit.tree.hex],
    change_id := commit.change_id.value,
    description := commit.message,
    author, committer }

def write_commit (corpus : Corpus) (drawn : ChangeId) (capability : Capability) (path : String) (body : CommitBody) :
    Act WrittenCommit := do
  let auth ← require_env capability path .WRITE
  let commit ← ofExcept (commit_of drawn body)
  let outcome ← put_object corpus (.commit commit)
  retain auth [outcome.name]
  let written ← ofExcept (commit_body commit)
  return ⟨outcome.name.hex, written⟩

def read_commit (capability : Capability) (path : String) (commit_id : PyStr) : Act JjCommit := do
  let auth ← require_env capability path .READ
  let name ← ofExcept (parse_name commit_id)
  let name ← visible auth name
  let commit ← get_commit name
  ofExcept (commit_body commit)

/-! ## Names -/

/-- So many lower-case digits. -/
def IsHex (length : Nat) (text : PyStr) : Prop := text.length = length ∧ ∀ point ∈ text, Text.isLowerHex point = true

theorem parse_name_hex (name : ObjectName) : parse_name name.hex = .ok name := by
  have untagged : (lit "b3:").isPrefixOf name.hex = false := by
    rw [Bool.eq_false_iff, Ne, List.isPrefixOf_iff_prefix]
    intro tagged
    exact absurd (Text.hex_lower name.digest _ (tagged.subset (show Text.ofChar ':' ∈ lit "b3:" by decide))) (by decide)
  rw [parse_name, untagged]
  simp only [Bool.false_eq_true, if_false, ObjectName.parse_hex]

theorem hex_names {texts : List PyStr} (ids : ∀ text ∈ texts, IsHex 64 text) :
    ∃ names : List ObjectName, names.map ObjectName.hex = texts := by
  induction texts with
  | nil => exact ⟨[], rfl⟩
  | cons text texts ih =>
    obtain ⟨first, others⟩ := List.forall_mem_cons.mp ids
    obtain ⟨name, spelled⟩ := ObjectName.exists_hex first.1 first.2
    obtain ⟨names, same⟩ := ih others
    exact ⟨name :: names, by rw [List.map_cons, spelled, same]⟩

theorem parse_names_hex (names : List ObjectName) : (names.map ObjectName.hex).mapM parse_name = .ok names := by
  induction names with
  | nil => rfl
  | cons name names ih =>
    rw [List.map_cons, List.mapM_cons, parse_name_hex, ih]
    rfl

/-! ## What the metadata says -/

theorem lookup_of_mem {metadata : List (PyStr × PyStr)} (distinct : (metadata.map Prod.fst).Nodup) {item : PyStr × PyStr}
    (member : item ∈ metadata) : metadata.lookup item.1 = some item.2 := by
  induction metadata with
  | nil => cases member
  | cons first metadata ih =>
    obtain ⟨key, value⟩ := first
    rw [List.map_cons, List.nodup_cons] at distinct
    rcases List.mem_cons.mp member with rfl | later
    next => exact List.lookup_cons_self
    next =>
      have different : (item.1 == key) = false := by
        rw [beq_eq_false_iff_ne]
        intro same
        exact distinct.1 (List.mem_map.mpr ⟨item, later, same⟩)
      rw [List.lookup_cons, different]
      exact ih distinct.2 later

theorem metadata_keys (author committer : JjSignature) (predecessors : List PyStr) :
    ((metadata_of author committer predecessors).map Prod.fst).Nodup := by
  rw [metadata_of]
  split
  next =>
    change [field_key "author" "name", field_key "author" "email", field_key "author" "timestamp_millis",
      field_key "author" "tz_offset", field_key "committer" "name", field_key "committer" "email",
      field_key "committer" "timestamp_millis", field_key "committer" "tz_offset"].Nodup
    decide
  next =>
    change [field_key "author" "name", field_key "author" "email", field_key "author" "timestamp_millis",
      field_key "author" "tz_offset", field_key "committer" "name", field_key "committer" "email",
      field_key "committer" "timestamp_millis", field_key "committer" "tz_offset", PREDECESSORS].Nodup
    decide

/-- The metadata of a commit says what was recorded, and nothing else. -/
structure Tells (metadata recorded : List (PyStr × PyStr)) : Prop where
  found : ∀ item ∈ recorded, metadata.lookup item.1 = some item.2
  silent : ∀ key ∉ recorded.map Prod.fst, metadata.lookup key = none

theorem sorted_tells {recorded : List (PyStr × PyStr)} (distinct : (recorded.map Prod.fst).Nodup) :
    Tells (recorded.insertionSort fun left right => left.1 ≤ right.1) recorded := by
  have sorted := List.perm_insertionSort (fun left right : PyStr × PyStr => left.1 ≤ right.1) recorded
  constructor
  next =>
    intro item member
    exact lookup_of_mem ((sorted.map Prod.fst).nodup_iff.mpr distinct) (sorted.mem_iff.mpr member)
  next =>
    intro key absent
    rw [List.lookup_eq_none_iff]
    intro item member
    rw [bne_iff_ne]
    rintro rfl
    exact absent (List.mem_map_of_mem (sorted.mem_iff.mp member))

/-! ## Reading what was recorded -/

theorem signature_body (signature : JjSignature) (which : String) :
    Jj.signature (some signature.body) which = .ok signature := by
  rfl

theorem read_recorded {metadata recorded : List (PyStr × PyStr)} (tells : Tells metadata recorded) {which : String}
    {signature : JjSignature} (within : record_signature which signature ⊆ recorded) (fallback : PyStr) (timestamp_us : Int) :
    read_signature metadata which fallback timestamp_us = .ok signature := by
  have found (item : PyStr × PyStr) (member : item ∈ record_signature which signature) :
      metadata.lookup item.1 = some item.2 := tells.found item (within member)
  have name := found (field_key which "name", signature.name) (by simp [record_signature])
  have email := found (field_key which "email", signature.email) (by simp [record_signature])
  have millis := found (field_key which "timestamp_millis", Text.ofInt signature.timestamp_millis) (by simp [record_signature])
  have zone := found (field_key which "tz_offset", Text.ofInt signature.tz_offset) (by simp [record_signature])
  simp only at name email millis zone
  simp only [read_signature, read_int, name, email, millis, zone, Text.toInt_ofInt]
  rfl

theorem read_predecessors {metadata : List (PyStr × PyStr)} {author committer : JjSignature} {predecessors : List PyStr}
    (tells : Tells metadata (metadata_of author committer predecessors)) (ids : ∀ id ∈ predecessors, IsHex 64 id) :
    (((metadata.lookup PREDECESSORS).getD []).splitOn COMMA).filter (fun predecessor => predecessor ≠ []) = predecessors := by
  by_cases none_given : predecessors = []
  next =>
    have unsaid : metadata.lookup PREDECESSORS = none := by
      refine tells.silent _ ?_
      rw [metadata_of, if_pos none_given]
      change PREDECESSORS ∉ [field_key "author" "name", field_key "author" "email", field_key "author" "timestamp_millis",
        field_key "author" "tz_offset", field_key "committer" "name", field_key "committer" "email",
        field_key "committer" "timestamp_millis", field_key "committer" "tz_offset"]
      decide
    rw [unsaid, none_given]
    rfl
  next =>
    have said : metadata.lookup PREDECESSORS = some (List.intercalate [COMMA] predecessors) := by
      refine tells.found (PREDECESSORS, _) ?_
      rw [metadata_of, if_neg none_given]
      exact List.mem_append_right _ (List.mem_singleton.mpr rfl)
    have unbroken : ∀ id ∈ predecessors, COMMA ∉ id := fun id member comma =>
      absurd ((ids id member).2 COMMA comma) (by decide)
    rw [said, Option.getD_some, List.splitOn_intercalate COMMA unbroken none_given]
    refine List.filter_eq_self.mpr fun id member => decide_eq_true ?_
    rintro rfl
    cases (ids [] member).1

/-- A change id, and a tree with a single term. -/
structure WellFormed (body : JjCommit) : Prop where
  change_id : IsHex 32 body.change_id
  parents : ∀ id ∈ body.parents, IsHex 64 id
  predecessors : ∀ id ∈ body.predecessors, IsHex 64 id
  root_tree : ∃ tree, body.root_tree = [tree] ∧ IsHex 64 tree

/-- What is made of a body says all that the body does. -/
theorem body_carried {drawn : ChangeId} {body : JjCommit} {commit : Commit} (ids : WellFormed body)
    (made : commit_of drawn body.body = .ok commit) : commit_body commit = .ok body ∧ CanonicalChangeId commit := by
  obtain ⟨tree, single, hex_tree⟩ := ids.root_tree
  obtain ⟨tree, rfl⟩ := ObjectName.exists_hex hex_tree.1 hex_tree.2
  obtain ⟨parents, spelled⟩ := hex_names ids.parents
  have identified : body.change_id ≠ [] := by
    intro empty
    have length := ids.change_id.1
    rw [empty] at length
    cases length
  have tells := sorted_tells (metadata_keys body.author body.committer body.predecessors)
  simp only [commit_of, JjCommit.body, Monads.except_bind_ok, Option.getD_some, single, only_root, signature_body,
    Except.ok.injEq, ← spelled, exists_eq_left', parse_name_hex, parse_names_hex, identified, if_false] at made
  obtain rfl := Except.ok.inj made
  refine ⟨?_, ids.change_id.2⟩
  have author := @read_recorded _ _ tells "author" body.author fun item member => by simp [metadata_of, member]
  have committer := @read_recorded _ _ tells "committer" body.committer fun item member => by simp [metadata_of, member]
  rw [commit_body]
  simp only [author, committer, read_predecessors tells ids.predecessors]
  rw [← single, spelled]
  rfl

/-! ## The routes -/

section Routes

variable {corpus : Corpus} {capability : Capability} {path : String} {operation : Operation} {world after : World}

theorem require_env_reads : (runs corpus (require_env capability path operation) world).2 = world := by
  rw [require_env, runs, Prog.run_bind, Prog.run_ofExcept]
  cases EnvName.parse path with
  | error => rfl
  | ok name => exact congrArg Prod.snd authorize_env_answers

/-- The gate lets a caller into the environment that the registry says the name is of. -/
theorem require_env_named {auth : Authorized} (passed : (runs corpus (require_env capability path operation) world).1 = .ok auth) :
    ∃ name record, EnvName.parse path = .ok name ∧ world.standing name = .registered auth.env_id record := by
  rw [require_env, runs, Prog.run_bind, Prog.run_ofExcept] at passed
  cases parsed : EnvName.parse path with
  | error => rw [parsed] at passed; cases passed
  | ok name =>
    rw [parsed] at passed
    have answered := congrArg Prod.fst (@authorize_env_answers corpus capability name operation world)
    rw [passed] at answered
    cases standing : world.standing name with
    | unregistered =>
      rw [standing] at answered
      dsimp only at answered
      split at answered
      next => cases answered
      next => cases answered
    | claimed => rw [standing] at answered; cases answered
    | registered env_id record =>
      rw [standing] at answered
      dsimp only at answered
      split at answered
      next => cases answered; exact ⟨name, record, rfl, standing⟩
      next => cases answered

theorem put_encoded_kept (corpus : Corpus) (name : ObjectName) (world : World) : ∃ outcome after,
    runs corpus (put_encoded corpus name) world = (.ok outcome, after) ∧ outcome.name = name ∧ name ∈ after.backend ∧
      after.names = world.names ∧ after.partitions = world.partitions := by
  by_cases stored : name ∈ world.backend
  next => exact ⟨_, _, runs_put_stored stored, rfl, stored, rfl, rfl⟩
  next => exact ⟨_, _, runs_put_new stored, rfl, Finset.mem_insert_self name world.backend, rfl, rfl⟩

/-- A commit that was accepted is stored, and the environment reaches it. -/
theorem commit_accepted {drawn : ChangeId} {body : CommitBody} {written : WrittenCommit}
    (accepted : runs corpus (write_commit corpus drawn capability path body) world = (.ok written, after)) :
    ∃ auth commit name, (runs corpus (require_env capability path .WRITE) world).1 = .ok auth ∧
      commit_of drawn body = .ok commit ∧ corpus.name_of (.commit commit) = .ok name ∧
      written.id = name.hex ∧ commit_body commit = .ok written.commit ∧ name ∈ after.backend ∧
      (auth.env_id, name) ∈ after.keepset ∧ after.names = world.names ∧ after.partitions = world.partitions := by
  rw [write_commit] at accepted
  obtain ⟨auth, first, gate, making⟩ := runs_bind.mp accepted
  obtain rfl : world = first := require_env_reads.symm.trans (congrArg Prod.snd gate)
  obtain ⟨commit, second, makes, putting⟩ := runs_bind.mp making
  obtain ⟨made, rfl⟩ := ofExcept_ran makes
  obtain ⟨outcome, stored, naming, retaining⟩ := runs_bind.mp putting
  obtain ⟨name, third, names_it, put⟩ := runs_bind.mp naming
  obtain ⟨named, rfl⟩ := ofExcept_ran names_it
  obtain ⟨_, _, puts, same, present, names, partitions⟩ := put_encoded_kept corpus name world
  cases puts.symm.trans put
  obtain ⟨⟨⟩, kept, retained, showing⟩ := runs_bind.mp retaining
  obtain ⟨shown, fourth, shows, returned⟩ := runs_bind.mp showing
  obtain ⟨read, rfl⟩ := ofExcept_ran shows
  cases returned
  cases retained
  subst same
  exact ⟨auth, commit, _, congrArg Prod.fst gate, made, named, rfl, read, present,
    Finset.mem_insert_self _ stored.keepset, names, partitions⟩

/-- What is stored under a name that the environment reaches is read as the name's content says. -/
theorem read_kept {auth : Authorized} {commit : Commit} {name : ObjectName}
    (gate : (runs corpus (require_env capability path .READ) world).1 = .ok auth) (kept : (auth.env_id, name) ∈ world.keepset)
    (stored : name ∈ world.backend) (content : corpus.content name = some (.commit commit)) :
    (runs corpus (read_commit capability path name.hex) world).1 = commit_body commit := by
  have passed : Prog.run (exec corpus) (require_env capability path .READ) world = (.ok auth, world) :=
    Prod.ext gate require_env_reads
  have held : (({name} : Finset ObjectName).filter fun name => (auth.env_id, name) ∈ world.keepset).Nonempty :=
    ⟨name, by simp [kept]⟩
  rw [read_commit, runs, Prog.run_bind_ok _ passed, parse_name_hex]
  simp only [visible, get_commit, get_object, issue, exec, Prog.run_bind, Prog.run_ofExcept, Prog.run_ask, Prog.run_pure, held, stored,
    content, if_true, List.toFinset_cons, List.toFinset_nil, insert_empty_eq]

/-- Whoever reads a name, reads its content. -/
theorem read_content {name : ObjectName} {body : JjCommit}
    (read : (runs corpus (read_commit capability path name.hex) world).1 = .ok body) :
    ∃ commit, corpus.content name = some (.commit commit) ∧ commit_body commit = .ok body := by
  rw [read_commit] at read
  obtain ⟨auth, first, gate, finding⟩ := runs_bind.mp (Prod.ext read rfl)
  rw [parse_name_hex] at finding
  obtain ⟨parsed, second, found, seeing⟩ := runs_bind.mp finding
  obtain ⟨same, rfl⟩ := ofExcept_ran found
  obtain rfl := Except.ok.inj same
  obtain ⟨seen, third, sees, fetching⟩ := runs_bind.mp seeing
  obtain rfl : seen = name := by
    rw [visible] at sees
    obtain ⟨held, _, -, answered⟩ := runs_bind.mp sees
    split at answered
    next => cases answered; rfl
    next => cases answered
  obtain ⟨commit, fourth, fetched, carrying⟩ := runs_bind.mp fetching
  exact ⟨commit, (get_commit_yields seen).run (answered corpus) fetched, (ofExcept_ran carrying).1⟩

/-- The registry gives a name the same standing as long as neither the names nor the partitions change. -/
theorem same_environment {reader : Capability} {auth auth' : Authorized}
    (wrote : (runs corpus (require_env capability path .WRITE) world).1 = .ok auth)
    (reads : (runs corpus (require_env reader path .READ) after).1 = .ok auth') (names : after.names = world.names)
    (partitions : after.partitions = world.partitions) : auth'.env_id = auth.env_id := by
  obtain ⟨name, record, parsed, standing⟩ := require_env_named wrote
  obtain ⟨name', record', parsed', standing'⟩ := require_env_named reads
  cases parsed.symm.trans parsed'
  have same : after.standing name = world.standing name := by
    simp only [World.standing, World.partition, names, partitions]
  rw [standing', standing] at same
  exact (Standing.registered.inj same).1

end Routes

/-- Only what can be encoded has a name. -/
theorem encoded_of_named {blake3 : Blake3} {play : List Wire.Bytes} {occupied : Wire.Bytes → Nat}
    {injective : ∀ left ∈ play, ∀ right ∈ play, name_of_encoded blake3 left = name_of_encoded blake3 right → left = right}
    {object : LedgerObject} {name : ObjectName}
    (named : (Corpus.ofBytes blake3 play occupied injective).name_of object = .ok name) :
    ∃ framed, encode object = .ok framed := by
  simp only [Corpus.ofBytes, Monads.except_bind_ok] at named
  obtain ⟨framed, encoded, -⟩ := named
  exact ⟨framed, encoded⟩

/-- Every body whose ids are well formed, once it is accepted, is read back by whoever may read the environment; and no
reading of the id, in whatever state, gives another body. -/
theorem commit_round_trips (blake3 : Blake3) (play : List Wire.Bytes) (occupied : Wire.Bytes → Nat)
    (injective : ∀ left ∈ play, ∀ right ∈ play,
      name_of_encoded blake3 left = name_of_encoded blake3 right → left = right)
    {corpus : Corpus} (objects : corpus = .ofBytes blake3 play occupied injective) (drawn : ChangeId) (writer : Capability)
    (path : String) (body : JjCommit) (ids : WellFormed body) (world : World) {written : WrittenCommit} {after : World}
    (accepted : runs corpus (write_commit corpus drawn writer path body.body) world = (.ok written, after)) :
    written.commit = body ∧
      (∀ reader auth, (runs corpus (require_env reader path .READ) after).1 = .ok auth →
        (runs corpus (read_commit reader path written.id) after).1 = .ok body) ∧
      ∀ reader elsewhere later read, (runs corpus (read_commit reader elsewhere written.id) later).1 = .ok read →
        read = body := by
  obtain ⟨auth, commit, name, gate, made, named, identified, shown, stored, kept, names, partitions⟩ := commit_accepted accepted
  obtain ⟨carried, canonical⟩ := body_carried ids made
  have content : corpus.content name = some (.commit commit) := by
    obtain ⟨framed, encoded⟩ := encoded_of_named (objects ▸ named)
    exact (corpus.named named).trans (read_back_canonical encoded canonical)
  rw [identified]
  refine ⟨Except.ok.inj (shown.symm.trans carried), fun reader auth' reads => ?_, fun reader elsewhere later read reads => ?_⟩
  next =>
    have same := same_environment gate reads names partitions
    exact (read_kept reads (same ▸ kept) stored content).trans carried
  next =>
    obtain ⟨commit', content', carried'⟩ := read_content reads
    cases content.symm.trans content'
    exact Except.ok.inj (carried'.symm.trans carried)

/-! ## A commit of an agent -/

def described : JjCommit where
  parents := []
  predecessors := [emptyTreeName.hex]
  root_tree := [emptyTreeName.hex]
  change_id := Text.hex (List.replicate 16 0x61)
  description := lit "described"
  author := ⟨lit "Ann", lit "ann@example", 1500, 60⟩
  committer := ⟨lit "Ann", [], -1, -60⟩

/-- What is stored of it. -/
def describedFramed : Wire.Bytes :=
  match commit_of ⟨[]⟩ described.body with
  | .ok commit => Layout.object (.commit commit)
  | .error _ => []

def describedName : ObjectName where
  digest :=
    [0xb5, 0x69, 0xa4, 0x59, 0x79, 0x4e, 0x87, 0x1a, 0xb9, 0xe9, 0xdb, 0xda, 0xa2, 0x14, 0xf2, 0x68, 0xc3, 0xf1, 0xb2,
      0x7f, 0x7b, 0xef, 0x0b, 0xf2, 0x30, 0x81, 0x19, 0x91, 0x57, 0x17, 0x5f, 0xd2]
  sized := rfl

def describedDigests : Blake3 := .ofTable [(describedFramed, describedName.digest)]

theorem described_alone : ∀ left ∈ [describedFramed], ∀ right ∈ [describedFramed],
    name_of_encoded describedDigests left = name_of_encoded describedDigests right → left = right := by
  intro left first right second _
  rw [List.mem_singleton.mp first, List.mem_singleton.mp second]

def describedOnly : Corpus := .ofBytes describedDigests [describedFramed] List.length described_alone

/-- May read and write the environment of the registry. -/
def agent : Capability where
  principal := lit "agent"
  scope := ⟨.READ ||| .WRITE, [.exact (lit "env_2")], none⟩
  expires_at_us := 10
  not_before_us := 0
  token_id := lit "t"
  commit := none

/-- The registry after the commit was written. -/
def describedWorld : World := (runs describedOnly (write_commit describedOnly ⟨[]⟩ agent "org/secret" described.body) created).2

theorem commit_round_trips_described :
    (runs describedOnly (read_commit agent "org/secret" describedName.hex) describedWorld).1 = .ok described := by
  have tree : IsHex 64 emptyTreeName.hex := ⟨ObjectName.length_hex emptyTreeName, Text.hex_lower emptyTreeName.digest⟩
  have ids : WellFormed described :=
    { change_id := ⟨Text.length_hex (List.replicate 16 0x61), Text.hex_lower (List.replicate 16 0x61)⟩
      parents := fun _ impossible => by cases impossible
      predecessors := fun id member => List.mem_singleton.mp member ▸ tree
      root_tree := ⟨_, rfl, tree⟩ }
  have accepted : (runs describedOnly (write_commit describedOnly ⟨[]⟩ agent "org/secret" described.body) created).1 =
      .ok ⟨describedName.hex, described⟩ := by decide +kernel
  have gate : (runs describedOnly (require_env agent "org/secret" .READ) describedWorld).1 = .ok ⟨agent, ⟨"env_2"⟩⟩ := by
    decide +kernel
  have ran : runs describedOnly (write_commit describedOnly ⟨[]⟩ agent "org/secret" described.body) created =
      (.ok ⟨describedName.hex, described⟩, describedWorld) := by
    rw [describedWorld, ← accepted]
  have round := @commit_round_trips describedDigests [describedFramed] List.length described_alone describedOnly rfl ⟨[]⟩ agent
    "org/secret" described ids created ⟨describedName.hex, described⟩ describedWorld ran
  exact round.2.1 agent ⟨agent, ⟨"env_2"⟩⟩ gate

end Jj

end LedgerVcs
