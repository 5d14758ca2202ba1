import LedgerVcs.Api.JjTrees

set_option autoImplicit false

/-! What jj stored is read back, whatever is asked for in between. -/

namespace LedgerVcs

open Text (PyStr lit)
open Wire (Bytes)
open Storing (Returns)

/-! ## The root of what was built -/

section Built

variable {blake3 : Blake3} {params : ShapeParams}

theorem levels_put_root (rounds : Nat) {level : Nat} {current : List TreeEntry} {emitted out : List (ObjectName × Bytes)}
    {root : ObjectName} (built : build_tree_levels blake3 params rounds level current emitted = .ok (root, out)) :
    root ∈ out.map Prod.fst := by
  induction rounds generalizing level current emitted with
  | zero => cases built
  | succ rounds ih =>
    obtain ⟨nodes, middle, -, written, rest⟩ := (round_ok blake3).mp built
    rcases rest with ⟨node, rfl, rfl, rfl⟩ | ⟨-, higher⟩
    next =>
      have flat := partition_runs_flatten blake3 TreeEntry.name tree_entry_bytes level params current
      have stand := (build_tree_nodes_stand [] _ (by rw [List.nil_append, flat]; exact written)).1
      obtain ⟨run, _, stands, -, -⟩ := List.forall₂_cons_right_iff.mp stand
      obtain ⟨framed, -, member⟩ := stands.emitted
      exact List.mem_map_of_mem member
    next => exact ih higher

theorem build_put_root {entries : List TreeEntry} {root : ObjectName} {emitted : List (ObjectName × Bytes)}
    (built : build_tree blake3 entries params [] = .ok (root, emitted)) : root ∈ emitted.map Prod.fst := by
  rw [build_tree] at built
  split at built
  next =>
    obtain ⟨framed, -, rfl, rfl⟩ := (emit_node_ok blake3).mp built
    exact List.mem_singleton.mpr rfl
  next =>
    obtain ⟨_, middle, -, levels⟩ := Monads.bind_ok.mp built
    exact levels_put_root _ levels

end Built

/-! ## What is shown of what was sent -/

def TreeItemBody.entry (item : TreeItemBody) : JjTreeEntry where
  name := item.name.getD []
  kind := item.kind.getD []
  id :=
    match Jj.parse_name (item.id.getD []) with
    | .ok name => name.hex
    | .error _ => item.id.getD []
  executable := item.executable && item.kind.getD [] = Jj.FILE

/-- The bytes that a name is sorted by. -/
def JjTreeEntry.key (entry : JjTreeEntry) : Bytes := (Text.encodeUtf8 entry.name).getD []

namespace Jj

/-- The items of a request in the order of their names. -/
def listing (items : List (Option TreeItemBody)) : List JjTreeEntry :=
  ((items.filterMap id).map TreeItemBody.entry).insertionSort fun left right => left.key ≤ right.key

section Shown

variable {blake3 : Blake3} {store : Objects blake3} {replaced : Bytes → PyStr}

theorem encode_name_ok {name : PyStr} {bytes : Bytes} : encode_name name = .ok bytes ↔ Text.encodeUtf8 name = some bytes := by
  rw [encode_name]
  cases Text.encodeUtf8 name <;> simp

theorem tree_entry_shown {item : Option TreeItemBody} {entry : TreeEntry} (made : tree_entry store item = .ok entry) :
    ∃ body, item = some body ∧ shown_entry replaced entry = body.entry ∧ body.entry.key = entry.name := by
  cases item with
  | none => cases made
  | some item =>
    refine ⟨item, rfl, ?_⟩
    simp only [tree_entry, Monads.except_bind_ok] at made
    obtain ⟨target, parsed, _, -, made⟩ := made
    have shows {kind : EntryKind} {mode size : Int} {bytes : Bytes} (encoded : encode_name (item.name.getD []) = .ok bytes)
        (kinds : (shown_entry replaced ⟨bytes, kind, target, mode, size⟩).kind = item.kind.getD [])
        (executables : (shown_entry replaced ⟨bytes, kind, target, mode, size⟩).executable =
          (item.executable && item.kind.getD [] = FILE)) :
        shown_entry replaced ⟨bytes, kind, target, mode, size⟩ = item.entry ∧ item.entry.key = bytes := by
      have encoded := encode_name_ok.mp encoded
      rw [TreeItemBody.entry, parsed, ← executables, ← kinds, JjTreeEntry.key, encoded, shown_entry, Text.decodeUtf8_eq_some.mpr encoded]
      exact ⟨rfl, rfl⟩
    have unfiled {kind : PyStr} (other : kind ≠ FILE) : (item.executable && kind = FILE) = false := by
      rw [decide_eq_false other, Bool.and_false]
    by_cases tree : item.kind.getD [] = TREE
    next =>
      rw [if_pos tree] at made
      obtain ⟨bytes, encoded, returned⟩ := Monads.except_bind_ok.mp made
      obtain rfl := Except.ok.inj returned
      exact shows encoded tree.symm (by rw [tree, unfiled (by decide)]; rfl)
    next =>
    rw [if_neg tree] at made
    by_cases symlink : item.kind.getD [] = SYMLINK
    next =>
      rw [if_pos symlink] at made
      obtain ⟨reader, -, made⟩ := Monads.except_bind_ok.mp made
      obtain ⟨bytes, encoded, returned⟩ := Monads.except_bind_ok.mp made
      obtain rfl := Except.ok.inj returned
      exact shows encoded symlink.symm (by rw [symlink, unfiled (by decide)]; rfl)
    next =>
    rw [if_neg symlink] at made
    by_cases file : item.kind.getD [] = FILE
    next =>
      rw [if_pos file] at made
      obtain ⟨reader, -, made⟩ := Monads.except_bind_ok.mp made
      obtain ⟨bytes, encoded, returned⟩ := Monads.except_bind_ok.mp made
      obtain rfl := Except.ok.inj returned
      refine shows encoded file.symm ?_
      rw [file, decide_eq_true rfl, Bool.and_true]
      change decide ((if item.executable = true then MODE_EXEC else MODE_REGULAR) = MODE_EXEC) = item.executable
      cases item.executable <;> decide
    next =>
      rw [if_neg file] at made
      split at made <;> cases made

theorem tree_entries_shown {items : List (Option TreeItemBody)} {entries : List TreeEntry}
    (made : items.mapM (tree_entry store) = .ok entries) :
    entries.map (shown_entry replaced) = (items.filterMap id).map TreeItemBody.entry ∧
      ∀ entry ∈ entries, (shown_entry replaced entry).key = entry.name := by
  induction items generalizing entries with
  | nil =>
    cases made
    exact ⟨rfl, fun _ impossible => by cases impossible⟩
  | cons item items ih =>
    rw [List.mapM_cons] at made
    obtain ⟨entry, first, rest⟩ := Monads.except_bind_ok.mp made
    obtain ⟨others, later, returned⟩ := Monads.except_bind_ok.mp rest
    obtain rfl := Except.ok.inj returned
    obtain ⟨body, rfl, shown, keyed⟩ := @tree_entry_shown _ _ replaced _ _ first
    obtain ⟨same, keys⟩ := ih later
    refine ⟨?_, List.forall_mem_cons.mpr ⟨shown ▸ keyed, keys⟩⟩
    rw [List.map_cons, shown, same]
    rfl

/-- The entries of the tree are shown as the items, in the order of their names. -/
theorem sorted_shown {items : List (Option TreeItemBody)} {entries : List TreeEntry}
    (made : items.mapM (tree_entry store) = .ok entries) :
    (entries.insertionSort fun left right => left.name ≤ right.name).map (shown_entry replaced) = listing items := by
  obtain ⟨same, keys⟩ := @tree_entries_shown _ _ replaced _ _ made
  rw [listing, ← same]
  refine List.map_insertionSort _ _ _ _ fun left member right member' => ?_
  rw [keys left member, keys right member']

end Shown

/-! ## What an accepted request leaves -/

section Accepted

variable {ingester : Ingester} (spelled : ingester.corpus.Spelled ingester.blake3) {capability : Capability} {path : String}
  {world after : World} {α β : Type}

theorem acting_ok {act : Act α} {value : α} : (acting ingester act).exec world = (.ok value, after) ↔
    runs ingester.corpus act world = (.ok value, after) := Iff.rfl

theorem except_ok {outcome : Except PyError α} {value : α} : (liftExcept outcome : Serving α).exec world = (.ok value, after) ↔
    outcome = .ok value ∧ world = after := by
  rw [Failing.exec_liftExcept, Prod.mk.injEq]

/-- The gate let the caller in, and left everything as it was. -/
theorem gate_ok {operation : Operation} {auth : Authorized}
    (passed : (acting ingester (require_env capability path operation)).exec world = (.ok auth, after)) :
    (runs ingester.corpus (require_env capability path operation) world).1 = .ok auth ∧ after = world := by
  rw [acting_ok] at passed
  have same := @require_env_reads ingester.corpus capability path operation world
  rw [passed] at same
  exact ⟨congrArg Prod.fst passed, same⟩

/-- The environment reaches the name. -/
def Reached (world : World) (auth : Authorized) (name : ObjectName) : Prop := (auth.env_id, name) ∈ world.keepset

theorem retain_ok {auth : Authorized} {names : List ObjectName} {done : Unit}
    (retained : (acting ingester (retain auth names)).exec world = (.ok done, after)) :
    world.Keeps after ∧ ∀ name ∈ names, Reached after auth name := by
  obtain ⟨later, ran, keeps, -, held⟩ := @retain_runs ingester.corpus auth names world
  cases ran.symm.trans retained
  exact ⟨keeps, held⟩

/-- Bytes that are ingested and retained are a file of the environment. -/
theorem bytes_kept {auth : Authorized} {data : Bytes} {id : PyStr}
    (ran : (do
      let (name, _) ← acting ingester (ingester.ingest_bytes data)
      acting ingester (retain auth [name])
      return name.hex : Serving PyStr).exec world = (.ok id, after)) :
    ∃ name, id = name.hex ∧ Reached after auth name ∧ Filed (after.objects spelled) name data := by
  obtain ⟨⟨name, stats⟩, first, ingested, ran⟩ := Failing.exec_bind_ok.mp ran
  obtain ⟨done, second, retained, ran⟩ := Failing.exec_bind_ok.mp ran
  cases ran
  obtain ⟨-, filed⟩ := @write_bytes_filed ingester spelled data (.none, world) (stats, first) name ingested
  obtain ⟨keeps, held⟩ := retain_ok retained
  exact ⟨name, rfl, held name (List.mem_singleton.mpr rfl), filed.within (keeps.within spelled)⟩

theorem file_kept {body : Bytes} {id : PyStr} (accepted : (write_file ingester capability path body).exec world = (.ok id, after)) :
    ∃ auth name, (runs ingester.corpus (require_env capability path .WRITE) world).1 = .ok auth ∧ id = name.hex ∧
      Reached after auth name ∧ Filed (after.objects spelled) name body := by
  obtain ⟨auth, first, gate, ran⟩ := Failing.exec_bind_ok.mp accepted
  obtain ⟨passed, rfl⟩ := gate_ok gate
  obtain ⟨name, rfl, reached, filed⟩ := bytes_kept spelled ran
  exact ⟨auth, name, passed, rfl, reached, filed⟩

theorem symlink_kept {target : PyStr} {id : PyStr}
    (accepted : (write_symlink ingester capability path (some target)).exec world = (.ok id, after)) :
    ∃ auth name payload, (runs ingester.corpus (require_env capability path .WRITE) world).1 = .ok auth ∧ id = name.hex ∧
      Reached after auth name ∧ Text.decodeUtf8 payload = some target ∧ Filed (after.objects spelled) name payload := by
  obtain ⟨auth, first, gate, ran⟩ := Failing.exec_bind_ok.mp accepted
  obtain ⟨passed, rfl⟩ := gate_ok gate
  obtain ⟨payload, second, encodes, ran⟩ := Failing.exec_bind_ok.mp ran
  obtain ⟨encoded, rfl⟩ := except_ok.mp encodes
  obtain ⟨name, rfl, reached, filed⟩ := bytes_kept spelled ran
  exact ⟨auth, name, payload, passed, rfl, reached, Text.decodeUtf8_eq_some.mpr (encode_name_ok.mp encoded), filed⟩

/-- What was built is stored, its root among the names it reports. -/
theorem build_ok {entries : List TreeEntry} {name : ObjectName} {written : List ObjectName}
    (built : (acting ingester (build_tree ingester entries)).exec world = (.ok (name, written), after)) :
    Makes (after.objects spelled) ingester.shape_params entries name ∧ name ∈ written := by
  have returned : Returns ingester.corpus (Storing.build_tree ingester.corpus
      (fun written (outcome : PutOutcome) => written ++ [outcome.name]) ingester.blake3 entries ingester.shape_params)
      ([], world) name (written, after) := built
  obtain ⟨added, outcomes, emits, named, tallied, -, stocks⟩ := Storing.build_tree_emits spelled _ _ _ _ _ returned
  have made := emits []
  rw [List.nil_append] at made
  have told (outcomes : List PutOutcome) (so_far : List ObjectName) :
      outcomes.foldl (fun written outcome => written ++ [outcome.name]) so_far = so_far ++ outcomes.map PutOutcome.name := by
    induction outcomes generalizing so_far with
    | nil => rw [List.foldl_nil, List.map_nil, List.append_nil]
    | cons outcome outcomes ih => rw [List.foldl_cons, ih, List.map_cons, List.append_assoc, List.singleton_append]
  refine ⟨⟨added, made, World.stocks_holds spelled stocks⟩, ?_⟩
  change written = _ at tallied
  rw [tallied, told, named, List.nil_append]
  exact build_put_root made

theorem tree_kept {items : List (Option TreeItemBody)} {id : PyStr}
    (accepted : (write_tree ingester spelled capability path (some items)).exec world = (.ok id, after)) :
    ∃ auth name entries, (runs ingester.corpus (require_env capability path .WRITE) world).1 = .ok auth ∧ id = name.hex ∧
      Reached after auth name ∧ items.mapM (tree_entry (world.objects spelled)) = .ok entries ∧
      Makes (after.objects spelled) ingester.shape_params (entries.insertionSort fun left right => left.name ≤ right.name) name := by
  obtain ⟨auth, first, gate, ran⟩ := Failing.exec_bind_ok.mp accepted
  obtain ⟨passed, rfl⟩ := gate_ok gate
  obtain ⟨objects, second, opened, ran⟩ := Failing.exec_bind_ok.mp ran
  cases opened
  obtain ⟨entries, third, makes, ran⟩ := Failing.exec_bind_ok.mp ran
  obtain ⟨made, rfl⟩ := except_ok.mp makes
  obtain ⟨_, fourth, distinct, ran⟩ := Failing.exec_bind_ok.mp ran
  obtain ⟨-, rfl⟩ := except_ok.mp distinct
  obtain ⟨⟨name, written⟩, fifth, built, ran⟩ := Failing.exec_bind_ok.mp ran
  obtain ⟨done, last, retained, ran⟩ := Failing.exec_bind_ok.mp ran
  cases ran
  obtain ⟨makes, member⟩ := build_ok spelled built
  obtain ⟨keeps, held⟩ := retain_ok retained
  exact ⟨auth, name, entries, passed, rfl, held name member, made, makes.grow (keeps.within spelled)⟩

theorem empty_tree_kept {id : PyStr} (accepted : (empty_tree ingester capability path).exec world = (.ok id, after)) :
    ∃ auth name, (runs ingester.corpus (require_env capability path .READ) world).1 = .ok auth ∧ id = name.hex ∧
      Reached after auth name ∧ Makes (after.objects spelled) ingester.shape_params [] name := by
  obtain ⟨auth, first, gate, ran⟩ := Failing.exec_bind_ok.mp accepted
  obtain ⟨passed, rfl⟩ := gate_ok gate
  obtain ⟨⟨name, written⟩, second, built, ran⟩ := Failing.exec_bind_ok.mp ran
  obtain ⟨done, last, retained, ran⟩ := Failing.exec_bind_ok.mp ran
  cases ran
  obtain ⟨makes, -⟩ := build_ok spelled built
  obtain ⟨keeps, held⟩ := retain_ok retained
  exact ⟨auth, name, passed, rfl, held name (List.mem_singleton.mpr rfl), makes.grow (keeps.within spelled)⟩

end Accepted

/-! ## What is read of it -/

section Read

variable {ingester : Ingester} (spelled : ingester.corpus.Spelled ingester.blake3) {reader : Capability} {path : String}
  {world : World} {auth : Authorized} {name : ObjectName}

theorem gate_passed (passes : (runs ingester.corpus (require_env reader path .READ) world).1 = .ok auth) :
    (acting ingester (require_env reader path .READ)).exec world = (.ok auth, world) := Prod.ext passes require_env_reads

theorem visible_reached (reached : Reached world auth name) : (visible_name ingester auth name.hex).exec world = (.ok name, world) := by
  refine Failing.exec_bind_ok.mpr ⟨name, world, except_ok.mpr ⟨parse_name_hex name, rfl⟩, ?_⟩
  have held : (({name} : Finset ObjectName).filter fun name => (auth.env_id, name) ∈ world.keepset).Nonempty :=
    ⟨name, Finset.mem_filter.mpr ⟨Finset.mem_singleton.mpr rfl, reached⟩⟩
  rw [acting_ok, visible]
  simp only [issue, exec, Prog.run_bind, Prog.run_ask, Prog.run_pure, held, if_true, List.toFinset_cons, List.toFinset_nil,
    insert_empty_eq]

theorem blob_read {content : Bytes} (passes : (runs ingester.corpus (require_env reader path .READ) world).1 = .ok auth)
    (reached : Reached world auth name) (filed : Filed (world.objects spelled) name content) :
    ∃ enough, ∀ depth, enough ≤ depth → (read_blob ingester spelled reader path depth name.hex).exec world = (.ok content, world) := by
  obtain ⟨enough, streams⟩ := filed.streams
  refine ⟨enough, fun depth deep => ?_⟩
  obtain ⟨opened, parts, init, stream, joined⟩ := streams depth deep
  have whole : opened.read_all (world.objects spelled) depth = .ok content := by
    rw [BlobReader.read_all, BlobReader.read, stream, ← joined]
    rfl
  refine Failing.exec_bind_ok.mpr ⟨auth, world, gate_passed passes, ?_⟩
  refine Failing.exec_bind_ok.mpr ⟨name, world, visible_reached reached, ?_⟩
  refine Failing.exec_bind_ok.mpr ⟨world.objects spelled, world, rfl, ?_⟩
  exact Failing.exec_bind_ok.mpr ⟨opened, world, except_ok.mpr ⟨init, rfl⟩, except_ok.mpr ⟨whole, rfl⟩⟩

theorem tree_read {replaced : Bytes → PyStr} {entries : List TreeEntry}
    (passes : (runs ingester.corpus (require_env reader path .READ) world).1 = .ok auth) (reached : Reached world auth name)
    (makes : Makes (world.objects spelled) ingester.shape_params entries name) {depth : Nat} (deep : LEVELS ≤ depth) :
    (read_tree ingester spelled replaced reader path depth name.hex).exec world = (.ok (entries.map (shown_entry replaced)), world) := by
  obtain ⟨emitted, built, held⟩ := makes
  obtain ⟨node, stored⟩ : ∃ node, (world.objects spelled).get_tree name = .ok node := by
    obtain ⟨tree, directory, -⟩ := built_directory built (world.objects spelled) held
    cases directory with
    | leaf stored => exact ⟨_, stored⟩
    | node above stored inner => exact ⟨_, stored⟩
  obtain ⟨-, -, -, -, lists, -⟩ := built_reads built held deep
  refine Failing.exec_bind_ok.mpr ⟨auth, world, gate_passed passes, ?_⟩
  refine Failing.exec_bind_ok.mpr ⟨name, world, visible_reached reached, ?_⟩
  refine Failing.exec_bind_ok.mpr ⟨world.objects spelled, world, rfl, ?_⟩
  refine Failing.exec_bind_ok.mpr ⟨node, world, except_ok.mpr ⟨stored, rfl⟩, ?_⟩
  refine Failing.exec_bind_ok.mpr ⟨entries, world, except_ok.mpr ⟨?_, rfl⟩, rfl⟩
  rw [lists, Gen.collect_of]

/-- A path leads to the same environment as long as the registry stays. -/
theorem same_env {writer : Capability} {before : World} {operation : Operation} {wrote : Authorized}
    (early : (runs ingester.corpus (require_env writer path operation) before).1 = .ok wrote)
    (late : (runs ingester.corpus (require_env reader path .READ) world).1 = .ok auth) (keeps : before.Keeps world) :
    auth.env_id = wrote.env_id := by
  obtain ⟨named, record, parsed, standing⟩ := require_env_named early
  obtain ⟨named', record', parsed', standing'⟩ := require_env_named late
  cases parsed.symm.trans parsed'
  have same : world.standing named = before.standing named := by
    simp only [World.standing, World.partition, keeps.names, keeps.partitions]
  rw [standing', standing] at same
  exact (Standing.registered.inj same).1

end Read

/-! ## Over all that is asked for afterwards -/

/-- How what a request wrote is asked for, and what the answer to that is. -/
def Request.readback : Request → Answer → Option (Request × Answer)
  | .write_file body, .id id => some (.read_file id, .content body)
  | .write_symlink (some target), .id id => some (.read_symlink id, .target target)
  | .empty_tree, .id id => some (.read_tree id, .entries [])
  | .write_tree (some items), .id id => some (.read_tree id, .entries (listing items))
  | _, _ => none

/-- Whoever may read the environment then, is answered what was written, whatever was asked for in between, by anyone, in
any environment. -/
theorem written_stays {ingester : Ingester} (spelled : ingester.corpus.Spelled ingester.blake3) (replaced : Bytes → PyStr) (limit : Nat)
    {writer reader : Capability} {path : String} {request read : Request} {written answer : Answer} {world after : World}
    (accepted : (serve ingester spelled replaced limit ⟨writer, path, request⟩).exec world = (.ok written, after))
    (shows : request.readback written = some (read, answer)) (later : List Asked) {auth : Authorized}
    (passes : (runs ingester.corpus (require_env reader path .READ) (serve_all ingester spelled replaced limit later after)).1 = .ok auth) :
    ∃ enough, ∀ depth, enough ≤ depth →
      (serve ingester spelled replaced depth ⟨reader, path, read⟩).exec (serve_all ingester spelled replaced limit later after) =
        (.ok answer, serve_all ingester spelled replaced limit later after) := by
  have stays : after.Keeps (serve_all ingester spelled replaced limit later after) := serve_all_keeps later after
  have added : world.Keeps after := by
    have met := @serve_keeps ingester spelled replaced limit ⟨writer, path, request⟩ world world (.refl world)
    rw [accepted] at met
    exact met
  have reaches {wrote : Authorized} {name : ObjectName} {operation : Operation}
      (early : (runs ingester.corpus (require_env writer path operation) world).1 = .ok wrote) (reached : Reached after wrote name) :
      Reached (serve_all ingester spelled replaced limit later after) auth name := by
    rw [Reached, same_env early passes (added.trans stays)]
    exact stays.keepset reached
  cases request with
  | write_file body =>
    obtain ⟨id, ran, rfl⟩ := Failing.exec_map_ok.mp accepted
    cases shows
    obtain ⟨wrote, name, early, rfl, reached, filed⟩ := file_kept spelled ran
    obtain ⟨enough, reads⟩ := blob_read spelled passes (reaches early reached) (filed.within (stays.within spelled))
    exact ⟨enough, fun depth deep => Failing.exec_map_ok.mpr ⟨body, reads depth deep, rfl⟩⟩
  | write_symlink target =>
    obtain ⟨id, ran, rfl⟩ := Failing.exec_map_ok.mp accepted
    cases target with
    | none => cases shows
    | some target =>
      cases shows
      obtain ⟨wrote, name, payload, early, rfl, reached, text, filed⟩ := symlink_kept spelled ran
      obtain ⟨enough, reads⟩ := blob_read spelled passes (reaches early reached) (filed.within (stays.within spelled))
      refine ⟨enough, fun depth deep => Failing.exec_map_ok.mpr ⟨target, ?_, rfl⟩⟩
      refine Failing.exec_bind_ok.mpr ⟨payload, _, reads depth deep, ?_⟩
      rw [text]
      rfl
  | empty_tree =>
    obtain ⟨id, ran, rfl⟩ := Failing.exec_map_ok.mp accepted
    cases shows
    obtain ⟨wrote, name, early, rfl, reached, makes⟩ := empty_tree_kept spelled ran
    refine ⟨LEVELS, fun depth deep => Failing.exec_map_ok.mpr ⟨[], ?_, rfl⟩⟩
    exact tree_read spelled passes (reaches early reached) (makes.grow (stays.within spelled)) deep
  | write_tree items =>
    obtain ⟨id, ran, rfl⟩ := Failing.exec_map_ok.mp accepted
    cases items with
    | none => cases shows
    | some items =>
      cases shows
      obtain ⟨wrote, name, entries, early, rfl, reached, made, makes⟩ := tree_kept spelled ran
      refine ⟨LEVELS, fun depth deep => Failing.exec_map_ok.mpr ⟨listing items, ?_, rfl⟩⟩
      rw [← @sorted_shown _ _ replaced _ _ made]
      exact tree_read spelled passes (reaches early reached) (makes.grow (stays.within spelled)) deep
  | read_file | read_symlink | read_tree | write_commit | read_commit => cases shows

/-! ### An executable and an empty directory -/

def asks (request : Request) : Asked := ⟨agent, "org/secret", request⟩

/-- The file is stored, and the empty directory. -/
def pairReady : World :=
  serve_all pairIngester pair_spelled (fun _ => []) 1 [asks (.write_file [0x61, 0x62]), asks .empty_tree] created

/-- Not in the order of the names. -/
def pairItems : List (Option TreeItemBody) := [
  some ⟨some (lit "b"), some FILE, some pairLeafName.hex, true⟩,
  some ⟨some (lit "a"), some TREE, some emptyTreeName.hex, true⟩]

def pairWritten : World :=
  ((serve pairIngester pair_spelled (fun _ => []) 1 (asks (.write_tree (some pairItems)))).exec pairReady).2

def pairLater : List Asked := [asks (.write_symlink none), asks (.read_file pairRootName.hex), asks (.write_file [0x61, 0x62])]

theorem written_stays_pair :
    ∃ enough, ∀ depth, enough ≤ depth →
      ((serve pairIngester pair_spelled (fun _ => []) depth (asks (.read_tree pairRootName.hex))).exec
        (serve_all pairIngester pair_spelled (fun _ => []) 1 pairLater pairWritten)).1 =
      .ok (.entries [⟨lit "a", TREE, emptyTreeName.hex, false⟩, ⟨lit "b", FILE, pairLeafName.hex, true⟩]) := by
  have accepted : ((serve pairIngester pair_spelled (fun _ => []) 1 (asks (.write_tree (some pairItems)))).exec pairReady).1 =
      .ok (.id pairRootName.hex) := by decide +kernel
  have passes : (runs pairIngester.corpus (require_env agent "org/secret" .READ)
      (serve_all pairIngester pair_spelled (fun _ => []) 1 pairLater pairWritten)).1 = .ok ⟨agent, ⟨"env_2"⟩⟩ := by decide +kernel
  have listed : listing pairItems =
      [⟨lit "a", TREE, emptyTreeName.hex, false⟩, ⟨lit "b", FILE, pairLeafName.hex, true⟩] := by decide +kernel
  have shows : (Request.write_tree (some pairItems)).readback (.id pairRootName.hex) = some (.read_tree pairRootName.hex,
      .entries [⟨lit "a", TREE, emptyTreeName.hex, false⟩, ⟨lit "b", FILE, pairLeafName.hex, true⟩]) := by
    rw [Request.readback, listed]
  have ran : (serve pairIngester pair_spelled (fun _ => []) 1 (asks (.write_tree (some pairItems)))).exec pairReady =
      (.ok (.id pairRootName.hex), pairWritten) := by rw [pairWritten, ← accepted]
  obtain ⟨enough, reads⟩ := written_stays pair_spelled (fun _ => []) 1 ran shows pairLater passes
  exact ⟨enough, fun depth deep => congrArg Prod.fst (reads depth deep)⟩

end Jj

end LedgerVcs
