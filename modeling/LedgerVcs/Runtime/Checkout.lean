import LedgerVcs.Runtime.Materialize

set_option autoImplicit false

/-! What was ingested is checked out as it was. -/

namespace LedgerVcs

open Wire (Bytes)
open Objects (get_blob_ok get_chunk_ok)
open Storing (Returns returns_bind returns_pure returns_lift returns_modify put_returns)

/-! ## Files that stay readable -/

section Filed

variable {blake3 : Blake3} {store later : Objects blake3} {name : ObjectName} {content : Bytes}

theorem Objects.File.within {tree : Rose Int Nat (Nat × Bytes)} (file : store.File name tree) (within : store.Within later) :
    later.File name tree := by
  induction file with
  | leaf stored held =>
    exact .leaf (get_blob_ok.mpr (within _ _ (get_blob_ok.mp stored))) fun chunk member =>
      get_chunk_ok.mpr (within _ _ (get_chunk_ok.mp (held chunk member)))
  | node above stored inner ih => exact .node above (get_blob_ok.mpr (within _ _ (get_blob_ok.mp stored))) ih

theorem Subchunk.within {chunk : BlobEntry × Bytes} (held : Subchunk store chunk) (within : store.Within later) :
    Subchunk later chunk :=
  ⟨get_chunk_ok.mpr (within _ _ (get_chunk_ok.mp held.data)), held.size⟩

/-- The nodes and chunks below the name are stored, and spell the content. -/
def Filed (store : Objects blake3) (name : ObjectName) (content : Bytes) : Prop :=
  ∃ tree, store.File name tree ∧ Spans.Honest tree ∧ tree.items.flatMap Prod.snd = content

theorem Filed.within (filed : Filed store name content) (within : store.Within later) : Filed later name content := by
  obtain ⟨tree, file, honest, spells⟩ := filed
  exact ⟨tree, file.within within, honest, spells⟩

/-- A reader streams the content. -/
theorem Filed.streams (filed : Filed store name content) :
    ∃ enough, ∀ depth, enough ≤ depth → ∃ reader parts, BlobReader.init store name = .ok reader ∧
      reader.stream store depth 0 none = .ok (.of parts) ∧ parts.flatten = content := by
  obtain ⟨tree, file, honest, spells⟩ := filed
  obtain ⟨root, stored⟩ := file.stored
  refine ⟨tree.height + 1, fun depth enough => ?_⟩
  have opened : BlobReader.init store name = .ok ⟨name, root⟩ := by rw [BlobReader.init, stored]; rfl
  have reads := @Objects.File.read _ _ _ _ file _ enough ⟨name, root⟩ stored 0 none (fun _ given => by cases given)
  have size : BlobReader.size ⟨name, root⟩ = (tree.items.map Prod.fst).sum := file.size honest stored
  have length : (tree.items.map Prod.fst).sum = content.length := by
    rw [← spells, List.length_flatMap]
    exact congrArg List.sum (List.map_congr_left honest.sizes)
  have whole : (content.take content.length).drop 0 = content := by rw [List.take_length, List.drop_zero]
  rw [size, Int.toNat_natCast, range_end, honest.read rfl (le_refl _), spells, length, whole] at reads
  obtain ⟨parts, stream, joined⟩ := Monads.except_bind_ok.mp reads
  obtain ⟨yielded, collected, flat⟩ := Monads.except_bind_ok.mp joined
  rcases parts with ⟨values, none | error⟩
  next =>
    cases collected
    exact ⟨⟨name, root⟩, values, opened, stream, Except.ok.inj flat⟩
  next => cases collected

end Filed

/-! ## What the ingest of a file leaves -/

section Ingested

variable {ingester : Ingester} (spelled : ingester.corpus.Spelled ingester.blake3)

theorem World.Grows.within {corpus : Corpus} {blake3 : Blake3} {before after : World} (spelled : corpus.Spelled blake3)
    (grows : before.Grows after) : (before.objects spelled).Within (after.objects spelled) := by
  intro name object read
  obtain ⟨stored, content⟩ := World.objects_stored.mp read
  exact World.objects_stored.mpr ⟨grows.stored stored, content⟩

/-- What each step of a loop leaves, after the whole of it. -/
theorem returns_each {σ α β : Type} {corpus : Corpus} {act : α → Storing σ β} {leaves : World → α → β → Prop} {values : List α}
    (each : ∀ value ∈ values, ∀ before result after, Returns corpus (act value) before result after →
      before.2.Grows after.2 ∧ leaves after.2 value result)
    (stable : ∀ {early late value result}, World.Grows early late → leaves early value result → leaves late value result)
    {before after : σ × World} {results : List β} (returned : Returns corpus (values.mapM act) before results after) :
    before.2.Grows after.2 ∧ List.Forall₂ (leaves after.2) values results := by
  induction values generalizing before results with
  | nil =>
    obtain ⟨rfl, rfl⟩ := returns_pure.mp returned
    exact ⟨.refl _, .nil⟩
  | cons value values ih =>
    rw [List.mapM_cons] at returned
    obtain ⟨result, middle, first, returned⟩ := returns_bind.mp returned
    obtain ⟨others, last, rest, returned⟩ := returns_bind.mp returned
    obtain ⟨rfl, rfl⟩ := returns_pure.mp returned
    obtain ⟨own, later⟩ := List.forall_mem_cons.mp each
    obtain ⟨grows, left⟩ := own _ _ _ first
    obtain ⟨grows', lefts⟩ := ih later rest
    exact ⟨grows.trans grows', .cons (stable grows' left) lefts⟩

theorem put_chunk_returns {payload : Bytes} {before after : IngestStats × World} {entry : BlobEntry}
    (returned : Returns ingester.corpus (ingester.put_chunk payload) before entry after) :
    before.2.Grows after.2 ∧ Subchunk (after.2.objects spelled) (entry, payload) := by
  obtain ⟨name, middle, put, returned⟩ := returns_bind.mp returned
  obtain ⟨rfl, rfl⟩ := returns_pure.mp returned
  obtain ⟨named, stored, grows, -⟩ := put_returns put
  obtain ⟨framed, encoded, -, stocks⟩ := @name_of_stocks _ _ _ spelled (.chunk ⟨payload⟩) trivial _ named stored
  obtain ⟨-, object, decoded, content⟩ := stocks
  obtain ⟨fits, laid⟩ := encode_ok.mp encoded
  obtain rfl := Except.ok.inj (decoded.symm.trans (decode_ok.mpr ⟨fits, trivial, laid⟩))
  exact ⟨grows, get_chunk_ok.mpr (World.objects_stored.mpr ⟨stored, content⟩), rfl⟩

theorem chunks_put {act : Bytes → Ingesting BlobEntry}
    (each : ∀ payload before entry after, Returns ingester.corpus (act payload) before entry after →
      before.2.Grows after.2 ∧ Subchunk (after.2.objects spelled) (entry, payload))
    {payloads : List Bytes} {before after : IngestStats × World} {entries : List BlobEntry}
    (returned : Returns ingester.corpus (payloads.mapM act) before entries after) :
    before.2.Grows after.2 ∧ List.Forall₂ (fun payload entry => Subchunk (after.2.objects spelled) (entry, payload)) payloads entries :=
  @returns_each _ _ _ _ _ (fun world payload entry => Subchunk (world.objects spelled) (entry, payload)) _ (fun payload _ => each payload)
    (fun grows held => held.within (grows.within spelled)) _ _ _ returned

theorem build_blob_filed {chunks : List (BlobEntry × Bytes)} {before after : IngestStats × World} {root : ObjectName}
    (held : ∀ chunk ∈ chunks, Subchunk (before.2.objects spelled) chunk)
    (returned : Returns ingester.corpus (ingester.build_blob (chunks.map Prod.fst)) before root after) :
    before.2.Grows after.2 ∧ Filed (after.2.objects spelled) root (chunks.flatMap Prod.snd) := by
  obtain ⟨added, -, emits, -, -, grows, stocks⟩ := Storing.build_blob_emits spelled _ _ _ _ _ returned
  have stored := World.stocks_holds spelled stocks
  have levels := build_blob_stand _ (emits [])
  have later (chunk : BlobEntry × Bytes) (member : chunk ∈ chunks) := (held chunk member).within (grows.within spelled)
  obtain ⟨tree, file, honest, items⟩ := levels_file later levels (.inl ⟨rfl, rfl⟩) (by simpa using stored)
  refine ⟨grows, tree, file, honest, ?_⟩
  rw [items, List.flatMap_map]
  rfl

theorem build_blob_anyway (entries : List BlobEntry) :
    (if entries = [] then ingester.put (.blob ⟨0, []⟩) else ingester.build_blob entries) = ingester.build_blob entries := by
  split
  next none => rw [none, Ingester.build_blob, Storing.build_blob, if_pos rfl, Ingester.put]
  next => rfl

/-- The chunks are put, one after the other, and then referred to. -/
theorem chunks_filed {payloads : List Bytes} {entries : List BlobEntry} {before after : IngestStats × World} {root : ObjectName}
    (put : List.Forall₂ (fun payload entry => Subchunk (before.2.objects spelled) (entry, payload)) payloads entries)
    (returned : Returns ingester.corpus (ingester.build_blob entries) before root after) :
    before.2.Grows after.2 ∧ Filed (after.2.objects spelled) root payloads.flatten := by
  obtain ⟨chunks, rfl, rfl, held⟩ : ∃ chunks : List (BlobEntry × Bytes), entries = chunks.map Prod.fst ∧
      payloads = chunks.map Prod.snd ∧ ∀ chunk ∈ chunks, Subchunk (before.2.objects spelled) chunk := by
    clear returned
    induction put with
    | nil => exact ⟨[], rfl, rfl, by simp⟩
    | @cons payload entry _ _ first _ ih =>
      obtain ⟨chunks, rfl, rfl, held⟩ := ih
      exact ⟨(entry, payload) :: chunks, rfl, rfl, List.forall_mem_cons.mpr ⟨first, held⟩⟩
  exact build_blob_filed spelled held returned

theorem write_stream_filed {source : List Bytes} (blocks : ∀ block ∈ source, block ≠ []) {before after : IngestStats × World}
    {root : ObjectName} (returned : Returns ingester.corpus (ingester.write_stream source) before root after) :
    before.2.Grows after.2 ∧ Filed (after.2.objects spelled) root source.flatten := by
  obtain ⟨entries, middle, put, rest⟩ := returns_bind.mp returned
  obtain ⟨grows, put⟩ := chunks_put spelled (fun payload before entry after returned => by
    obtain ⟨other, middle, put, returned⟩ := returns_bind.mp returned
    obtain ⟨_, last, counted, returned⟩ := returns_bind.mp returned
    obtain rfl := returns_modify.mp counted
    obtain ⟨rfl, rfl⟩ := returns_pure.mp returned
    have left := put_chunk_returns spelled put
    exact left) put
  rw [build_blob_anyway] at rest
  obtain ⟨grows', filed⟩ := chunks_filed spelled put rest
  rw [(chunk_stream_whole ingester.chunk_params blocks).1] at filed
  exact ⟨grows.trans grows', filed⟩

theorem write_bytes_filed {data : Bytes} {before after : IngestStats × World} {root : ObjectName}
    (returned : Returns ingester.corpus (ingester.write_bytes data) before root after) :
    before.2.Grows after.2 ∧ Filed (after.2.objects spelled) root data := by
  rw [Ingester.write_bytes] at returned
  split at returned
  next none =>
    have built : Returns ingester.corpus (ingester.build_blob []) before root after := by rwa [← build_blob_anyway, if_pos rfl]
    rw [none]
    exact chunks_filed spelled .nil built
  next =>
    obtain ⟨entries, middle, put, rest⟩ := returns_bind.mp returned
    obtain ⟨_, last, counted, rest⟩ := returns_bind.mp rest
    have same : last.2 = middle.2 := by rw [returns_modify.mp counted]
    obtain ⟨grows, put⟩ := chunks_put spelled (fun _ _ _ _ put => put_chunk_returns spelled put) put
    obtain ⟨whole, -⟩ := @chunk_bytes_whole ingester.blake3 ingester.chunk_params data
    rw [← same] at grows put
    obtain ⟨grows', filed⟩ := chunks_filed spelled put rest
    rw [whole] at filed
    exact ⟨grows.trans grows', filed⟩

theorem file_reads_whole {window : Nat} (positive : 0 < window) (rounds : Nat) {content : Bytes} (enough : content.length ≤ rounds) :
    (file_reads window rounds content).flatten = content ∧ ∀ block ∈ file_reads window rounds content, block ≠ [] := by
  induction rounds generalizing content with
  | zero =>
    rw [List.length_eq_zero_iff.mp (Nat.le_zero.mp enough)]
    exact ⟨rfl, by simp [file_reads]⟩
  | succ rounds ih =>
    rw [file_reads]
    split_ifs with empty
    next => exact ⟨empty.symm, by simp⟩
    next =>
      have some := List.length_pos_of_ne_nil empty
      obtain ⟨whole, others⟩ := @ih (content.drop window) (by rw [List.length_drop]; omega)
      refine ⟨by rw [List.flatten_cons, whole, List.take_append_drop], List.forall_mem_cons.mpr ⟨?_, others⟩⟩
      rw [ne_eq, List.take_eq_nil_iff, not_or]
      exact ⟨positive.ne', empty⟩

theorem write_file_filed {content : Bytes} {before after : IngestStats × World} {root : ObjectName}
    (returned : Returns ingester.corpus (ingester.write_file content) before root after) :
    before.2.Grows after.2 ∧ Filed (after.2.objects spelled) root content := by
  have window : 0 < max (ingester.chunk_params.max_size * 4) (1 <<< 20) := lt_max_of_lt_right (by decide)
  obtain ⟨whole, blocks⟩ := file_reads_whole window content.length (le_refl content.length)
  have written := write_stream_filed spelled blocks returned
  rwa [whole] at written

end Ingested

/-! ## Nodes of a disk -/

namespace Node

theorem child_smaller {children : Listing} {child : Bytes × Node} (member : child ∈ children) :
    sizeOf child.2 < sizeOf (directory children) := by
  have listed := List.sizeOf_lt_of_mem member
  have inside : sizeOf child.2 < sizeOf child := by
    obtain ⟨name, node⟩ := child
    simp
  simp only [directory.sizeOf_spec]
  omega

@[induction_eliminator]
theorem induct {motive : Node → Prop} (file : ∀ content executable, motive (file content executable))
    (symlink : ∀ target, motive (symlink target)) (special : motive special)
    (directory : ∀ children, (∀ child ∈ children, motive child.2) → motive (directory children)) : ∀ node, motive node
  | .file content executable => file content executable
  | .symlink target => symlink target
  | .special => special
  | .directory children => directory children fun child _ => induct file symlink special directory child.2
termination_by node => sizeOf node
decreasing_by exact child_smaller ‹_›

/-- Nothing of it is left out, and its links are such as a disk can hold. -/
inductive Kept (exclude : Bytes → Bool) : Node → Prop
  | file (content : Bytes) (executable : Bool) : Kept exclude (.file content executable)
  | symlink {target : Bytes} (filled : target ≠ []) (plain : 0 ∉ target) : Kept exclude (.symlink target)
  | special : Kept exclude .special
  | directory {children : Listing} (names : ∀ child ∈ children, ¬ exclude child.1) (inner : ∀ child ∈ children, Kept exclude child.2) :
    Kept exclude (.directory children)

mutual

/-- The same node, with what each directory has in the order of the names. -/
def arranged : Node → Node
  | .directory children => .directory ((arranged_children children).mergeSort fun left right => left.1 ≤ right.1)
  | node => node

def arranged_children : Listing → Listing
  | [] => []
  | (name, child) :: children => (name, arranged child) :: arranged_children children

end

theorem arranged_children_map (children : Listing) :
    arranged_children children = children.map fun child => (child.1, child.2.arranged) := by
  induction children with
  | nil => rfl
  | cons child children ih => rw [arranged_children, ih, List.map_cons]

theorem arranged_directory (children : Listing) : (directory children).arranged =
    .directory ((children.mergeSort fun left right => left.1 ≤ right.1).map fun child => (child.1, child.2.arranged)) := by
  rw [arranged, arranged_children_map, List.map_mergeSort]
  intro left _ right _
  rfl

end Node

/-! ## Entries that are written as they were -/

section Restoring

open Materializer

variable {blake3 : Blake3} {store : Objects blake3}

theorem validated_names {level : Int} {entries : List TreeEntry} {previous : Option Bytes}
    (valid : validate_tree_entries_from level previous entries = .ok ()) : ∀ entry ∈ entries, validate_entry_name entry.name = .ok () := by
  induction entries generalizing previous with
  | nil => exact fun _ impossible => by cases impossible
  | cons entry entries ih =>
    simp only [validate_tree_entries_from, Monads.except_bind_ok] at valid
    obtain ⟨_, name, _, -, _, -, rest⟩ := valid
    exact List.forall_mem_cons.mpr ⟨name, ih rest⟩

theorem Objects.Directory.names {root : ObjectName} {tree : Rose Int Bytes TreeEntry} (directory : store.Directory root tree) :
    ∀ entry ∈ tree.items, validate_entry_name entry.name = .ok () := by
  induction directory with
  | leaf stored =>
    obtain ⟨framed, read, -⟩ := store.verified (Objects.get_tree_ok.mp stored)
    rw [Rose.items_leaf]
    exact validated_names (decode_ok.mp read).1.1.2.2
  | node above stored inner ih =>
    intro entry member
    rw [Rose.items_node] at member
    obtain ⟨pair, there, inside⟩ := List.mem_flatMap.mp member
    obtain ⟨child, listed, rfl⟩ := List.mem_map.mp there
    exact ih child listed entry inside

/-- In a directory that has nothing of its name, the entry is written as this node. -/
def Restored (store : Objects blake3) (entry : TreeEntry) (node : Node) : Prop :=
  ∃ enough, ∀ depth, enough ≤ depth → ∀ (directory : Listing) (stats : MaterializeStats), directory.lookup entry.name = none →
    ∃ stats', write_entry store depth (write_tree store depth) (directory, stats) entry = .ok (directory ++ [(entry.name, node)], stats')

/-- Where there is an empty directory or nothing, the tree is written as one that has these. -/
def RestoredTree (store : Objects blake3) (tree : ObjectName) (children : Listing) : Prop :=
  ∃ enough, ∀ depth, enough ≤ depth → ∀ there, make_directory there = .ok [] →
    ∃ stats, write_tree store depth tree there = .ok (children, stats)

theorem restored_tree {root : ObjectName} {entries : List TreeEntry} {children : Listing}
    (restored : List.Forall₂ (fun entry child => entry.name = child.1 ∧ Restored store entry child.2) entries children)
    (ascending : Routing.Ascending TreeEntry.name entries) (lists : ∀ nodes, LEVELS ≤ nodes → iter_entries store nodes root none = .of entries) :
    RestoredTree store root children := by
  have written : ∃ enough, ∀ depth, enough ≤ depth → ∀ (directory : Listing) (stats : MaterializeStats),
      (∀ entry ∈ entries, directory.lookup entry.name = none) →
        ∃ stats', entries.foldlM (write_entry store depth (write_tree store depth)) (directory, stats) = .ok (directory ++ children, stats') := by
    clear lists
    induction restored with
    | nil => exact ⟨0, fun depth _ directory stats _ => ⟨stats, by rw [List.append_nil]; rfl⟩⟩
    | @cons entry child entries children first _ ih =>
      obtain ⟨behind, rest⟩ := List.pairwise_cons.mp ascending
      obtain ⟨enough, others⟩ := ih rest
      obtain ⟨named, enough', own⟩ := first
      refine ⟨max enough enough', fun depth deep directory stats free => ?_⟩
      obtain ⟨here, later⟩ := List.forall_mem_cons.mp free
      obtain ⟨middle, ran⟩ := own depth (le_of_max_le_right deep) directory stats here
      obtain ⟨last, whole⟩ := others depth (le_of_max_le_left deep) (directory ++ [(entry.name, child.2)]) middle fun other member => by
        have differs : other.name ≠ entry.name := (Std.ne_of_lt (behind other member)).symm
        rw [List.lookup_append, later other member, List.lookup_cons, beq_eq_false_iff_ne.mpr differs]
        rfl
      refine ⟨last, ?_⟩
      rw [named] at ran whole
      rw [List.foldlM_cons, ran, List.append_cons directory child children]
      exact whole
  obtain ⟨enough, folds⟩ := written
  refine ⟨max enough LEVELS + 1, fun depth deep there made => ?_⟩
  obtain ⟨depth, rfl⟩ := Nat.exists_eq_succ_of_ne_zero (show depth ≠ 0 by omega)
  have deep : max enough LEVELS ≤ depth := Nat.le_of_succ_le_succ deep
  obtain ⟨stats, whole⟩ := folds depth (le_of_max_le_left deep) [] ⟨0, 1, 0, 0, 1⟩ fun _ _ => rfl
  refine ⟨stats, ?_⟩
  rw [write_tree, made, lists depth (le_of_max_le_right deep)]
  simp only [bind, Except.bind, Gen.yielded_of, whole]
  rfl

end Restoring

theorem Ingester.entries_for_map (ingester : Ingester) (children : Listing) :
    ingester.entries_for children = children.map fun child => (child.1, ingester.entry_for child.2 child.1) := by
  induction children with
  | nil => rfl
  | cons child children ih => rw [Ingester.entries_for, ih, List.map_cons]

/-! ## Whole directories -/

section Directories

variable {ingester : Ingester} (spelled : ingester.corpus.Spelled ingester.blake3)

/-- The entry has the name, and is written as the node from here on. -/
structure Returning (world : World) (name : Bytes) (node : Node) (entry : TreeEntry) : Prop where
  named : entry.name = name
  restored : ∀ later, world.Grows later → validate_entry_name entry.name = .ok () → Restored (later.objects spelled) entry node.arranged

theorem Returning.grow {world later : World} {name : Bytes} {node : Node} {entry : TreeEntry} (grows : world.Grows later)
    (returning : Returning spelled world name node entry) : Returning spelled later name node entry :=
  ⟨returning.named, fun last grown => returning.restored last (grows.trans grown)⟩

def Returnable (node : Node) : Prop :=
  ∀ name before entry after, Returns ingester.corpus (ingester.entry_for node name) before entry after →
    before.2.Grows after.2 ∧ Returning spelled after.2 name node entry

theorem walked {children : Listing} (names : ∀ child ∈ children, ¬ ingester.exclude child.1)
    (inner : ∀ child ∈ children, Returnable spelled child.2) {before after : IngestStats × World} {root : ObjectName}
    (returned : Returns ingester.corpus (ingester.walk_directory (ingester.entries_for children)) before root after) :
    before.2.Grows after.2 ∧ ∀ later, after.2.Grows later → RestoredTree (later.objects spelled) root
      ((children.mergeSort fun left right => left.1 ≤ right.1).map fun child => (child.1, child.2.arranged)) := by
  have sorted : (ingester.entries_for children).mergeSort (fun left right => left.1 ≤ right.1) =
      (children.mergeSort fun left right => left.1 ≤ right.1).map fun child => (child.1, ingester.entry_for child.2 child.1) := by
    rw [ingester.entries_for_map, List.map_mergeSort]
    intro left _ right _
    rfl
  have listed (child : Bytes × Node) (member : child ∈ children.mergeSort fun left right => left.1 ≤ right.1) : child ∈ children :=
    (List.mergeSort_perm _ _).mem_iff.mp member
  generalize children.mergeSort (fun left right => left.1 ≤ right.1) = ordered at sorted listed ⊢
  rw [Ingester.walk_directory, sorted] at returned
  obtain ⟨_, first, encoded, returned⟩ := returns_bind.mp returned
  obtain ⟨entries, second, walk, returned⟩ := returns_bind.mp returned
  obtain ⟨_, third, counted, built⟩ := returns_bind.mp returned
  obtain ⟨ran, -⟩ := returns_lift.mp encoded
  have start : first.2 = before.2 := by
    rw [runs, Prog.run_ofExcept] at ran
    exact (Prod.mk.inj ran).2.symm
  have counts : third.2 = second.2 := by rw [returns_modify.mp counted]
  have kept : ((ordered.map fun child => (child.1, ingester.entry_for child.2 child.1)).filter fun child => ¬ ingester.exclude child.1) =
      ordered.map fun child => (child.1, ingester.entry_for child.2 child.1) := by
    refine List.filter_eq_self.mpr fun pair member => ?_
    obtain ⟨child, there, rfl⟩ := List.mem_map.mp member
    simpa using names child (listed child there)
  rw [Ingester.walk_children, kept, List.mapM_map] at walk
  obtain ⟨grows, left⟩ := @returns_each _ _ _ _ _ (fun world (child : Bytes × Node) entry => Returning spelled world child.1 child.2 entry) _
    (fun child member before entry after returned => by
      obtain ⟨_, middle, fits, returned⟩ := returns_bind.mp returned
      obtain ⟨ran, -⟩ := returns_lift.mp fits
      rw [runs, Prog.run_ofExcept] at ran
      have grown := inner child (listed child member) _ _ _ _ returned
      rwa [← (Prod.mk.inj ran).2] at grown)
    (fun grows left => Returning.grow spelled grows left) _ _ _ walk
  obtain ⟨added, -, emits, -, -, grows', stocks⟩ := Storing.build_tree_emits spelled _ _ _ _ _ built
  rw [start] at grows
  rw [counts] at grows'
  refine ⟨grows.trans grows', fun later grown => ?_⟩
  have made : build_tree ingester.blake3 entries ingester.shape_params [] = .ok (root, added) := emits []
  have held : (later.objects spelled).Holds added := World.stocks_holds spelled fun pair member => (stocks pair member).grow grown
  obtain ⟨tree, directory, -, items, -, ascending, -⟩ := built_reads made held (le_refl _)
  have valid := directory.names
  rw [items] at valid
  refine restored_tree ?_ ascending fun nodes enough => ?_
  next =>
    rw [List.forall₂_map_right_iff]
    have both := (List.forall₂_and_left entries ordered).mpr ⟨valid, left.flip⟩
    exact both.imp fun entry child both => ⟨both.2.named, both.2.restored later (grows'.trans grown) both.1⟩
  next =>
    obtain ⟨-, -, -, -, lists, -⟩ := built_reads made held enough
    exact lists

end Directories

/-! ## Publishing -/

section Publishing

open Materializer

end Publishing

/-! ## An executable and an empty directory -/

def pairRoot : LedgerObject := .tree ⟨0, [⟨[0x61], .tree, emptyTreeName, 0, 0⟩, ⟨[0x62], .blob, pairLeafName, MODE_EXEC, 2⟩]⟩

def pairRootName : ObjectName where
  digest := [
    0x88, 0xc5, 0x68, 0xd2, 0x3f, 0x8d, 0x5a, 0xa8, 0x43, 0xdd, 0xab, 0x85, 0xb2, 0x48, 0x94, 0x9b, 0x3e,
    0xf7, 0xcc, 0x4c, 0xf1, 0x28, 0x68, 0xb8, 0xa6, 0x91, 0xe5, 0xea, 0xdf, 0xac, 0x6c, 0x54]
  sized := rfl

/-- The digests are those of BLAKE3. -/
def pairRootDigests : Blake3 := .ofTable [
  (Layout.object pairChunk, pairChunkName.digest), (Layout.object pairLeaf, pairLeafName.digest),
  (emptyTreeFramed, emptyTreeName.digest), (Layout.object pairRoot, pairRootName.digest)]

def pairIngester : Ingester where
  corpus := .ofBytes pairRootDigests [Layout.object pairChunk, Layout.object pairLeaf, emptyTreeFramed, Layout.object pairRoot]
    List.length (by decide)
  blake3 := pairRootDigests
  chunk_params := smallChunks
  shape_params := PRODUCTION_SHAPE
  exclude := default_exclude

theorem pair_spelled : pairIngester.corpus.Spelled pairIngester.blake3 :=
  @Corpus.ofBytes_spelled pairRootDigests _ List.length (by decide)

end LedgerVcs
