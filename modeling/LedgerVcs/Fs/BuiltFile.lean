import LedgerVcs.Format.Files
import LedgerVcs.Fs.Blob
import LedgerVcs.Fs.Built

set_option autoImplicit false

/-! Files that `build_blob` made read back as they were given. -/

namespace LedgerVcs

open Wire (Bytes)
open Objects (get_blob_ok get_chunk_ok)

variable {blake3 : Blake3}

theorem FileStandsFor.stored {level : Nat} {out : List (ObjectName × Bytes)} {run : List BlobEntry} {node : BlobEntry}
    {store : Objects blake3} (stands : FileStandsFor level out run node) (held : store.Holds out) :
    store.get_blob node.target = .ok ⟨level, run⟩ := by
  obtain ⟨-, framed, encoded, member⟩ := stands
  obtain ⟨fits, spelled⟩ := encode_ok.mp encoded
  rw [get_blob_ok, held _ member]
  exact decode_ok.mpr ⟨fits, trivial, spelled⟩

/-- A reference with the part of the file it names. -/
structure Subfile (store : Objects blake3) (child : BlobEntry × Rose Int Nat (Nat × Bytes)) : Prop where
  file : store.File child.1.target child.2
  honest : Spans.Honest child.2
  size : child.1.size = (child.2.items.map Prod.fst).sum

/-- A reference to a stored chunk. -/
structure Subchunk (store : Objects blake3) (chunk : BlobEntry × Bytes) : Prop where
  data : store.get_chunk chunk.1.target = .ok ⟨chunk.2⟩
  size : chunk.1.size = chunk.2.length

section Subfiles

variable {store : Objects blake3} {level : Nat} {out : List (ObjectName × Bytes)}

/-- The chunks of these, one after the other. -/
def chunks_of (children : List (BlobEntry × Rose Int Nat (Nat × Bytes))) : List (Nat × Bytes) :=
  children.flatMap fun child => child.2.items

theorem leaf_subfile {run : List (BlobEntry × Bytes)} {node : BlobEntry} (stands : FileStandsFor 0 out (run.map Prod.fst) node)
    (held : store.Holds out) (chunks : ∀ chunk ∈ run, Subchunk store chunk) :
    Subfile store (node, .leaf (run.map sized)) := by
  have sizes (chunk : BlobEntry × Bytes) (member : chunk ∈ run) : chunk.1.size = chunk.1.size.toNat := by
    have size := (chunks chunk member).size
    omega
  refine ⟨.leaf (stands.stored held) fun chunk member => (chunks chunk member).data, .leaf _ fun item member => ?_, ?_⟩
  next =>
    obtain ⟨chunk, there, rfl⟩ := List.mem_map.mp member
    have size := (chunks chunk there).size
    simp only [sized]
    omega
  next =>
    rw [stands.sized, Rose.items_leaf, List.map_map, List.map_map, Nat.cast_list_sum, List.map_map]
    exact congrArg List.sum (List.map_congr_left sizes)

theorem chunks_of_size {children : List (BlobEntry × Rose Int Nat (Nat × Bytes))}
    (subfiles : ∀ child ∈ children, Subfile store child) :
    ((children.map Prod.fst).map BlobEntry.size).sum = ((chunks_of children).map Prod.fst).sum := by
  induction children with
  | nil => rfl
  | cons child children ih =>
    obtain ⟨first, rest⟩ := List.forall_mem_cons.mp subfiles
    rw [List.map_cons, List.map_cons, List.sum_cons, ih rest, first.size, chunks_of, chunks_of, List.flatMap_cons,
      List.map_append, List.sum_append, Nat.cast_add]

theorem node_subfile {run : List (BlobEntry × Rose Int Nat (Nat × Bytes))} {node : BlobEntry} (above : 0 < level)
    (stands : FileStandsFor level out (run.map Prod.fst) node) (held : store.Holds out)
    (subfiles : ∀ child ∈ run, Subfile store child) : Subfile store (node, .node level (run.map sized)) := by
  refine ⟨.node (by exact_mod_cast above) (stands.stored held) fun child member => (subfiles child member).file,
    .node _ _ (fun item member => ?_) fun item member => ?_, ?_⟩
  next =>
    obtain ⟨child, there, rfl⟩ := List.mem_map.mp member
    have size := (subfiles child there).size
    simp only [sized]
    omega
  next =>
    obtain ⟨child, there, rfl⟩ := List.mem_map.mp member
    exact (subfiles child there).honest
  next =>
    rw [stands.sized, Rose.items_node, List.flatMap_map, chunks_of_size subfiles]
    rfl

theorem chunks_of_made {α : Type} {runs : List α} {made : α → Rose Int Nat (Nat × Bytes)}
    {children : List (BlobEntry × Rose Int Nat (Nat × Bytes))} (same : runs.map made = children.map Prod.snd) :
    chunks_of children = runs.flatMap fun run => (made run).items := by
  rw [chunks_of, ← List.flatMap_map (f := Prod.snd), ← same, List.flatMap_map]

/-! ## All levels -/

/-- What a level refers to: the chunks themselves, or parts of the file made of them. -/
def Spells (store : Objects blake3) (chunks : List (BlobEntry × Bytes)) (level : Nat) (entries : List BlobEntry) : Prop :=
  (level = 0 ∧ entries = chunks.map Prod.fst) ∨
    0 < level ∧ ∃ children : List (BlobEntry × Rose Int Nat (Nat × Bytes)), entries = children.map Prod.fst ∧
      (∀ child ∈ children, Subfile store child) ∧ chunks_of children = chunks.map sized

theorem levels_file {chunks : List (BlobEntry × Bytes)} (held : ∀ chunk ∈ chunks, Subchunk store chunk)
    {entries : List BlobEntry} {root : ObjectName} (levels : FileLevels out level entries root)
    (spells : Spells store chunks level entries) (stored : store.Holds out) :
    ∃ tree, store.File root tree ∧ Spans.Honest tree ∧ tree.items = chunks.map sized := by
  induction levels with
  | @top level entries node stands =>
    rcases spells with ⟨rfl, rfl⟩ | ⟨above, children, rfl, subfiles, whole⟩
    next =>
      have subfile := leaf_subfile stands stored held
      exact ⟨_, subfile.file, subfile.honest, Rose.items_leaf _⟩
    next =>
      have subfile := node_subfile above stands stored subfiles
      refine ⟨_, subfile.file, subfile.honest, ?_⟩
      rw [Rose.items_node, List.flatMap_map]
      exact whole
  | @lower level runs nodes root nonempty stand above ih =>
    refine ih (.inr ⟨Nat.succ_pos level, ?_⟩)
    rcases spells with ⟨rfl, flat⟩ | ⟨above, children, flat, subfiles, whole⟩
    next =>
      obtain ⟨lifted, rfl, rfl⟩ := Runs.exists_lift Prod.fst flat
      obtain ⟨parts, rfl, same, subfiles⟩ := @Runs.exists_pairs _ _ _ _ _ _ (fun run => .leaf (run.map sized)) (Subfile store)
        (List.forall₂_map_left_iff.mp stand) fun run member node stands =>
          leaf_subfile stands stored fun chunk inside => held chunk (List.mem_flatten.mpr ⟨run, member, inside⟩)
      refine ⟨parts, rfl, subfiles, ?_⟩
      rw [chunks_of_made same]
      simp [List.flatMap_def, List.map_flatten]
    next =>
      obtain ⟨lifted, rfl, rfl⟩ := Runs.exists_lift Prod.fst flat
      obtain ⟨parts, rfl, same, others⟩ := @Runs.exists_pairs _ _ _ _ _ _ (fun run => .node level (run.map sized))
        (Subfile store) (List.forall₂_map_left_iff.mp stand) fun run member node stands =>
          node_subfile above stands stored fun child inside => subfiles child (List.mem_flatten.mpr ⟨run, member, inside⟩)
      refine ⟨parts, rfl, others, ?_⟩
      rw [chunks_of_made same, ← whole, chunks_of, ← List.flatMap_id, List.flatMap_assoc]
      simp [List.flatMap_map, sized]

theorem Objects.File.size {name : ObjectName} {tree : Rose Int Nat (Nat × Bytes)} (file : store.File name tree)
    (honest : Spans.Honest tree) {root : Blob} (stored : store.get_blob name = .ok root) :
    root.size = (tree.items.map Prod.fst).sum := by
  cases file with
  | @leaf _ chunks known held =>
    obtain rfl := Except.ok.inj (known.symm.trans stored)
    have sizes := stored_sizes known
    rw [Blob.size, Rose.items_leaf, List.map_map, List.map_map, Nat.cast_list_sum, List.map_map]
    refine congrArg List.sum (List.map_congr_left fun chunk member => ?_)
    exact (Int.toNat_of_nonneg (sizes chunk.1 (List.mem_map_of_mem member)).le).symm
  | @node _ level children above known inner =>
    obtain rfl := Except.ok.inj (known.symm.trans stored)
    have sizes := stored_sizes known
    cases honest with
    | node _ _ own deeper =>
      have subfiles (child : BlobEntry × Rose Int Nat (Nat × Bytes)) (member : child ∈ children) : Subfile store child := by
        have size := own (sized child) (List.mem_map_of_mem member)
        have positive := sizes child.1 (List.mem_map_of_mem member)
        simp only [sized] at size
        exact ⟨inner child member, deeper (sized child) (List.mem_map_of_mem member), by omega⟩
      rw [Blob.size, chunks_of_size subfiles, Rose.items_node, List.flatMap_map]
      rfl

end Subfiles

/-! ## Whole files -/

section Files

variable (blake3 : Blake3)

/-- A chunk as it is put. -/
def chunk_put (chunk : Chunk) : ObjectName × Bytes :=
  (name_of_encoded blake3 (Layout.object (.chunk chunk)), Layout.object (.chunk chunk))

/-- The reference to it that the ingest makes. -/
def chunk_entry (chunk : Chunk) : BlobEntry := ⟨(chunk_put blake3 chunk).1, chunk.data.length⟩

/-- Files of less than 2^64 bytes are built, and read back exactly. -/
theorem built_file_reads_back (chunks : List Chunk)
    (valid : ∀ chunk ∈ chunks, chunk.data ≠ [] ∧ chunk.data.length ≤ MAX_CHUNK_BYTES)
    (small : (chunks.flatMap Chunk.data).length < 2 ^ 64) :
    ∃ root emitted, build_blob blake3 (chunks.map (chunk_entry blake3)) PRODUCTION_SHAPE [] = .ok (root, emitted) ∧
      (∀ pair ∈ emitted, ∃ node, decode pair.2 = .ok (.blob node)) ∧
      ∀ store : Objects blake3, store.Holds (chunks.map (chunk_put blake3)) → store.Holds emitted →
        ∃ enough, ∀ depth, enough ≤ depth → ∃ reader, BlobReader.init store root = .ok reader ∧
          ∀ offset length, 0 ≤ offset → (∀ given ∈ length, 0 ≤ given) →
            reader.read store depth offset length = .ok (range_of (chunks.flatMap Chunk.data) offset length) := by
  have data : (((chunks.map (chunk_entry blake3)).map BlobEntry.size).sum : Int) = (chunks.flatMap Chunk.data).length := by
    simp [chunk_entry, List.length_flatMap, Function.comp_def]
  have referable : Referable (chunks.map (chunk_entry blake3)) := by
    refine ⟨fun entry member => ?_, by rw [data]; simp only [U64_MAX]; omega⟩
    obtain ⟨chunk, there, rfl⟩ := List.mem_map.mp member
    exact Int.natCast_pos.mpr (List.length_pos_of_ne_nil (valid chunk there).1)
  obtain ⟨root, emitted, built, emits, levels⟩ := build_blob_total blake3 referable
  refine ⟨root, emitted, built, fun pair member => ?_, fun store puts stored => ?_⟩
  next =>
    obtain ⟨-, node, encoded⟩ := emits pair member
    obtain ⟨fits, spelled⟩ := encode_ok.mp encoded
    exact ⟨node, decode_ok.mpr ⟨fits, trivial, spelled⟩⟩
  next =>
    have held : ∀ chunk ∈ chunks.map fun chunk => (chunk_entry blake3 chunk, chunk.data), Subchunk store chunk := by
      intro pair member
      obtain ⟨chunk, there, rfl⟩ := List.mem_map.mp member
      obtain ⟨filled, most⟩ := valid chunk there
      have fits : Fits.object (.chunk chunk) := by simp [Fits.object, validate_chunk, filled, most]
      refine ⟨?_, rfl⟩
      rw [get_chunk_ok]
      exact (puts _ (List.mem_map_of_mem there)).trans (decode_ok.mpr ⟨fits, trivial, rfl⟩)
    obtain ⟨tree, file, honest, items⟩ := levels_file held levels (.inl ⟨rfl, by simp⟩) stored
    obtain ⟨node, known⟩ := file.stored
    refine ⟨tree.height + 1, fun depth enough => ⟨⟨root, node⟩, by rw [BlobReader.init, known]; rfl, ?_⟩⟩
    intro offset length natural given
    obtain ⟨start, rfl⟩ := Int.eq_ofNat_of_zero_le natural
    have content : tree.items.flatMap Prod.snd = chunks.flatMap Chunk.data := by
      rw [items, List.map_map, List.flatMap_map]
      rfl
    have total : (tree.items.map Prod.fst).sum = (chunks.flatMap Chunk.data).length := by
      rw [items, List.map_map, List.map_map, List.length_flatMap]
      rfl
    have size : BlobReader.size ⟨root, node⟩ = (tree.items.map Prod.fst).sum := file.size honest known
    have inside := range_end_le (tree.items.map Prod.fst).sum start length
    rw [@Objects.File.read _ _ _ _ file _ enough ⟨root, node⟩ known start length given, size, Int.toNat_natCast,
      honest.read rfl inside, content, range_of_end total.symm start given]

end Files

/-! ## A chunk twice -/

def twiceRoot : LedgerObject := .blob ⟨0, [⟨pairChunkName, 2⟩, ⟨pairChunkName, 2⟩]⟩

def twiceRootName : ObjectName where
  digest := [
    0x9a, 0xcc, 0xc3, 0x83, 0xc8, 0xfe, 0xad, 0x1b, 0xae, 0x5c, 0x3b, 0x25, 0x1d, 0x48, 0x85, 0x76, 0x2e,
    0xb3, 0xa8, 0x43, 0x45, 0x68, 0xa2, 0x53, 0xf9, 0x6f, 0x7e, 0xd3, 0xb0, 0xa6, 0xbe, 0x09]
  sized := rfl

/-- The digests are those of BLAKE3. -/
def twiceDigests : Blake3 := .ofTable [
  (Layout.object pairChunk, pairChunkName.digest), (Layout.object twiceRoot, twiceRootName.digest)]

def twiceChunks : List Chunk := [⟨[0x61, 0x62]⟩, ⟨[0x61, 0x62]⟩]

def twiceStore : Objects twiceDigests :=
  ObjectStore.after_puts twiceDigests [Layout.object pairChunk, Layout.object twiceRoot]

theorem twice_built : build_blob twiceDigests (twiceChunks.map (chunk_entry twiceDigests)) PRODUCTION_SHAPE [] =
    .ok (twiceRootName, [(twiceRootName, Layout.object twiceRoot)]) := by
  decide

theorem built_file_reads_back_twice :
    ∃ enough, ∀ depth, enough ≤ depth → ∃ reader, BlobReader.init twiceStore twiceRootName = .ok reader ∧
      ∀ offset length, 0 ≤ offset → (∀ given ∈ length, 0 ≤ given) →
        reader.read twiceStore depth offset length = .ok (range_of [0x61, 0x62, 0x61, 0x62] offset length) := by
  obtain ⟨root, emitted, built, -, reads⟩ := built_file_reads_back twiceDigests twiceChunks (by decide) (by decide)
  obtain ⟨rfl, rfl⟩ := Prod.mk.inj (Except.ok.inj (twice_built.symm.trans built))
  have chunks : twiceStore.Holds (twiceChunks.map (chunk_put twiceDigests)) := by
    unfold Objects.Holds
    decide +kernel
  have nodes : twiceStore.Holds [(twiceRootName, Layout.object twiceRoot)] := by
    unfold Objects.Holds
    decide +kernel
  exact reads twiceStore chunks nodes

end LedgerVcs
