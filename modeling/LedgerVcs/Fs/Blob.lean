import LedgerVcs.Lib.Gen
import LedgerVcs.Lib.Spans
import LedgerVcs.Store.Objects

set_option autoImplicit false

/-! Reading files: byte-range descent through blob index nodes. -/

namespace LedgerVcs

open Wire (Bytes)
open Objects (get_blob_ok get_chunk_ok)

def Blob.size (blob : Blob) : Int := (blob.entries.map BlobEntry.size).sum

/-- `data[begin:stop]` for bounds that are not negative -/
def slice_bytes (data : Bytes) (begin stop : Int) : Bytes := (data.take stop.toNat).drop begin.toNat

/-- `data[offset:]`, or `data[offset:offset+length]` -/
def range_of (data : Bytes) (offset : Int) : (length : Option Int) → Bytes
  | none => data.drop offset.toNat
  | some length => slice_bytes data offset (offset + length)

/-- A chunk, and where in the file it sits. -/
structure Located where
  name : ObjectName
  start : Int
  size : Int
deriving DecidableEq

structure BlobReader where
  root_name : ObjectName
  root : Blob
deriving DecidableEq

/-! ## The reader -/

/-- The loop of `_descend` over one node's entries, which returns once it is past the range. -/
def descend_entries (start stop : Int) (visit : BlobEntry → (offset : Int) → Gen PyError Located) :
    (offset : Int) → List BlobEntry → Gen PyError Located
  | _, [] => .of []
  | offset, entry :: entries =>
    let child_end := offset + entry.size
    let child := if child_end > start ∧ offset < stop then visit entry offset else .of []
    if child_end ≥ stop then child else child.append (descend_entries start stop visit child_end entries)

/-- Blobs are finite, so with fuel enough this is never raised. -/
def too_deep_blob : PyError := .assertionError "more levels than the blob has"

section Readers

variable {blake3 : Blake3} (store : Objects blake3)

def descend (start stop : Int) : (depth : Nat) → Blob → (base : Int) → Gen PyError Located
  | 0, _, _ => .raise too_deep_blob
  | depth + 1, node, base =>
    descend_entries start stop (fun entry offset =>
      if node.level = 0 then .of [⟨entry.target, offset, entry.size⟩]
      else .fetching (store.get_blob entry.target) fun child => descend start stop depth child offset) base node.entries

namespace BlobReader

def init (name : ObjectName) : Except PyError BlobReader := do
  let root ← store.get_blob name
  return ⟨name, root⟩

def size (reader : BlobReader) : Int := reader.root.size

def chunks_covering (depth : Nat) (reader : BlobReader) (start stop : Int) : Gen PyError Located :=
  if start ≥ stop then .of [] else descend store start stop depth reader.root 0

def yield_range (depth : Nat) (reader : BlobReader) (offset stop : Int) : Gen PyError Bytes :=
  (reader.chunks_covering store depth offset stop).through fun located =>
    .fetching (store.get_chunk located.name) fun chunk =>
      let begin := max (offset - located.start) 0
      let stop := min (stop - located.start) located.size
      -- whole chunks are not sliced, however long they are
      .of [if (begin, stop) = (0, located.size) then chunk.data else slice_bytes chunk.data begin stop]

def stream (depth : Nat) (reader : BlobReader) (offset : Int) (length : Option Int) :
    Except PyError (Gen PyError Bytes) := do
  ensure (¬ offset < 0) (.invalidRequest "read offset must be non-negative")
  ensure (∀ given ∈ length, ¬ given < 0) (.invalidRequest "read length must be non-negative")
  let total := reader.size
  if offset ≥ total then return .of []
  else
    let stop := match length with
      | none => total
      | some length => min (offset + length) total
    return reader.yield_range store depth offset stop

def read (depth : Nat) (reader : BlobReader) (offset : Int) (length : Option Int) : Except PyError Bytes := do
  let parts ← reader.stream store depth offset length
  let parts ← parts.collect
  return parts.flatten

end BlobReader

end Readers

/-! ## What a name's nodes hold -/

/-- Under the size its entry states. -/
def sized {γ : Type} (child : BlobEntry × γ) : Nat × γ := (child.1.size.toNat, child.2)

/-- All the nodes below a name are stored, and all the chunks. -/
inductive Objects.File {blake3 : Blake3} (store : Objects blake3) : ObjectName → Rose Int Nat (Nat × Bytes) → Prop
  | leaf {name : ObjectName} {chunks : List (BlobEntry × Bytes)}
    (stored : store.get_blob name = .ok ⟨0, chunks.map Prod.fst⟩)
    (held : ∀ chunk ∈ chunks, store.get_chunk chunk.1.target = .ok ⟨chunk.2⟩) :
    File store name (.leaf (chunks.map sized))
  | node {name : ObjectName} {level : Int} {children : List (BlobEntry × Rose Int Nat (Nat × Bytes))} (above : 0 < level)
    (stored : store.get_blob name = .ok ⟨level, children.map Prod.fst⟩)
    (inner : ∀ child ∈ children, File store child.1.target child.2) :
    File store name (.node level (children.map sized))

section File

variable {blake3 : Blake3} {store : Objects blake3} {name : ObjectName} {tree : Rose Int Nat (Nat × Bytes)}

theorem stored_sizes {node : Blob} (stored : store.get_blob name = .ok node) : ∀ entry ∈ node.entries, 0 < entry.size := by
  obtain ⟨framed, read, -⟩ := store.verified (get_blob_ok.mp stored)
  intro entry member
  exact ((decode_ok.mp read).1.1.2 entry member).1

theorem stored_chunk {chunk : Chunk} (stored : store.get_chunk name = .ok chunk) : chunk.data ≠ [] := by
  obtain ⟨framed, read, -⟩ := store.verified (get_chunk_ok.mp stored)
  have valid : validate_chunk chunk = .ok () := (decode_ok.mp read).1
  simp only [validate_chunk, Monads.except_bind_ok, ensure_ok] at valid
  obtain ⟨_, some, -⟩ := valid
  exact some

theorem Objects.File.positive (file : store.File name tree) : Spans.Positive tree := by
  induction file with
  | @leaf name chunks stored held =>
    refine .leaf _ fun item member => ?_
    obtain ⟨chunk, there, rfl⟩ := List.mem_map.mp member
    have sizes := stored_sizes stored chunk.1 (List.mem_map_of_mem there)
    exact ⟨by simp only [sized]; omega, stored_chunk (held chunk there)⟩
  | @node name level children above stored inner ih =>
    refine .node _ _ (fun item member => ?_) fun item member => ?_
    next =>
      obtain ⟨child, there, rfl⟩ := List.mem_map.mp member
      have sizes := stored_sizes stored child.1 (List.mem_map_of_mem there)
      simp only [sized]
      omega
    next =>
      obtain ⟨child, there, rfl⟩ := List.mem_map.mp member
      exact ih child there

/-! ## Descents visit pieces -/

/-- A chunk found by a descent is the one of some piece. -/
structure Located.Holds (store : Objects blake3) (located : Located) (piece : Spans.Piece UInt8) : Prop where
  data : store.get_chunk located.name = .ok ⟨piece.data⟩
  start : located.start = piece.start
  size : located.size = piece.size

/-- A generator has found the pieces that a range visits. -/
def Finds (store : Objects blake3) (start stop : Nat) (found : Gen PyError Located) (pieces : List (Spans.Piece UInt8)) :
    Prop :=
  ∃ chunks, found = .of chunks ∧ List.Forall₂ (Located.Holds store) chunks (pieces.filter fun piece => piece.Visited start stop)

theorem Finds.nothing {start stop : Nat} {pieces : List (Spans.Piece UInt8)}
    (unseen : ∀ piece ∈ pieces, ¬ piece.Visited start stop) : Finds store start stop (.of []) pieces := by
  refine ⟨[], rfl, ?_⟩
  rw [List.filter_eq_nil_iff.mpr fun piece member => by simpa using unseen piece member]
  exact .nil

theorem Finds.single {start stop : Nat} {located : Located} {piece : Spans.Piece UInt8}
    (holds : located.Holds store piece) (visited : piece.Visited start stop) :
    Finds store start stop (.of [located]) [piece] := by
  have kept : ([piece].filter fun piece => piece.Visited start stop) = [piece] := by simp [visited]
  exact ⟨[located], rfl, by rw [kept]; exact .cons holds .nil⟩

theorem Finds.append {start stop : Nat} {first second : Gen PyError Located} {pieces others : List (Spans.Piece UInt8)}
    (found : Finds store start stop first pieces) (rest : Finds store start stop second others) :
    Finds store start stop (first.append second) (pieces ++ others) := by
  obtain ⟨chunks, rfl, holds⟩ := found
  obtain ⟨more, rfl, too⟩ := rest
  exact ⟨chunks ++ more, Gen.append_of _ _, by rw [List.filter_append]; exact List.rel_append holds too⟩

theorem descend_entries_finds {γ : Type} {start stop : Nat} {children : List (BlobEntry × γ)}
    {pieces : Nat × Nat × γ → List (Spans.Piece UInt8)} {visit : BlobEntry → Int → Gen PyError Located} {base : Nat}
    (sizes : ∀ child ∈ children, 0 < child.1.size)
    (starts : ∀ offset : Nat, ∀ child ∈ children, ∀ piece ∈ pieces (offset, sized child), offset ≤ piece.start)
    (visits : ∀ offset : Nat, ∀ child ∈ children, start < offset + child.1.size.toNat → offset < stop →
      Finds store start stop (visit child.1 offset) (pieces (offset, sized child)))
    (skips : ∀ offset : Nat, ∀ child ∈ children, offset + child.1.size.toNat ≤ start →
      ∀ piece ∈ pieces (offset, sized child), ¬ piece.Visited start stop) :
    Finds store start stop (descend_entries start stop visit base (children.map Prod.fst))
      ((Spans.place base (children.map sized)).flatMap pieces) := by
  induction children generalizing base with
  | nil => exact Finds.nothing (by simp [Spans.place])
  | cons child children ih =>
    obtain ⟨positive, others⟩ := List.forall_mem_cons.mp sizes
    have later := @ih (base + child.1.size.toNat) others
      (fun offset other member => starts offset other (List.mem_cons_of_mem _ member))
      (fun offset other member => visits offset other (List.mem_cons_of_mem _ member))
      (fun offset other member => skips offset other (List.mem_cons_of_mem _ member))
    have ends : (base : Int) + child.1.size = (base + child.1.size.toNat : Nat) := by omega
    have own : Finds store start stop
        (if (base : Int) + child.1.size > start ∧ (base : Int) < stop then visit child.1 base else .of [])
        (pieces (base, sized child)) := by
      split
      next inside => exact visits base child List.mem_cons_self (by omega) (by omega)
      next outside =>
        refine Finds.nothing fun piece member => ?_
        by_cases past : base + child.1.size.toNat ≤ start
        next => exact skips base child List.mem_cons_self past piece member
        next =>
          have after := starts base child List.mem_cons_self piece member
          simp only [Spans.Piece.Visited]
          omega
    simp only [List.map_cons, descend_entries, sized, Spans.place, List.flatMap_cons]
    split
    next done =>
      -- the rest of the node begins past the range
      rw [← Gen.append_nil (ite _ _ _)]
      refine own.append (Finds.nothing fun piece member => ?_)
      obtain ⟨⟨offset, item⟩, there, inside⟩ := List.mem_flatMap.mp member
      obtain ⟨after, listed⟩ := Spans.mem_place there
      obtain ⟨other, member, same⟩ := List.mem_map.mp listed
      obtain rfl : sized other = item := same
      have beyond := starts offset other (List.mem_cons_of_mem _ member) piece inside
      simp only [Spans.Piece.Visited]
      omega
    next =>
      rw [ends] at own ⊢
      exact own.append later

theorem Objects.File.stored (file : store.File name tree) : ∃ node, store.get_blob name = .ok node := by
  cases file with
  | leaf stored => exact ⟨_, stored⟩
  | node above stored => exact ⟨_, stored⟩

theorem sized_lower {level : Int} {children : List (BlobEntry × Rose Int Nat (Nat × Bytes))}
    {child : BlobEntry × Rose Int Nat (Nat × Bytes)} {depth : Nat} (member : child ∈ children)
    (enough : (Rose.node level (children.map sized)).height < depth + 1) : child.2.height < depth := by
  have lower := @Rose.height_child Int Nat (Nat × Bytes) level (children.map sized) (sized child) (List.mem_map_of_mem member)
  exact Nat.lt_of_lt_of_le lower (Nat.lt_succ_iff.mp enough)

theorem Objects.File.descend (file : store.File name tree) {depth : Nat} (enough : tree.height < depth) {node : Blob}
    (stored : store.get_blob name = .ok node) {start stop base bound : Nat} (reached : start < bound) :
    Finds store start stop (LedgerVcs.descend store start stop depth node base) (Spans.pieces tree base bound) := by
  induction file generalizing depth node base bound with
  | @leaf name chunks known held =>
    obtain ⟨depth, rfl⟩ := Nat.exists_eq_succ_of_ne_zero (Nat.ne_zero_of_lt enough)
    obtain rfl := Except.ok.inj (known.symm.trans stored)
    have sizes (chunk : BlobEntry × Bytes) (member : chunk ∈ chunks) := stored_sizes known chunk.1 (List.mem_map_of_mem member)
    rw [Spans.pieces_leaf, @List.map_eq_flatMap (Nat × Nat × Bytes) (Spans.Piece UInt8), LedgerVcs.descend]
    refine descend_entries_finds sizes (fun offset chunk member piece inside => ?_) (fun offset chunk member above below => ?_)
      fun offset chunk member skipped piece inside => ?_
    next => rw [List.mem_singleton.mp inside]
    next =>
      have positive := sizes chunk member
      refine Finds.single ⟨held chunk member, rfl, (Int.toNat_of_nonneg positive.le).symm⟩ ?_
      simp only [Spans.Piece.Visited, sized]
      omega
    next =>
      rw [List.mem_singleton.mp inside]
      simp only [Spans.Piece.Visited, sized]
      omega
  | @node name level children above known inner ih =>
    obtain ⟨depth, rfl⟩ := Nat.exists_eq_succ_of_ne_zero (Nat.ne_zero_of_lt enough)
    obtain rfl := Except.ok.inj (known.symm.trans stored)
    have interior : ¬ level = 0 := by omega
    have sizes (child : BlobEntry × Rose Int Nat (Nat × Bytes)) (member : child ∈ children) :=
      stored_sizes known child.1 (List.mem_map_of_mem member)
    have placed {offset : Nat} {child : BlobEntry × Rose Int Nat (Nat × Bytes)} (member : child ∈ children) :=
      have size := sizes child member
      @Spans.pieces_placed _ _ _ (inner child member).positive offset (min bound (offset + child.1.size.toNat)) (by omega)
    rw [Spans.pieces_node, LedgerVcs.descend]
    refine descend_entries_finds sizes (fun offset child member piece inside => ?_) (fun offset child member above below => ?_)
      fun offset child member skipped piece inside => ?_
    next => exact (placed member piece inside).from_base
    next =>
      obtain ⟨deeper, there⟩ := (inner child member).stored
      simp only [interior, if_false, there, Gen.fetching_ok]
      exact ih child member (sized_lower member enough) there (by simp only [sized]; omega)
    next =>
      have within := (placed member piece inside).within
      simp only [Spans.Piece.Visited]
      omega

/-! ## Ranges are those of the pieces -/

theorem Located.Holds.part {located : Located} {piece : Spans.Piece UInt8} (holds : located.Holds store piece)
    {start stop : Nat} (visited : piece.Visited start stop) :
    (Gen.fetching (store.get_chunk located.name) fun chunk =>
      let begin := max (start - located.start) 0
      let stop := min (stop - located.start) located.size
      .of [if (begin, stop) = (0, located.size) then chunk.data else slice_bytes chunk.data begin stop]) =
        .of [piece.part start stop] := by
  have below := visited.2
  rw [holds.data, Gen.fetching_ok, holds.start, holds.size, Spans.Piece.part]
  have whole : (max ((start : Int) - piece.start) 0, min ((stop : Int) - piece.start) piece.size) = (0, (piece.size : Int)) ↔
      start - piece.start = 0 ∧ min (stop - piece.start) piece.size = piece.size := by
    rw [Prod.mk.injEq]
    omega
  have first : (max ((start : Int) - piece.start) 0).toNat = start - piece.start := by omega
  have last : (min ((stop : Int) - piece.start) piece.size).toNat = min (stop - piece.start) piece.size := by omega
  simp only [whole, slice_bytes, first, last]

theorem yields_parts {start stop : Nat} {chunks : List Located} {pieces : List (Spans.Piece UInt8)}
    (holds : List.Forall₂ (Located.Holds store) chunks pieces) (visited : ∀ piece ∈ pieces, piece.Visited start stop) :
    (Gen.each chunks fun located => .fetching (store.get_chunk located.name) fun chunk =>
      let begin := max (start - located.start) 0
      let stop := min (stop - located.start) located.size
      .of [if (begin, stop) = (0, located.size) then chunk.data else slice_bytes chunk.data begin stop]) =
        .of (pieces.map fun piece => piece.part start stop) := by
  induction holds with
  | nil => rfl
  | @cons located piece chunks pieces own others ih =>
    obtain ⟨first, rest⟩ := List.forall_mem_cons.mp visited
    change (Gen.fetching _ _).append (Gen.each chunks _) = _
    rw [own.part first, ih rest, Gen.append_of, List.map_cons, List.singleton_append]

theorem Objects.File.yield_range (file : store.File name tree) {depth : Nat} (enough : tree.height < depth)
    {reader : BlobReader} (stored : store.get_blob name = .ok reader.root) {start stop bound : Nat} (before : start < stop)
    (inside : stop ≤ bound) :
    ∃ parts, reader.yield_range store depth start stop = .of parts ∧
      parts.flatten = Spans.read (Spans.pieces tree 0 bound) start stop := by
  obtain ⟨chunks, found, holds⟩ := @Objects.File.descend _ _ _ _ file _ enough _ stored start stop 0 bound (by omega)
  refine ⟨_, ?_, (List.flatMap_def ..).symm⟩
  have below : ¬ (start : Int) ≥ stop := by omega
  rw [Int.ofNat_zero] at found
  rw [BlobReader.yield_range, BlobReader.chunks_covering, if_neg below, found, Gen.through_of]
  exact yields_parts holds fun piece member => of_decide_eq_true (List.mem_filter.mp member).2

/-- Where a range of a file of some size ends. -/
def range_end (total offset : Nat) : (length : Option Int) → Nat
  | none => total
  | some length => min (offset + length.toNat) total

theorem range_end_le (total offset : Nat) (length : Option Int) : range_end total offset length ≤ total := by
  cases length <;> simp [range_end]

theorem range_of_end {data : Bytes} {total : Nat} (whole : data.length = total) (offset : Nat) {length : Option Int}
    (valid : ∀ given ∈ length, 0 ≤ given) :
    (data.take (range_end total offset length)).drop offset = range_of data offset length := by
  subst whole
  cases length with
  | none => rw [range_end, List.take_length, range_of, Int.toNat_natCast]
  | some length =>
    have positive := valid length rfl
    have ends : ((offset : Int) + length).toNat = offset + length.toNat := by omega
    rw [range_end, range_of, slice_bytes, ends, Int.toNat_natCast, ← List.take_eq_take_min]

theorem Blob.size_nonneg {blob : Blob} (stored : store.get_blob name = .ok blob) : 0 ≤ blob.size := by
  refine List.sum_nonneg fun size member => ?_
  obtain ⟨entry, there, rfl⟩ := List.mem_map.mp member
  exact (stored_sizes stored entry there).le

theorem stream_valid {reader : BlobReader} (size : 0 ≤ reader.size) (depth offset : Nat) {length : Option Int}
    (valid : ∀ given ∈ length, 0 ≤ given) :
    reader.stream store depth offset length = .ok (if (offset : Int) ≥ reader.size then .of [] else
      reader.yield_range store depth offset (range_end reader.size.toNat offset length)) := by
  have natural : ¬ (offset : Int) < 0 := by omega
  have given : ∀ given ∈ length, ¬ given < 0 := fun given member => not_lt.mpr (valid given member)
  rw [BlobReader.stream, ensure, if_pos natural, ensure, if_pos given]
  simp only [bind, Except.bind, pure, Except.pure]
  split
  next => rfl
  next =>
    cases length with
    | none => rw [range_end, Int.toNat_of_nonneg size]
    | some length =>
      have positive := valid length rfl
      have ends : ((range_end reader.size.toNat offset (some length) : Nat) : Int) = min (offset + length) reader.size := by
        simp only [range_end]
        omega
      rw [ends]

theorem Objects.File.read (file : store.File name tree) {depth : Nat} (enough : tree.height < depth)
    {reader : BlobReader} (stored : store.get_blob name = .ok reader.root) (offset : Nat) {length : Option Int}
    (valid : ∀ given ∈ length, 0 ≤ given) :
    reader.read store depth offset length =
      .ok (Spans.read (Spans.pieces tree 0 reader.size.toNat) offset (range_end reader.size.toNat offset length)) := by
  have size : 0 ≤ reader.size := Blob.size_nonneg stored
  have inside := range_end_le reader.size.toNat offset length
  generalize stop_is : range_end reader.size.toNat offset length = stop at *
  rw [BlobReader.read, stream_valid size depth offset valid, stop_is]
  by_cases before : offset < stop
  next =>
    obtain ⟨parts, yields, joined⟩ := file.yield_range enough stored before inside
    rw [if_neg (by omega), yields, ← joined]
    rfl
  next =>
    have done : (offset : Int) ≥ stop := by omega
    rw [Spans.read_empty (by omega), BlobReader.yield_range, BlobReader.chunks_covering, if_pos done, Gen.through_of]
    split <;> rfl

/-- Every range read is that range of the whole file, as long as its size says, exactly when the stated spans leave no
seams. -/
theorem ranges_agree_exact (file : store.File name tree) {depth : Nat} (enough : tree.height < depth) :
    ∃ reader data, BlobReader.init store name = .ok reader ∧ reader.read store depth 0 none = .ok data ∧
      ((data.length = reader.size ∧ ∀ offset length, 0 ≤ offset → (∀ given ∈ length, 0 ≤ given) →
        reader.read store depth offset length = .ok (range_of data offset length)) ↔
        Spans.Seamless reader.size.toNat 0 (Spans.pieces tree 0 reader.size.toNat)) := by
  obtain ⟨root, stored⟩ := file.stored
  have opened : BlobReader.init store name = .ok ⟨name, root⟩ := by rw [BlobReader.init, stored]; rfl
  refine ⟨⟨name, root⟩, _, opened, file.read enough stored 0 (by simp), ?_⟩
  have reads := @Objects.File.read _ _ _ _ file _ enough ⟨name, root⟩ stored
  have size : 0 ≤ BlobReader.size ⟨name, root⟩ := Blob.size_nonneg stored
  generalize BlobReader.mk name root = reader at *
  rw [← Spans.ranges_exact file.positive, range_end]
  generalize whole : Spans.read (Spans.pieces tree 0 reader.size.toNat) 0 reader.size.toNat = data
  constructor
  next =>
    rintro ⟨length, ranges⟩
    refine ⟨by omega, fun start stop order inside => ?_⟩
    have given : ∀ given ∈ some ((stop : Int) - start), 0 ≤ given := by
      intro given member
      obtain rfl := Option.some.inj member
      omega
    have ends : range_end reader.size.toNat start (some ((stop : Int) - start)) = stop := by
      simp only [range_end]
      omega
    have same := (reads start given).symm.trans (ranges start _ (by omega) given)
    rw [ends] at same
    rw [Except.ok.inj same, range_of, slice_bytes, Int.toNat_natCast, add_sub_cancel, Int.toNat_natCast]
  next =>
    rintro ⟨length, slices⟩
    refine ⟨by omega, fun offset length natural valid => ?_⟩
    obtain ⟨start, rfl⟩ := Int.eq_ofNat_of_zero_le natural
    rw [reads start valid, ← range_of_end (by omega) start valid]
    have inside := range_end_le reader.size.toNat start length
    by_cases order : start ≤ range_end reader.size.toNat start length
    next => rw [slices start _ order inside]
    next =>
      have none := @List.length_take_le _ (range_end reader.size.toNat start length) data
      rw [Spans.read_empty (by omega), List.drop_of_length_le (by omega)]

end File

/-! ## Files that put accepts -/

def pairChunk : LedgerObject := .chunk ⟨[0x61, 0x62]⟩

def pairChunkName : ObjectName where
  digest := [
    0x64, 0x7a, 0x90, 0xff, 0xdf, 0xcb, 0xd3, 0x21, 0x83, 0xe0, 0xfa, 0x0a, 0xcb, 0xc0, 0x36, 0x6a, 0x50,
    0xf8, 0xec, 0x00, 0x3d, 0x37, 0x86, 0xd9, 0xd9, 0x62, 0xc3, 0xf6, 0x91, 0x40, 0xa1, 0x2d]
  sized := rfl

def pairLeaf : LedgerObject := .blob ⟨0, [⟨pairChunkName, 2⟩]⟩

def pairLeafName : ObjectName where
  digest := [
    0x29, 0x86, 0x63, 0xdb, 0x09, 0x13, 0xe1, 0x86, 0xb7, 0x9d, 0x86, 0xce, 0x9f, 0x8d, 0xa9, 0x07, 0xd1,
    0xe7, 0x6d, 0x65, 0xe4, 0x85, 0x66, 0x63, 0xe8, 0xd8, 0xec, 0x88, 0xc1, 0x09, 0x94, 0xa2]
  sized := rfl

/-- One chunk, twice. -/
def repeatedRoot : LedgerObject := .blob ⟨1, [⟨pairLeafName, 2⟩, ⟨pairLeafName, 2⟩]⟩

def repeatedRootName : ObjectName where
  digest := [
    0x86, 0xf2, 0x60, 0xa4, 0xe9, 0x47, 0x58, 0x6d, 0xd0, 0x73, 0x2d, 0xca, 0xde, 0xc0, 0x0d, 0xea, 0x87,
    0xa9, 0x99, 0x03, 0xf7, 0xd0, 0x17, 0x8f, 0xe3, 0x54, 0xef, 0xdd, 0xee, 0xa0, 0x43, 0x02]
  sized := rfl

/-- States one byte of the two. -/
def understatedRoot : LedgerObject := .blob ⟨0, [⟨pairChunkName, 1⟩]⟩

def understatedRootName : ObjectName where
  digest := [
    0xda, 0x1d, 0x1f, 0x3f, 0x85, 0x7d, 0x16, 0x3e, 0x7c, 0xa4, 0xd4, 0xf6, 0x13, 0x5d, 0xe3, 0xf7, 0x82,
    0xfd, 0x35, 0x83, 0x44, 0xc0, 0x2e, 0x0e, 0x07, 0x97, 0x13, 0x8c, 0xc6, 0x64, 0xb2, 0xf5]
  sized := rfl

/-- The digests are those of BLAKE3. -/
def pairDigests : Blake3 := .ofTable [
  (Layout.object pairChunk, pairChunkName.digest), (Layout.object pairLeaf, pairLeafName.digest),
  (Layout.object repeatedRoot, repeatedRootName.digest), (Layout.object understatedRoot, understatedRootName.digest)]

def pairs : Objects pairDigests :=
  ObjectStore.after_puts pairDigests
    [Layout.object pairChunk, Layout.object pairLeaf, Layout.object repeatedRoot, Layout.object understatedRoot]

theorem pairs_stored :
    pairs.get_chunk pairChunkName = .ok ⟨[0x61, 0x62]⟩ ∧ pairs.get_blob pairLeafName = .ok ⟨0, [⟨pairChunkName, 2⟩]⟩ ∧
      pairs.get_blob repeatedRootName = .ok ⟨1, [⟨pairLeafName, 2⟩, ⟨pairLeafName, 2⟩]⟩ ∧
      pairs.get_blob understatedRootName = .ok ⟨0, [⟨pairChunkName, 1⟩]⟩ ∧
      BlobReader.read pairs 1 ⟨understatedRootName, ⟨0, [⟨pairChunkName, 1⟩]⟩⟩ 0 none = .ok [0x61, 0x62] := by decide +kernel

def repeatedTree : Rose Int Nat (Nat × Bytes) := .node 1 [(2, .leaf [(2, [0x61, 0x62])]), (2, .leaf [(2, [0x61, 0x62])])]

theorem repeated_file : pairs.File repeatedRootName repeatedTree := by
  obtain ⟨chunk, node, root, -, -⟩ := pairs_stored
  have leaf : pairs.File pairLeafName (.leaf [(2, [0x61, 0x62])]) :=
    @Objects.File.leaf _ pairs pairLeafName [(⟨pairChunkName, 2⟩, [0x61, 0x62])] node (by simp [chunk])
  exact @Objects.File.node _ pairs repeatedRootName 1
    [(⟨pairLeafName, 2⟩, .leaf [(2, [0x61, 0x62])]), (⟨pairLeafName, 2⟩, .leaf [(2, [0x61, 0x62])])]
    (by decide) root (by simp [leaf])

theorem understated_file : pairs.File understatedRootName (.leaf [(1, [0x61, 0x62])]) := by
  obtain ⟨chunk, -, -, node, -⟩ := pairs_stored
  exact @Objects.File.leaf _ pairs understatedRootName [(⟨pairChunkName, 1⟩, [0x61, 0x62])] node (by simp [chunk])

theorem ranges_agree_exact_repeated :
    ∃ reader data, BlobReader.init pairs repeatedRootName = .ok reader ∧ reader.read pairs 2 0 none = .ok data ∧
      data.length = reader.size ∧ ∀ offset length, 0 ≤ offset → (∀ given ∈ length, 0 ≤ given) →
        reader.read pairs 2 offset length = .ok (range_of data offset length) := by
  have opened : BlobReader.init pairs repeatedRootName =
      .ok ⟨repeatedRootName, ⟨1, [⟨pairLeafName, 2⟩, ⟨pairLeafName, 2⟩]⟩⟩ := by
    rw [BlobReader.init, pairs_stored.2.2.1]
    rfl
  obtain ⟨reader, data, too, whole, agrees⟩ := @ranges_agree_exact _ pairs _ _ repeated_file 2 (by simp [repeatedTree, Rose.height])
  obtain rfl := Except.ok.inj (opened.symm.trans too)
  refine ⟨_, data, opened, whole, agrees.mpr ?_⟩
  have size : BlobReader.size ⟨repeatedRootName, ⟨1, [⟨pairLeafName, 2⟩, ⟨pairLeafName, 2⟩]⟩⟩ = 4 := rfl
  rw [size, repeatedTree, Spans.pieces_node]
  have fits (start : Nat) : Spans.Piece.Fits 4 (⟨start, 2, start + 2, [0x61, 0x62]⟩ : Spans.Piece UInt8) :=
    ⟨by simp, by simp⟩
  simp [Spans.place, Spans.Seamless, fits 0, fits 2]

/-- The whole read is longer than the file. -/
theorem understated_read :
    ∃ reader data, pairs.File understatedRootName (.leaf [(1, [0x61, 0x62])]) ∧
      BlobReader.init pairs understatedRootName = .ok reader ∧ reader.read pairs 1 0 none = .ok data ∧
        (data.length : Int) ≠ reader.size := by
  obtain ⟨-, -, -, node, whole⟩ := pairs_stored
  refine ⟨⟨understatedRootName, ⟨0, [⟨pairChunkName, 1⟩]⟩⟩, [0x61, 0x62], understated_file, ?_, whole, by decide⟩
  rw [BlobReader.init, node]
  rfl

end LedgerVcs
