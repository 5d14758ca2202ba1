import LedgerVcs.Api.JjKept
import LedgerVcs.Migrate.Importer
import LedgerVcs.Oci.Model

set_option autoImplicit false

/-! Where images live in a tree, and how a pull finds them. -/

namespace LedgerVcs

open Align (named)
open Text (PyStr lit)
open Wire (Bytes)

namespace Oci

/-! ## Paths -/

def IMAGES_DIR : PyStr := lit "images"

def INDEX_FILE : PyStr := lit "index.json"

def LAYOUT_FILE : PyStr := lit "oci-layout"

def BLOBS_DIR : PyStr := lit "blobs"

/-- `{"imageLayoutVersion":"1.0.0"}` -/
def LAYOUT_BYTES : Bytes := ascii (Json.dumps (.object [(lit "imageLayoutVersion", .string (lit "1.0.0"))]))

def blobs_path : PyStr := IMAGES_DIR ++ 0x2f :: BLOBS_DIR ++ 0x2f :: SHA256

def blob_path (digest : Digest) : PyStr := IMAGES_DIR ++ 0x2f :: BLOBS_DIR ++ 0x2f :: digest.algorithm ++ 0x2f :: digest.encoded

def index_path : PyStr := IMAGES_DIR ++ 0x2f :: INDEX_FILE

/-! ## Reading -/

section Reading

variable {blake3 : Blake3} (python : Python) (store : Objects blake3) (depth : Nat) (root_tree : ObjectName)

/-- `resolve_path`, or nothing where the path leads nowhere. -/
def resolved (path : PyStr) : Except PyError (Option TreeEntry) := do
  let raw ← encode_name path
  match resolve_path store depth root_tree raw with
  | .ok found => return some found.entry
  -- only a path that leads nowhere: a file in its way is an error
  | .error (.notFound _) => return none
  | .error error => throw error

/-- `_read_file` -/
def read_file (path : PyStr) : Except PyError (Option Bytes) := do
  match ← resolved store depth root_tree path with
  | none => return none
  | some entry =>
    if entry.kind ≠ .blob then return none
    else
      let reader ← BlobReader.init store entry.target
      let data ← reader.read_all store depth
      return some data

def read_index : Except PyError ImageIndex := do
  match ← read_file store depth root_tree index_path with
  | none => return .empty
  | some data => parse_index python data

def iter_blob_entries : Except PyError (List TreeEntry) := do
  match ← resolved store depth root_tree blobs_path with
  | none => return []
  | some entry => if entry.kind ≠ .tree then return [] else (iter_entries store depth entry.target none).collect

structure ImageLayout where
  index : ImageIndex
  blob_entries : List TreeEntry

def read_layout : Except PyError ImageLayout := do
  let index ← read_index python store depth root_tree
  let blob_entries ← iter_blob_entries store depth root_tree
  return ⟨index, blob_entries⟩

/-- The manifest of the image, and its exact bytes. -/
def find_manifest (image : PyStr) : Except PyError (Option (Descriptor × Bytes)) := do
  let index ← read_index python store depth root_tree
  match index.named image with
  | none => return none
  | some descriptor =>
    let data ← read_file store depth root_tree (blob_path descriptor.digest)
    return data.map fun data => (descriptor, data)

def find_blob (digest : Digest) : Except PyError (Option TreeEntry) := do
  let found ← resolved store depth root_tree (blob_path digest)
  return found.filter fun entry => entry.kind = .blob

end Reading

/-! ## Writing -/

/-- `_tree_entry` -/
def tree_entry (name : PyStr) (target : ObjectName) : TreeEntry := ⟨ascii name, .tree, target, 0, 0⟩

/-- `_file_entry` -/
def file_entry (name : PyStr) (target : ObjectName) (size : Nat) : TreeEntry := ⟨ascii name, .blob, target, MODE_REGULAR, size⟩

/-- The name of the file is the digest in hex. -/
def blob_entry (digest : Digest) (target : ObjectName) (size : Nat) : TreeEntry := file_entry digest.encoded target size

section Writing

variable (ingester : Ingester)

def ledger {α : Type} (act : Act α) : Importing α := .ledger ingester.corpus act

/-- `shape.build_tree`; each outcome is appended to what has been written. -/
def build_tree (entries : List TreeEntry) (written : List PutOutcome) : Importing (ObjectName × List PutOutcome) :=
  ledger ingester (Storing.build_tree ingester.corpus (fun written outcome => written ++ [outcome]) ingester.blake3 entries
    ingester.shape_params written)

/-- The entry of the new `images` tree, what ingesting its files came to, and what was written for the trees. -/
def build_images_entry (index : ImageIndex) (blob_entries : List TreeEntry) : Importing (TreeEntry × IngestStats × List PutOutcome) := do
  -- from the bottom up, as a tree has the names of those below
  let (algorithm_tree, written) ← build_tree ingester (by_name blob_entries) []
  let (blobs_tree, written) ← build_tree ingester [tree_entry SHA256 algorithm_tree] written
  let index_bytes ← liftExcept index.to_bytes
  let (index_name, index_stats) ← ledger ingester (ingester.ingest_bytes index_bytes)
  let (layout_name, layout_stats) ← ledger ingester (ingester.ingest_bytes LAYOUT_BYTES)
  -- the two documents beside the blobs
  let entries := [tree_entry BLOBS_DIR blobs_tree, file_entry INDEX_FILE index_name index_bytes.length,
    file_entry LAYOUT_FILE layout_name LAYOUT_BYTES.length]
  let (images, written) ← build_tree ingester (entries.insertionSort fun left right => left.name ≤ right.name) written
  return (tree_entry IMAGES_DIR images, index_stats.add layout_stats, written)

end Writing

/-! ## Paths are taken apart -/

/-- ASCII without a slash or a NUL. -/
def Plain (text : PyStr) : Prop := ∀ point ∈ text, point.val < 0x80 ∧ point ≠ 0x2f ∧ point ≠ 0

theorem mem_ascii {text : PyStr} (small : ∀ point ∈ text, point.val < 0x80) {byte : UInt8} (member : byte ∈ ascii text) :
    ∃ point ∈ text, byte.toNat = point.val := by
  obtain ⟨point, there, rfl⟩ := List.mem_map.mp member
  have := small point there
  exact ⟨point, there, by rw [UInt8.toNat_ofNat']; omega⟩

theorem decode_ascii {text : PyStr} (small : ∀ point ∈ text, point.val < 0x80) : Text.decodeUtf8 (ascii text) = some text := by
  have bytes : Text.Ascii (ascii text) := fun byte member => by
    obtain ⟨point, there, same⟩ := mem_ascii small member
    rw [same]
    exact small point there
  rw [Text.decode_ascii bytes, Text.points, ascii, List.map_map]
  refine congrArg some ((List.map_congr_left fun point member => ?_).trans (List.map_id text))
  have := small point member
  refine Fin.ext ?_
  simp only [Function.comp_apply, UInt8.toNat_ofNat', Fin.ofNat_eq_cast, Fin.val_natCast, id_eq]
  omega

theorem encode_ascii {text : PyStr} (small : ∀ point ∈ text, point.val < 0x80) : encode_name text = .ok (ascii text) := by
  rw [encode_name, Text.decodeUtf8_eq_some.mp (decode_ascii small)]

theorem plain_component {text : PyStr} (plain : Plain text) (filled : 3 ≤ text.length) (short : text.length ≤ MAX_ENTRY_NAME_BYTES) :
    validate_component (ascii text) = .ok () := by
  have small (point : Text.CodePoint) (member : point ∈ text) : point.val < 0x80 := (plain point member).1
  have length : (ascii text).length = text.length := List.length_map _
  have clear {point : Text.CodePoint} (byte : UInt8) (same : byte.toNat = point.val) (different : ∀ other ∈ text, other ≠ point) :
      byte ∉ ascii text := fun member => by
    obtain ⟨other, there, equal⟩ := mem_ascii small member
    exact different other there (Fin.ext (equal.symm.trans same))
  -- . and .. are shorter
  have free : ascii text ∉ RESERVED_NAMES := fun member => by
    rcases List.mem_cons.mp member with same | member
    next => have := congrArg List.length same; rw [length, List.length_singleton] at this; omega
    next =>
      have := congrArg List.length (List.mem_singleton.mp member)
      rw [length, List.length_cons, List.length_singleton] at this
      omega
  simp only [validate_component, Monads.except_bind_ok, ensure_ok]
  refine ⟨(), ?_, (), ⟨?_, ?_⟩, (), free, ?_⟩
  next => rw [length]; omega
  next => exact @clear 0x2f SEPARATOR rfl fun other there => (plain other there).2.1
  next => exact @clear 0 0 rfl fun other there => (plain other there).2.2
  next => rw [decode_ascii small]; exact Option.some_ne_none _

theorem parse_components {components : List Bytes} (nonempty : components ≠ [])
    (valid : ∀ component ∈ components, validate_component component = .ok ()) :
    parse_path ([SEPARATOR].intercalate components) = .ok components := by
  have parts (component : Bytes) (member : component ∈ components) : component ≠ [] ∧ SEPARATOR ∉ component := by
    have checked := valid component member
    simp only [validate_component, Monads.except_bind_ok, ensure_ok] at checked
    obtain ⟨_, lengths, _, clear, -⟩ := checked
    exact ⟨List.ne_nil_of_length_pos (by omega), clear.1⟩
  have split : ([SEPARATOR].intercalate components).splitOn SEPARATOR = components :=
    List.splitOn_intercalate SEPARATOR (fun component member => (parts component member).2) nonempty
  have kept : (components.filter fun part => part ≠ []) = components :=
    List.filter_eq_self.mpr fun component member => decide_eq_true (parts component member).1
  have checks : components.forM validate_component = .ok () := by
    clear kept split parts nonempty
    induction components with
    | nil => rfl
    | cons component components ih =>
      obtain ⟨first, others⟩ := List.forall_mem_cons.mp valid
      change (validate_component component >>= fun _ => components.forM validate_component) = _
      rw [first]
      exact ih others
  rw [parse_path, split, kept, checks]
  rfl

theorem valid_plain {digest : Digest} (valid : Digest.Valid digest) :
    Plain digest.encoded ∧ 3 ≤ digest.encoded.length ∧ digest.encoded.length ≤ MAX_ENTRY_NAME_BYTES := by
  have hex {line : PyStr} (matched : ENCODED.Matches line) : Plain line ∧ line.length = 64 := by
    obtain ⟨first, rest, rfl, ⟨low, high, lower⟩, rfl⟩ := matched
    rw [List.append_nil]
    refine ⟨fun point member => ?_, by omega⟩
    have digit := lower point member
    simp only [Text.isLowerHex, Bool.decide_or, Bool.or_eq_true, decide_eq_true_eq] at digit
    refine ⟨by omega, ?_, ?_⟩ <;> rintro rfl <;> revert digit <;> decide
  have bound : MAX_ENTRY_NAME_BYTES = 255 := rfl
  -- the pattern lets a line break follow, as Python's does
  rcases Text.Pattern.matchLine_iff.mp valid.2 with plain | ⟨line, same, plain⟩
  next =>
    obtain ⟨plain, length⟩ := hex plain
    exact ⟨plain, by omega, by omega⟩
  next =>
    obtain ⟨plain, length⟩ := hex plain
    rw [same, List.length_append, List.length_singleton]
    refine ⟨fun point member => ?_, by omega, by omega⟩
    rcases List.mem_append.mp member with there | last
    next => exact plain point there
    next => rw [List.mem_singleton.mp last]; decide

/-- The names of a path, joined. -/
def join_path (names : List PyStr) : PyStr := [0x2f].intercalate names

theorem ascii_join (names : List PyStr) : ascii (join_path names) = [SEPARATOR].intercalate (names.map ascii) := by
  induction names with
  | nil => rfl
  | cons name names ih =>
    cases names with
    | nil => simp [join_path, List.intercalate]
    | cons other names =>
      rw [join_path, List.intercalate_cons_cons, List.map_cons, List.map_cons, List.intercalate_cons_cons, ← List.map_cons, ← ih]
      simp only [ascii, List.map_append]
      rfl

/-- A name that a path may have. -/
structure Component (name : PyStr) : Prop where
  plain : Plain name
  filled : 3 ≤ name.length
  short : name.length ≤ MAX_ENTRY_NAME_BYTES

theorem path_parsed {names : List PyStr} (nonempty : names ≠ []) (components : ∀ name ∈ names, Component name) :
    encode_name (join_path names) = .ok (ascii (join_path names)) ∧ parse_path (ascii (join_path names)) = .ok (names.map ascii) := by
  constructor
  next =>
    refine encode_ascii fun point member => ?_
    rw [join_path] at member
    clear nonempty
    induction names with
    | nil => cases member
    | cons name names ih =>
      obtain ⟨first, others⟩ := List.forall_mem_cons.mp components
      cases names with
      | nil => exact (first.plain point (by simpa [List.intercalate] using member)).1
      | cons other names =>
        rw [List.intercalate_cons_cons, List.mem_append, List.mem_append] at member
        rcases member with (here | slash) | later
        next => exact (first.plain point here).1
        next => rw [List.mem_singleton.mp slash]; decide
        next => exact ih others later
  next =>
    rw [ascii_join]
    refine parse_components (by simpa using nonempty) fun component member => ?_
    obtain ⟨name, there, rfl⟩ := List.mem_map.mp member
    obtain ⟨plain, filled, short⟩ := components name there
    exact plain_component plain filled short

theorem plain_all {text : PyStr} (every : (text.all fun point => point.val < 0x80 ∧ point ≠ 0x2f ∧ point ≠ 0) = true) : Plain text :=
  fun point member => of_decide_eq_true (List.all_eq_true.mp every point member)

theorem images_component : Component IMAGES_DIR := ⟨plain_all (by decide), by decide, by decide⟩

theorem index_component : Component INDEX_FILE := ⟨plain_all (by decide), by decide, by decide⟩

theorem blobs_component : Component BLOBS_DIR := ⟨plain_all (by decide), by decide, by decide⟩

theorem algorithm_component : Component SHA256 := ⟨plain_all (by decide), by decide, by decide⟩

theorem digest_component {digest : Digest} (valid : Digest.Valid digest) : Component digest.encoded := by
  obtain ⟨plain, filled, short⟩ := valid_plain valid
  exact ⟨plain, filled, short⟩

theorem index_path_parsed : encode_name index_path = .ok (ascii index_path) ∧
    parse_path (ascii index_path) = .ok [ascii IMAGES_DIR, ascii INDEX_FILE] :=
  @path_parsed [IMAGES_DIR, INDEX_FILE] (by simp) (by
    simp only [List.forall_mem_cons]
    exact ⟨images_component, index_component, fun _ impossible => by cases impossible⟩)

theorem blobs_path_parsed : encode_name blobs_path = .ok (ascii blobs_path) ∧
    parse_path (ascii blobs_path) = .ok [ascii IMAGES_DIR, ascii BLOBS_DIR, ascii SHA256] :=
  @path_parsed [IMAGES_DIR, BLOBS_DIR, SHA256] (by simp) (by
    simp only [List.forall_mem_cons]
    exact ⟨images_component, blobs_component, algorithm_component, fun _ impossible => by cases impossible⟩)

theorem blob_path_parsed {digest : Digest} (valid : Digest.Valid digest) :
    encode_name (blob_path digest) = .ok (ascii (blob_path digest)) ∧
      parse_path (ascii (blob_path digest)) = .ok [ascii IMAGES_DIR, ascii BLOBS_DIR, ascii SHA256, ascii digest.encoded] := by
  have joined : blob_path digest = join_path [IMAGES_DIR, BLOBS_DIR, SHA256, digest.encoded] := by
    rw [blob_path, valid.1]
    simp [join_path, List.intercalate]
  rw [joined]
  refine path_parsed (by simp) ?_
  simp only [List.forall_mem_cons]
  exact ⟨images_component, blobs_component, algorithm_component, digest_component valid, fun _ impossible => by cases impossible⟩

/-! ## What is read of a layout -/

section Layouts

variable {blake3 : Blake3} {store later : Objects blake3} {params : ShapeParams}

/-- The tree is an image layout with these bytes for its index, and these entries for its blobs. -/
structure Laid (store : Objects blake3) (params : ShapeParams) (images : ObjectName) (index_bytes : Bytes) (blob_entries : List TreeEntry) :
    Prop where
  parts : ∃ blobs algorithm index_name layout_name, Makes store params [tree_entry BLOBS_DIR blobs,
      file_entry INDEX_FILE index_name index_bytes.length, file_entry LAYOUT_FILE layout_name LAYOUT_BYTES.length] images ∧
    Makes store params [tree_entry SHA256 algorithm] blobs ∧ Makes store params blob_entries algorithm ∧
    Filed store index_name index_bytes ∧ Filed store layout_name LAYOUT_BYTES

theorem Laid.within {images : ObjectName} {index_bytes : Bytes} {blob_entries : List TreeEntry}
    (laid : Laid store params images index_bytes blob_entries) (within : store.Within later) :
    Laid later params images index_bytes blob_entries := by
  obtain ⟨blobs, algorithm, index_name, layout_name, top, middle, bottom, index, layout⟩ := laid.parts
  exact ⟨blobs, algorithm, index_name, layout_name, top.grow within, middle.grow within, bottom.grow within, index.within within,
    layout.within within⟩

/-- The root has the entry for its images, or none. -/
structure Rooting (store : Objects blake3) (params : ShapeParams) (root : ObjectName) (images : Option TreeEntry) : Prop where
  entries : ∃ entries, Makes store params entries root ∧ named TreeEntry.name entries (ascii IMAGES_DIR) = images

theorem Rooting.within {root : ObjectName} {images : Option TreeEntry} (rooting : Rooting store params root images)
    (within : store.Within later) : Rooting later params root images := by
  obtain ⟨entries, makes, found⟩ := rooting.entries
  exact ⟨entries, makes.grow within, found⟩

section Resolving

variable {path : PyStr} {raw : Bytes} {components : List Bytes} {depth : Nat} {root : ObjectName}

theorem resolved_found (encoded : encode_name path = .ok raw) (parsed : parse_path raw = .ok components) (nonempty : components ≠ [])
    {entry : TreeEntry} (found : resolve_from store depth root components = .ok entry) :
    resolved store depth root path = .ok (some entry) := by
  simp only [resolved, encoded, bind, Except.bind, resolve_path_parsed parsed, if_neg nonempty, found]
  rfl

theorem resolved_missing (encoded : encode_name path = .ok raw) (parsed : parse_path raw = .ok components) (nonempty : components ≠ [])
    {message : String} (missing : resolve_from store depth root components = .error (.notFound message)) :
    resolved store depth root path = .ok none := by
  simp only [resolved, encoded, bind, Except.bind, resolve_path_parsed parsed, if_neg nonempty, missing]
  rfl

end Resolving

section Steps

variable {entries : List TreeEntry} {root target : ObjectName} {name : Bytes} {rest : List Bytes} {depth : Nat}

theorem resolve_last (makes : Makes store params entries root) (enough : LEVELS ≤ depth) {entry : TreeEntry}
    (found : named TreeEntry.name entries name = some entry) : resolve_from store depth root [name] = .ok entry := by
  rw [makes.resolves enough, resolve_in, found]
  rfl

theorem resolve_inner (makes : Makes store params entries root) (enough : LEVELS ≤ depth) {entry : TreeEntry}
    (found : named TreeEntry.name entries name = some entry) (tree : entry.kind = .tree) (further : rest ≠ []) :
    resolve_from store depth root (name :: rest) = resolve_from store depth entry.target rest := by
  rw [makes.resolves enough, resolve_in, found]
  dsimp only
  rw [if_neg further, if_neg (not_not_intro tree)]

theorem resolve_nowhere (makes : Makes store params entries root) (enough : LEVELS ≤ depth)
    (missing : named TreeEntry.name entries name = none) :
    resolve_from store depth root (name :: rest) = .error (.notFound "path does not exist") := by
  rw [makes.resolves enough, resolve_in, missing]
  rfl

end Steps

/-! ### With images -/

section Images

variable {root images : ObjectName} {index_bytes : Bytes} {blob_entries : List TreeEntry} {depth : Nat}

theorem images_resolve (rooting : Rooting store params root (some (tree_entry IMAGES_DIR images))) (enough : LEVELS ≤ depth)
    {rest : List Bytes} (further : rest ≠ []) :
    resolve_from store depth root (ascii IMAGES_DIR :: rest) = resolve_from store depth images rest := by
  obtain ⟨entries, makes, found⟩ := rooting.entries
  exact resolve_inner makes enough found rfl further

theorem index_resolved (rooting : Rooting store params root (some (tree_entry IMAGES_DIR images)))
    (laid : Laid store params images index_bytes blob_entries) :
    ∃ entry : TreeEntry, entry.kind = .blob ∧ Filed store entry.target index_bytes ∧
      ∀ depth, LEVELS ≤ depth → resolved store depth root index_path = .ok (some entry) := by
  obtain ⟨blobs, algorithm, index_name, layout_name, top, -, -, filed, -⟩ := laid.parts
  refine ⟨file_entry INDEX_FILE index_name index_bytes.length, rfl, filed, fun depth enough => ?_⟩
  refine resolved_found index_path_parsed.1 index_path_parsed.2 (by simp) ?_
  rw [images_resolve rooting enough (by simp)]
  exact resolve_last top enough rfl

theorem blobs_resolved (rooting : Rooting store params root (some (tree_entry IMAGES_DIR images)))
    (laid : Laid store params images index_bytes blob_entries) :
    ∃ algorithm, Makes store params blob_entries algorithm ∧
      ∀ depth, LEVELS ≤ depth → resolved store depth root blobs_path = .ok (some (tree_entry SHA256 algorithm)) ∧
        ∀ name, resolve_from store depth root [ascii IMAGES_DIR, ascii BLOBS_DIR, ascii SHA256, name] =
          resolve_from store depth algorithm [name] := by
  obtain ⟨blobs, algorithm, index_name, layout_name, top, middle, bottom, -, -⟩ := laid.parts
  refine ⟨algorithm, bottom, fun depth enough => ⟨?_, fun name => ?_⟩⟩
  next =>
    refine resolved_found blobs_path_parsed.1 blobs_path_parsed.2 (by simp) ?_
    rw [images_resolve rooting enough (by simp), resolve_inner top enough rfl rfl (by simp)]
    exact resolve_last middle enough rfl
  next =>
    rw [images_resolve rooting enough (by simp), resolve_inner top enough rfl rfl (by simp)]
    exact @resolve_inner _ _ _ _ _ _ [name] _ middle enough (tree_entry SHA256 algorithm) rfl rfl (by simp)

theorem blob_resolved (rooting : Rooting store params root (some (tree_entry IMAGES_DIR images)))
    (laid : Laid store params images index_bytes blob_entries) (enough : LEVELS ≤ depth) {digest : Digest} (valid : Digest.Valid digest) :
    resolved store depth root (blob_path digest) = .ok (named TreeEntry.name blob_entries (ascii digest.encoded)) := by
  obtain ⟨algorithm, makes, resolves⟩ := blobs_resolved rooting laid
  obtain ⟨-, below⟩ := resolves depth enough
  have parsed := blob_path_parsed valid
  cases found : named TreeEntry.name blob_entries (ascii digest.encoded) with
  | some entry => exact resolved_found parsed.1 parsed.2 (by simp) ((below _).trans (resolve_last makes enough found))
  | none => exact resolved_missing parsed.1 parsed.2 (by simp) ((below _).trans (resolve_nowhere makes enough found))

theorem read_file_filed {path : PyStr} {entry : TreeEntry} {content : Bytes} (file : entry.kind = .blob)
    (filed : Filed store entry.target content) :
    ∃ enough, ∀ depth, enough ≤ depth → resolved store depth root path = .ok (some entry) →
      read_file store depth root path = .ok (some content) := by
  obtain ⟨enough, streams⟩ := filed.streams
  refine ⟨enough, fun depth deep found => ?_⟩
  obtain ⟨reader, parts, init, stream, joined⟩ := streams depth deep
  have whole : reader.read_all store depth = .ok content := by
    rw [BlobReader.read_all, BlobReader.read, stream, ← joined]
    rfl
  simp only [read_file, found, bind, Except.bind, file, init, whole]
  rfl

/-- The layout is read as what it was laid out from. -/
theorem layout_read {python : Python} {index : ImageIndex} (rooting : Rooting store params root (some (tree_entry IMAGES_DIR images)))
    (laid : Laid store params images index_bytes blob_entries) (parsed : parse_index python index_bytes = .ok index) :
    ∃ enough, ∀ depth, enough ≤ depth → read_index python store depth root = .ok index ∧
      iter_blob_entries store depth root = .ok blob_entries := by
  obtain ⟨entry, file, filed, resolves⟩ := index_resolved rooting laid
  obtain ⟨enough, reads⟩ := @read_file_filed _ store root index_path entry index_bytes file filed
  obtain ⟨algorithm, makes, blobs⟩ := blobs_resolved rooting laid
  refine ⟨max enough LEVELS, fun depth deep => ⟨?_, ?_⟩⟩
  next =>
    have read := reads depth (le_trans (le_max_left _ _) deep) (resolves depth (le_trans (le_max_right _ _) deep))
    simp only [read_index, read, bind, Except.bind, parsed]
  next =>
    have levels : LEVELS ≤ depth := le_trans (le_max_right _ _) deep
    obtain ⟨emitted, built, held⟩ := makes
    obtain ⟨-, -, -, -, lists, -⟩ := built_reads built held levels
    have listed : (iter_entries store depth algorithm none).collect = .ok blob_entries := by rw [lists, Gen.collect_of]
    simp only [iter_blob_entries, (blobs depth levels).1, bind, Except.bind]
    exact listed

end Images

/-! ### Without images -/

section NoImages

variable {root : ObjectName}

theorem nothing_resolved (rooting : Rooting store params root none) {depth : Nat} (enough : LEVELS ≤ depth) {path : PyStr} {raw : Bytes}
    {rest : List Bytes} (encoded : encode_name path = .ok raw) (parsed : parse_path raw = .ok (ascii IMAGES_DIR :: rest)) :
    resolved store depth root path = .ok none := by
  obtain ⟨entries, makes, missing⟩ := rooting.entries
  exact resolved_missing encoded parsed (by simp) (resolve_nowhere makes enough missing)

theorem empty_read {python : Python} (rooting : Rooting store params root none) {depth : Nat} (enough : LEVELS ≤ depth) :
    read_index python store depth root = .ok .empty ∧ iter_blob_entries store depth root = .ok [] := by
  have index := nothing_resolved rooting enough index_path_parsed.1 index_path_parsed.2
  have blobs := nothing_resolved rooting enough blobs_path_parsed.1 blobs_path_parsed.2
  constructor
  next => simp only [read_index, read_file, index, bind, Except.bind]; rfl
  next => simp only [iter_blob_entries, blobs, bind, Except.bind]; rfl

end NoImages

end Layouts

/-! ## What writing a layout leaves -/

/-- Objects are only added, and the rows of the digest index stay as they are. -/
structure Extends (before after : ImportState) : Prop where
  world : before.world.Keeps after.world
  digests : after.digests = before.digests

theorem Extends.refl (state : ImportState) : Extends state state := ⟨.refl _, rfl⟩

theorem Extends.trans {first second third : ImportState} (early : Extends first second) (late : Extends second third) :
    Extends first third :=
  ⟨early.world.trans late.world, late.digests.trans early.digests⟩

/-- Whether it returns or fails, the code does nothing else. -/
def Adding {α : Type} (act : Importing α) : Prop := ∀ start, Failing.Triple (Extends start) act (fun _ => Extends start) (Extends start)

section Adding

variable {α β : Type} {ingester : Ingester} {state after : ImportState}

theorem Adding.bind {act : Importing α} {rest : α → Importing β} (first : Adding act) (others : ∀ value, Adding (rest value)) :
    Adding (act >>= rest) := fun start => Failing.triple_bind (first start) fun value => others value start

theorem adding_pure (value : α) : Adding (pure value) := fun _ => Failing.triple_pure fun _ extends_ => extends_

theorem adding_except (outcome : Except PyError α) : Adding (liftExcept outcome : Importing α) := fun _ =>
  Failing.triple_mono (Failing.triple_except fun _ extends_ => extends_) (fun _ extends_ => extends_) (fun _ _ met => met.1) fun _ met => met

theorem adding_ledger {act : Act α} (adds : Adds ingester.corpus act) : Adding (ledger ingester act) := by
  intro start state extends_
  have later := adds state.world
  rw [ledger, Importing.ledger, Failing.exec_ofStep]
  rcases ran : runs ingester.corpus act state.world with ⟨error | value, world⟩ <;>
    rw [ran] at later <;> exact extends_.trans ⟨later, rfl⟩

theorem Adding.mapM {items : List α} {round : α → Importing β} (rounds : ∀ item, Adding (round item)) : Adding (items.mapM round) := by
  induction items with
  | nil => exact adding_pure []
  | cons item items ih =>
    rw [List.mapM_cons]
    exact (rounds item).bind fun _ => ih.bind fun _ => adding_pure _

theorem Adding.leaves {act : Importing α} (adding : Adding act) : Extends state (act.exec state).2 := by
  have met := adding state state (.refl state)
  rcases ran : act.exec state with ⟨error | value, later⟩ <;> rw [ran] at met <;> exact met

theorem Adding.ran {act : Importing α} (adding : Adding act) {outcome : Except PyError α} (ran : act.exec state = (outcome, after)) :
    Extends state after := by
  have leaves := @Adding.leaves _ state _ adding
  rwa [ran] at leaves

theorem adding_build (entries : List TreeEntry) (written : List PutOutcome) : Adding (build_tree ingester entries written) :=
  adding_ledger (Storing.build_tree_adds entries ingester.shape_params written)

theorem adding_bytes (data : Bytes) : Adding (ledger ingester (ingester.ingest_bytes data)) := adding_ledger (ingest_bytes_adds data)

theorem adding_images_entry (index : ImageIndex) (blob_entries : List TreeEntry) :
    Adding (build_images_entry ingester index blob_entries) := by
  refine (adding_build _ _).bind fun algorithm => (adding_build _ _).bind fun blobs => (adding_except _).bind fun index_bytes => ?_
  exact (adding_bytes _).bind fun index => (adding_bytes _).bind fun layout => (adding_build _ _).bind fun images => adding_pure _

theorem except_ran {outcome : Except PyError α} {value : α} :
    (liftExcept outcome : Importing α).exec state = (.ok value, after) ↔ outcome = .ok value ∧ after = state := by
  rw [Failing.exec_liftExcept, Prod.mk.injEq, eq_comm (a := after)]

theorem ledger_ran {act : Act α} {value : α} (ran : (ledger ingester act).exec state = (.ok value, after)) :
    runs ingester.corpus act state.world = (.ok value, after.world) ∧ after.digests = state.digests := by
  rw [ledger, Importing.ledger, Failing.exec_ofStep] at ran
  obtain ⟨same, rfl⟩ := Prod.mk.inj ran
  exact ⟨Prod.ext same rfl, rfl⟩

end Adding

section Written

variable {ingester : Ingester} (spelled : ingester.corpus.Spelled ingester.blake3) {state after : ImportState}

theorem Extends.within (extends_ : Extends state after) : (state.world.objects spelled).Within (after.world.objects spelled) :=
  extends_.world.within spelled

theorem bytes_filed {data : Bytes} {name : ObjectName} {stats : IngestStats}
    (ran : (ledger ingester (ingester.ingest_bytes data)).exec state = (.ok (name, stats), after)) :
    Filed (after.world.objects spelled) name data :=
  (@write_bytes_filed ingester spelled data (.none, state.world) (stats, after.world) name (ledger_ran ran).1).2

theorem tree_made {entries : List TreeEntry} {written written' : List PutOutcome} {name : ObjectName}
    (ran : (build_tree ingester entries written).exec state = (.ok (name, written'), after)) :
    Makes (after.world.objects spelled) ingester.shape_params entries name := by
  obtain ⟨added, outcomes, emits, -, -, -, stocks⟩ :=
    Storing.build_tree_emits spelled _ _ (written, state.world) name (written', after.world) (ledger_ran ran).1
  have made := emits []
  rw [List.nil_append] at made
  exact ⟨added, made, World.stocks_holds spelled stocks⟩

theorem files_in_order (blobs index_name layout_name : ObjectName) (size : Nat) :
    ([tree_entry BLOBS_DIR blobs, file_entry INDEX_FILE index_name size,
        file_entry LAYOUT_FILE layout_name LAYOUT_BYTES.length].insertionSort fun left right => left.name ≤ right.name) =
      [tree_entry BLOBS_DIR blobs, file_entry INDEX_FILE index_name size,
        file_entry LAYOUT_FILE layout_name LAYOUT_BYTES.length] := by
  have first : ascii BLOBS_DIR ≤ ascii INDEX_FILE := by decide
  have second : ascii INDEX_FILE ≤ ascii LAYOUT_FILE := by decide
  have third : ascii BLOBS_DIR ≤ ascii LAYOUT_FILE := by decide
  refine List.Pairwise.insertionSort_eq (List.pairwise_cons.mpr ⟨?_, List.pairwise_pair.mpr second⟩)
  simp only [List.forall_mem_cons]
  exact ⟨first, third, fun _ impossible => by cases impossible⟩

/-- The new entry is for a layout of the index and of the blobs. -/
theorem images_entry_laid {index : ImageIndex} {blob_entries : List TreeEntry} {entry : TreeEntry} {stats : IngestStats}
    {written : List PutOutcome}
    (ran : (build_images_entry ingester index blob_entries).exec state = (.ok (entry, stats, written), after)) :
    ∃ images index_bytes, entry = tree_entry IMAGES_DIR images ∧ index.to_bytes = .ok index_bytes ∧
      Laid (after.world.objects spelled) ingester.shape_params images index_bytes (by_name blob_entries) := by
  obtain ⟨⟨algorithm, written₁⟩, state₁, algorithm_ran, ran⟩ := Failing.exec_bind_ok.mp ran
  obtain ⟨⟨blobs, written₂⟩, state₂, blobs_ran, ran⟩ := Failing.exec_bind_ok.mp ran
  obtain ⟨index_bytes, state₃, encodes, rest⟩ := Failing.exec_bind_ok.mp ran
  obtain ⟨encoded, rfl⟩ := except_ran.mp encodes
  obtain ⟨⟨index_name, index_stats⟩, state₄, index_ran, ran⟩ := Failing.exec_bind_ok.mp rest
  obtain ⟨⟨layout_name, layout_stats⟩, state₅, layout_ran, ran⟩ := Failing.exec_bind_ok.mp ran
  obtain ⟨⟨images, written₃⟩, state₆, images_ran, ran⟩ := Failing.exec_bind_ok.mp ran
  cases ran
  have step₂ := (adding_build _ _).ran blobs_ran
  have step₄ := (adding_bytes _).ran index_ran
  have step₅ := (adding_bytes _).ran layout_ran
  have step₆ := (adding_build _ _).ran images_ran
  have top := tree_made spelled images_ran
  rw [files_in_order] at top
  refine ⟨images, index_bytes, rfl, encoded, blobs, algorithm, index_name, layout_name, top, ?_, ?_, ?_, ?_⟩
  next => exact (tree_made spelled blobs_ran).grow (((step₄.trans step₅).trans step₆).within spelled)
  next => exact (tree_made spelled algorithm_ran).grow ((((step₂.trans step₄).trans step₅).trans step₆).within spelled)
  next => exact (bytes_filed spelled index_ran).within ((step₅.trans step₆).within spelled)
  next => exact (bytes_filed spelled layout_ran).within (step₆.within spelled)

end Written

end Oci

end LedgerVcs
