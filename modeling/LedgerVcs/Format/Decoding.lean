import LedgerVcs.Format.Encoding

set_option autoImplicit false

namespace LedgerVcs

open Wire (Bytes Writes Parses toBE toSigned FitsSigned)
open Text (PyStr)

theorem text_parses {field : Cursor Bytes} {maximum width : Nat} (what : String)
    (parses : Parses field (fun data => data.length ≤ maximum) (Layout.sized width)) :
    Parses (decode_text field what) (Fits.text maximum) fun text => Layout.sized width (Layout.text text) := by
  have decoded {raw : Bytes} {text : PyStr} : decode_utf8 raw what = .ok text ↔ encode_utf8 text = .ok raw := by
    rw [encode_utf8_ok, ← Text.decodeUtf8_eq_some, decode_utf8]
    cases Text.decodeUtf8 raw <;> simp
  refine (parses.bind Layout.text (fun raw => Parses.check (decode_utf8 raw what)) ?_).congr ?_ ?_
  next =>
    intro raw text _ ok
    exact text_of_encoded (decoded.mp ok)
  next =>
    intro text
    rw [decoded]
    constructor
    next => rintro ⟨bound, encoded⟩; exact ⟨_, encode_utf8_ok.mp encoded, bound⟩
    next =>
      rintro ⟨raw, encoded, bound⟩
      rw [← encode_utf8_ok] at encoded
      rw [text_of_encoded encoded]
      exact ⟨bound, encoded⟩
  next => simp

theorem u8_parses : Parses Cursor.u8 Fits.u8 fun value => toBE 1 value.toNat :=
  (unsigned_parses 1).congr (fun value => by simp only [Fits.u8, U8_MAX]; omega) fun _ _ => rfl

theorem u16_parses : Parses Cursor.u16 Fits.u16 fun value => toBE 2 value.toNat :=
  (unsigned_parses 2).congr (fun value => by simp only [Fits.u16, U16_MAX]; omega) fun _ _ => rfl

theorem u64_parses : Parses Cursor.u64 Fits.u64 fun value => toBE 8 value.toNat :=
  (unsigned_parses 8).congr (fun value => by simp only [Fits.u64, U64_MAX]; omega) fun _ _ => rfl

theorem bytes_u8_parses : Parses Cursor.bytes_u8 (fun data => data.length ≤ U8_MAX) (Layout.sized 1) :=
  (prefixed_parses 1).congr (fun data => by simp only [U8_MAX]; omega) fun _ _ => rfl

theorem bytes_u32_parses : Parses Cursor.bytes_u32 (fun data => data.length ≤ U32_MAX) (Layout.sized 4) :=
  (prefixed_parses 4).congr (fun data => by simp only [U32_MAX]; omega) fun _ _ => rfl

theorem blob_entry_parses : Parses decode_blob_entry Fits.blobEntry Layout.blobEntry := by
  refine (name_parses.bind BlobEntry.target (fun target => u64_parses.bind BlobEntry.size
    (fun size => (Parses.check (validate_blob_entry ⟨target, size⟩)).bind (fun _ => ())
      (fun _ => Parses.done (⟨target, size⟩ : BlobEntry)) fun _ _ => rfl) ?_) ?_).congr ?_ ?_
  next => rintro size entry _ ⟨_, same⟩; exact (congrArg BlobEntry.size same).symm
  next => rintro target entry _ ⟨_, _, same⟩; exact (congrArg BlobEntry.target same).symm
  next => intro entry; simp [validate_blob_entry, Fits.blobEntry, and_comm]
  next => intro entry _; simp [Layout.blobEntry]

theorem entry_kind_parses : Parses (do let kind_byte ← Cursor.u8; liftM (entry_kind kind_byte) : Cursor EntryKind)
    (fun _ => True) fun kind => toBE 1 kind.value.toNat := by
  have found {tag : Int} {kind : EntryKind} : entry_kind tag = .ok kind ↔ tag = kind.value := by
    rw [← EntryKind.ofValue_eq_some, entry_kind]
    cases EntryKind.ofValue? tag <;> simp
  refine (u8_parses.bind EntryKind.value (fun tag => Parses.check (entry_kind tag)) ?_).congr ?_ ?_
  next => intro tag kind _ ok; exact (found.mp ok).symm
  next => intro kind; exact iff_of_true ⟨entry_kind_small kind, found.mpr rfl⟩ trivial
  next => simp

theorem tree_entry_parses : Parses decode_tree_entry Fits.treeEntry Layout.treeEntry := by
  have shape : decode_tree_entry = (do
      let name ← Cursor.bytes_u8
      let kind ← (do let kind_byte ← Cursor.u8; liftM (entry_kind kind_byte) : Cursor EntryKind)
      let target ← Cursor.name
      let mode ← Cursor.u16
      let size ← Cursor.u64
      return { name, kind, target, mode, size }) := by
    simp only [decode_tree_entry, bind_assoc]
  rw [shape]
  refine (bytes_u8_parses.bind TreeEntry.name (fun name => entry_kind_parses.bind TreeEntry.kind
    (fun kind => name_parses.bind TreeEntry.target (fun target => u16_parses.bind TreeEntry.mode
      (fun mode => u64_parses.bind TreeEntry.size
        (fun size => Parses.done (⟨name, kind, target, mode, size⟩ : TreeEntry)) ?_) ?_) ?_) ?_) ?_).congr ?_ ?_
  next => intro size entry _ same; exact (congrArg TreeEntry.size same).symm
  next => rintro mode entry _ ⟨_, same⟩; exact (congrArg TreeEntry.mode same).symm
  next => rintro target entry _ ⟨_, _, same⟩; exact (congrArg TreeEntry.target same).symm
  next => rintro kind entry _ ⟨_, _, _, same⟩; exact (congrArg TreeEntry.kind same).symm
  next => rintro name entry _ ⟨_, _, _, _, same⟩; exact (congrArg TreeEntry.name same).symm
  next => intro entry; simp [Fits.treeEntry]
  next => intro entry _; simp [Layout.treeEntry]

theorem metadata_item_parses : Parses decode_metadata_item Fits.metadataItem Layout.metadataItem := by
  refine ((text_parses _ bytes_u8_parses).bind Prod.fst (fun key => (text_parses _ bytes_u32_parses).bind Prod.snd
    (fun value => Parses.done ((key, value) : PyStr × PyStr)) ?_) ?_).congr ?_ ?_
  next => intro value item _ same; exact (congrArg Prod.snd same).symm
  next => rintro key item _ ⟨_, same⟩; exact (congrArg Prod.fst same).symm
  next => intro item; simp [Fits.metadataItem]
  next => intro item _; simp [Layout.metadataItem]

theorem count_below {count : Nat} :
    0 ≤ (count : Int) ∧ (count : Int) < (256 ^ 4 : Nat) ↔ count ≤ U32_MAX := by
  simp only [U32_MAX]
  omega

theorem blob_parses (framed_length : Nat) :
    Parses (decode_blob framed_length) (fun blob => Fits.blob blob ∧ framed_length ≤ MAX_NODE_BYTES)
      Layout.blob := by
  refine (u8_parses.bind Blob.level (fun level => (unsigned_parses 4).bind (fun blob : Blob => (blob.entries.length : Int))
    (fun count => (Wire.repeat_parses blob_entry_parses count.toNat).bind Blob.entries
      (fun entries => (Parses.check (validate_node_level level count.toNat "blob")).bind (fun _ => ())
        (fun _ => (Parses.check (reject_oversized_node framed_length "blob")).bind (fun _ => ())
          (fun _ => Parses.done (⟨level, entries⟩ : Blob)) fun _ _ => rfl) fun _ _ => rfl) ?_) ?_) ?_).congr ?_ ?_
  next => rintro entries blob _ ⟨_, _, same⟩; exact (congrArg Blob.entries same).symm
  next => rintro count blob bound ⟨⟨length, _⟩, _⟩; omega
  next => rintro level blob _ ⟨_, _, _, _, same⟩; exact (congrArg Blob.level same).symm
  next =>
    intro blob
    simp only [count_below, Int.toNat_natCast, reject_oversized_node, ensure_ok, Fits.blob, Fits.node, and_true,
      true_and]
    tauto
  next => intro blob _; simp [Layout.blob, Layout.node]

theorem tree_parses (framed_length : Nat) :
    Parses (decode_tree framed_length) (fun tree => Fits.tree tree ∧ framed_length ≤ MAX_NODE_BYTES)
      Layout.tree := by
  refine (u8_parses.bind Tree.level (fun level => (unsigned_parses 4).bind (fun tree : Tree => (tree.entries.length : Int))
    (fun count => (Wire.repeat_parses tree_entry_parses count.toNat).bind Tree.entries
      (fun entries => (Parses.check (validate_node_level level count.toNat "tree")).bind (fun _ => ())
        (fun _ => (Parses.check (validate_tree_entries ⟨level, entries⟩)).bind (fun _ => ())
          (fun _ => (Parses.check (reject_oversized_node framed_length "tree")).bind (fun _ => ())
            (fun _ => Parses.done (⟨level, entries⟩ : Tree)) fun _ _ => rfl) fun _ _ => rfl) fun _ _ => rfl)
      ?_) ?_) ?_).congr ?_ ?_
  next => rintro entries tree _ ⟨_, _, _, same⟩; exact (congrArg Tree.entries same).symm
  next => rintro count tree bound ⟨⟨length, _⟩, _⟩; omega
  next => rintro level tree _ ⟨_, _, _, _, _, same⟩; exact (congrArg Tree.level same).symm
  next =>
    intro tree
    simp only [count_below, Int.toNat_natCast, reject_oversized_node, ensure_ok, Fits.tree, Fits.node, and_true,
      true_and]
    tauto
  next => intro tree _; simp [Layout.tree, Layout.node]

/-- The change id that a decoder can produce: lower-case digits. -/
def CanonicalChangeId (commit : Commit) : Prop := ∀ point ∈ commit.change_id.value, Text.isLowerHex point

theorem change_id_parses :
    Parses (do let raw ← Cursor.raw CHANGE_ID_BYTES; return ⟨Text.hex raw⟩ : Cursor ChangeId)
      (fun change_id => change_id.value.length = CHANGE_ID_BYTES * 2 ∧
        ∀ point ∈ change_id.value, Text.isLowerHex point) Layout.changeId := by
  refine ((Wire.take_parses _ CHANGE_ID_BYTES).bind Layout.changeId
    (fun raw => Parses.done (⟨Text.hex raw⟩ : ChangeId)) ?_).congr ?_ ?_
  next =>
    rintro raw _ _ rfl
    rw [Layout.changeId, Text.fromhex_hex, Option.getD_some]
  next =>
    intro change_id
    constructor
    next =>
      rintro ⟨length, same⟩
      have printed := congrArg ChangeId.value same
      rw [← printed, Text.length_hex, length]
      exact ⟨rfl, Text.hex_lower _⟩
    next =>
      rintro ⟨length, lower⟩
      obtain ⟨raw, printed⟩ := Text.exists_hex CHANGE_ID_BYTES change_id.value (by omega) lower
      have read : Layout.changeId change_id = raw := by
        rw [Layout.changeId, printed, Text.fromhex_hex, Option.getD_some]
      rw [read, ← printed]
      rw [printed, Text.length_hex] at length
      exact ⟨by omega, rfl⟩
  next => simp

theorem commit_parses :
    Parses decode_commit (fun commit => Fits.commit commit ∧ CanonicalChangeId commit) Layout.commit := by
  have shape : decode_commit = (do
      let tree ← Cursor.name
      let parent_count ← Cursor.u16
      let parents ← Wire.repeatP Cursor.name parent_count.toNat
      let change_id ← (do let raw ← Cursor.raw CHANGE_ID_BYTES; return ⟨Text.hex raw⟩ : Cursor ChangeId)
      let author ← decode_text Cursor.bytes_u8 "author"
      let committer ← decode_text Cursor.bytes_u8 "committer"
      let timestamp_us ← Cursor.i64
      let message ← decode_text Cursor.bytes_u32 "message"
      let metadata_count ← Cursor.u32
      let metadata ← Wire.repeatP decode_metadata_item metadata_count.toNat
      validate_commit { tree, parents, change_id, author, committer, timestamp_us, message, metadata }
      return { tree, parents, change_id, author, committer, timestamp_us, message, metadata }) := by
    simp only [decode_commit, bind_assoc, pure_bind]
  rw [shape]
  refine (name_parses.bind Commit.tree (fun tree =>
    u16_parses.bind (fun commit : Commit => (commit.parents.length : Int)) (fun parent_count =>
    (Wire.repeat_parses name_parses parent_count.toNat).bind Commit.parents (fun parents =>
    change_id_parses.bind Commit.change_id (fun change_id =>
    (text_parses _ bytes_u8_parses).bind Commit.author (fun author =>
    (text_parses _ bytes_u8_parses).bind Commit.committer (fun committer =>
    i64_parses.bind Commit.timestamp_us (fun timestamp_us =>
    (text_parses _ bytes_u32_parses).bind Commit.message (fun message =>
    (unsigned_parses 4).bind (fun commit : Commit => (commit.metadata.length : Int)) (fun metadata_count =>
    (Wire.repeat_parses metadata_item_parses metadata_count.toNat).bind Commit.metadata (fun metadata =>
    (Parses.check (validate_commit
      ⟨tree, parents, change_id, author, committer, timestamp_us, message, metadata⟩)).bind (fun _ => ())
      (fun _ => Parses.done (⟨tree, parents, change_id, author, committer, timestamp_us, message, metadata⟩ : Commit))
      fun _ _ => rfl) ?_) ?_) ?_) ?_) ?_) ?_) ?_) ?_) ?_) ?_).congr ?_ ?_
  next => rintro metadata commit _ ⟨_, same⟩; exact (congrArg Commit.metadata same).symm
  next => rintro count commit bound ⟨⟨length, _⟩, _⟩; omega
  next => rintro message commit _ ⟨_, _, _, same⟩; exact (congrArg Commit.message same).symm
  next => rintro timestamp commit _ ⟨_, _, _, _, same⟩; exact (congrArg Commit.timestamp_us same).symm
  next => rintro committer commit _ ⟨_, _, _, _, _, same⟩; exact (congrArg Commit.committer same).symm
  next => rintro author commit _ ⟨_, _, _, _, _, _, same⟩; exact (congrArg Commit.author same).symm
  next => rintro change commit _ ⟨_, _, _, _, _, _, _, same⟩; exact (congrArg Commit.change_id same).symm
  next => rintro parents commit _ ⟨_, _, _, _, _, _, _, _, same⟩; exact (congrArg Commit.parents same).symm
  next => rintro count commit ⟨nonneg, _⟩ ⟨⟨length, _⟩, _⟩; omega
  next => rintro tree commit _ ⟨_, _, _, _, _, _, _, _, _, _, same⟩; exact (congrArg Commit.tree same).symm
  next =>
    intro commit
    have parents : Fits.u16 commit.parents.length ↔ commit.parents.length ≤ U16_MAX := count_fits
    simp only [count_below, parents, Int.toNat_natCast, Fits.commit, CanonicalChangeId, validate_commit_ok,
      implies_true, and_true, true_and]
    tauto
  next => intro commit _; simp [Layout.commit]

/-! ## A whole object -/

def Canonical : LedgerObject → Prop
  | .commit commit => CanonicalChangeId commit
  | _ => True

theorem peek_kind_ok {framed : Bytes} {kind : ObjectKind} :
    peek_kind framed = .ok kind ↔ ∃ version payload, framed = kind.value :: version :: payload := by
  rcases framed with _ | ⟨tag, _ | ⟨version, payload⟩⟩
  next => simp [peek_kind]
  next => simp [peek_kind]
  next =>
    have found : peek_kind (tag :: version :: payload) = .ok kind ↔ ObjectKind.ofValue? tag = some kind := by
      rw [peek_kind]
      cases ObjectKind.ofValue? tag <;> simp
    simp [found, ObjectKind.ofValue_eq_some]

theorem chunk_reads {payload rest : Bytes} {chunk : Chunk} :
    decode_chunk payload = .ok (chunk, rest) ↔
      validate_chunk chunk = .ok () ∧ payload = chunk.data ∧ rest = [] := by
  have remaining : Cursor.rest payload = .ok (payload, []) := by
    change Wire.take _ payload.length payload = _
    rw [Wire.take, if_neg (Nat.lt_irrefl _), List.take_length, List.drop_length]
  simp only [decode_chunk, Monads.bind_ok, remaining, Monads.liftM_ok, Monads.pure_ok]
  constructor
  next =>
    rintro ⟨data, middle, same, _, _, ⟨valid, rfl⟩, rfl, rfl⟩
    cases same
    exact ⟨valid, rfl, rfl⟩
  next =>
    rintro ⟨valid, rfl, rfl⟩
    exact ⟨chunk.data, [], rfl, (), [], ⟨valid, rfl⟩, rfl, rfl⟩

theorem decode_payload_ok {kind : ObjectKind} {payload : Bytes} {obj : LedgerObject} :
    decode_payload kind (HEADER_BYTES + payload.length) payload = .ok (obj, []) ↔
      kind = obj.kind ∧ Fits.object obj ∧ Canonical obj ∧ payload = Layout.payload obj := by
  cases kind <;> simp only [decode_payload, Monads.map_ok] <;> cases obj <;>
    simp only [LedgerObject.kind, reduceCtorEq, false_and, exists_false, true_and,
      LedgerObject.chunk.injEq, LedgerObject.blob.injEq, LedgerObject.tree.injEq, LedgerObject.commit.injEq,
      exists_eq_left, Fits.object, Canonical, Layout.payload]
  case chunk.chunk chunk => rw [chunk_reads]; simp
  case blob.blob blob =>
    rw [(blob_parses _).iff, List.append_nil, and_assoc, and_assoc]
    refine and_congr_right fun _ => and_congr_left ?_
    rintro rfl
    rfl
  case tree.tree tree =>
    rw [(tree_parses _).iff, List.append_nil, and_assoc, and_assoc]
    refine and_congr_right fun _ => and_congr_left ?_
    rintro rfl
    rfl
  case commit.commit commit => rw [commit_parses.iff, List.append_nil, and_assoc]

theorem body_ok {kind : ObjectKind} {payload rest : Bytes} {length : Nat} {obj : LedgerObject} :
    (do let obj ← decode_payload kind length; Cursor.expect_exhausted; return obj : Cursor LedgerObject) payload =
      .ok (obj, rest) ↔ decode_payload kind length payload = .ok (obj, []) ∧ rest = [] := by
  have exhausted {unread out : Bytes} {done : Unit} :
      Cursor.expect_exhausted unread = .ok (done, out) ↔ unread = [] ∧ out = [] := by
    change (liftM (ensure (unread.length = 0) _) : Cursor Unit) unread = _ ↔ _
    rw [Monads.liftM_ok, ensure_ok, List.length_eq_zero_iff]
    constructor <;> rintro ⟨rfl, rfl⟩ <;> exact ⟨rfl, rfl⟩
  simp only [Monads.bind_ok, exhausted, Monads.pure_ok]
  constructor
  next =>
    rintro ⟨_, _, read, _, _, ⟨rfl, rfl⟩, rfl, rfl⟩
    exact ⟨read, rfl⟩
  next =>
    rintro ⟨read, rfl⟩
    exact ⟨obj, [], read, (), [], ⟨rfl, rfl⟩, rfl, rfl⟩

theorem decode_ok {framed : Bytes} {obj : LedgerObject} :
    decode framed = .ok obj ↔ Fits.object obj ∧ Canonical obj ∧ framed = Layout.object obj := by
  simp only [decode, Monads.except_bind_ok, ensure_ok, peek_kind_ok]
  constructor
  next =>
    rintro ⟨kind, ⟨version, payload, rfl⟩, _, readable, ⟨found, rest⟩, body, same⟩
    obtain rfl : version = FORMAT_VERSION := List.mem_singleton.mp readable
    obtain rfl : found = obj := Except.ok.inj same
    have read := (body_ok.mp body).1
    rw [List.length_cons, List.length_cons, Nat.add_assoc, Nat.add_comm] at read
    obtain ⟨rfl, fits, canonical, spelled⟩ := decode_payload_ok.mp read
    exact ⟨fits, canonical, congrArg (found.kind.value :: FORMAT_VERSION :: ·) spelled⟩
  next =>
    rintro ⟨fits, canonical, rfl⟩
    refine ⟨obj.kind, ⟨FORMAT_VERSION, _, rfl⟩, (), List.mem_singleton.mpr rfl, (obj, []), body_ok.mpr ⟨?_, rfl⟩, rfl⟩
    rw [Layout.object, List.length_cons, List.length_cons, Nat.add_assoc, Nat.add_comm]
    exact decode_payload_ok.mpr ⟨rfl, fits, canonical, rfl⟩

end LedgerVcs
