import LedgerVcs.Format.Layout

set_option autoImplicit false

namespace LedgerVcs

open Wire (Bytes Writes Parses toBE toSigned FitsSigned)
open Text (PyStr)

theorem encode_utf8_ok {text : PyStr} {raw : Bytes} :
    encode_utf8 text = .ok raw ↔ Text.encodeUtf8 text = some raw := by
  unfold encode_utf8
  cases Text.encodeUtf8 text <;> simp

theorem fromhex_ok {text : PyStr} {raw : Bytes} :
    fromhex text = .ok raw ↔ Text.fromhex text = some raw := by
  unfold fromhex
  cases Text.fromhex text <;> simp

theorem text_of_encoded {text : PyStr} {raw : Bytes} (encoded : encode_utf8 text = .ok raw) :
    Layout.text text = raw := by
  rw [Layout.text, encode_utf8_ok.mp encoded, Option.getD_some]

theorem text_writes (label : String) (width maximum : Nat) (text : PyStr) :
    Writes (encode_text (Writer.prefixed label width maximum) text) (Fits.text maximum text)
      (Layout.sized width (Layout.text text)) := by
  refine (Writes.after (fun raw => prefixed_writes label width maximum raw) ?_).congr ?_ fun _ => rfl
  next => intro raw encoded; rw [text_of_encoded encoded]; rfl
  next => simp only [encode_utf8_ok]; rfl

theorem change_id_writes (change_id : ChangeId) :
    Writes (encode_change_id change_id) (Text.fromhex change_id.value ≠ none) (Layout.changeId change_id) := by
  refine (Writes.after (fun raw => .append raw) ?_).congr ?_ fun _ => rfl
  next => intro raw read; rw [Layout.changeId, fromhex_ok.mp read, Option.getD_some]
  next => simp [fromhex_ok, Option.ne_none_iff_exists']

theorem count_fits {count maximum : Nat} : 0 ≤ (count : Int) ∧ (count : Int) ≤ maximum ↔ count ≤ maximum := by
  omega

theorem blob_entry_writes (entry : BlobEntry) :
    Writes (encode_blob_entry entry) (Fits.blobEntry entry) (Layout.blobEntry entry) := by
  refine ((Writes.check _).bind ((Writes.append _).bind (unsigned_writes ..))).congr ?_ fun _ => rfl
  simp [validate_blob_entry, Fits.blobEntry, Fits.u64]

theorem entry_kind_small (kind : EntryKind) : 0 ≤ kind.value ∧ kind.value ≤ U8_MAX := by
  cases kind <;> decide

theorem tree_entry_writes (entry : TreeEntry) :
    Writes (encode_tree_entry entry) (Fits.treeEntry entry) (Layout.treeEntry entry) := by
  refine ((prefixed_writes ..).bind ((unsigned_writes ..).bind ((Writes.append _).bind
    ((unsigned_writes ..).bind (unsigned_writes ..))))).congr ?_ fun _ => rfl
  simp [entry_kind_small, Fits.treeEntry, Fits.u16, Fits.u64]

theorem metadata_item_writes (item : PyStr × PyStr) :
    Writes (encode_metadata_item item) (Fits.metadataItem item) (Layout.metadataItem item) :=
  (text_writes ..).bind (text_writes ..)

theorem validate_commit_ok {commit : Commit} :
    validate_commit commit = .ok () ↔
      commit.change_id.value.length = CHANGE_ID_BYTES * 2 ∧ Text.fromhex commit.change_id.value ≠ none ∧
        commit.parents.Nodup ∧ (commit.author ≠ [] ∧ commit.committer ≠ []) ∧
          validate_metadata_from none commit.metadata = .ok () := by
  simp [validate_commit]

theorem commit_writes (commit : Commit) :
    Writes (encode_commit commit) (Fits.commit commit) (Layout.commit commit) := by
  refine ((Writes.check _).bind ((Writes.append _).bind ((unsigned_writes ..).bind
    ((Writes.forM (fun _ => .append _) _).bind ((change_id_writes _).bind ((text_writes ..).bind
      ((text_writes ..).bind ((i64_writes _).bind ((text_writes ..).bind ((unsigned_writes ..).bind
        (Writes.forM metadata_item_writes _))))))))))).congr ?_ fun _ => rfl
  simp only [count_fits, Fits.commit, validate_commit_ok, implies_true, true_and]
  tauto

/-! A node's writer also bounds the whole buffer, so it is followed from the buffer it starts with. -/

theorem node_size_checks (what : String) (buffer : Bytes) :
    validate_node_size what buffer = (reject_oversized_node buffer.length what).map fun done => (done, buffer) := by
  change (liftM (reject_oversized_node buffer.length what) : Writer) buffer = _
  cases reject_oversized_node buffer.length what <;> rfl

theorem encode_blob_ok {blob : Blob} {buffer out : Bytes} :
    encode_blob blob buffer = .ok ((), out) ↔
      Fits.blob blob ∧ (buffer ++ Layout.blob blob).length ≤ MAX_NODE_BYTES ∧ out = buffer ++ Layout.blob blob := by
  have body : Writes (do
      validate_node_level blob.level blob.entries.length "blob"
      Writer.u8 blob.level
      Writer.u32 blob.entries.length
      blob.entries.forM encode_blob_entry : Writer) (Fits.blob blob) (Layout.blob blob) := by
    refine ((Writes.check _).bind ((unsigned_writes ..).bind ((unsigned_writes ..).bind
      (Writes.forM blob_entry_writes _)))).congr ?_ fun _ => rfl
    simp only [count_fits, Fits.blob, Fits.node, Fits.u8]
    tauto
  have whole := body.then_check (node_size_checks "blob") buffer out
  simpa only [encode_blob, bind_assoc, reject_oversized_node, ensure_ok] using whole

theorem encode_tree_ok {tree : Tree} {buffer out : Bytes} :
    encode_tree tree buffer = .ok ((), out) ↔
      Fits.tree tree ∧ (buffer ++ Layout.tree tree).length ≤ MAX_NODE_BYTES ∧ out = buffer ++ Layout.tree tree := by
  have body : Writes (do
      validate_node_level tree.level tree.entries.length "tree"
      validate_tree_entries tree
      Writer.u8 tree.level
      Writer.u32 tree.entries.length
      tree.entries.forM encode_tree_entry : Writer) (Fits.tree tree) (Layout.tree tree) := by
    refine ((Writes.check _).bind ((Writes.check _).bind ((unsigned_writes ..).bind ((unsigned_writes ..).bind
      (Writes.forM tree_entry_writes _))))).congr ?_ fun _ => rfl
    simp only [count_fits, Fits.tree, Fits.node, Fits.u8]
    tauto
  have whole := body.then_check (node_size_checks "tree") buffer out
  simpa only [encode_tree, bind_assoc, reject_oversized_node, ensure_ok] using whole

theorem kind_small (kind : ObjectKind) : (kind.value.toNat : Int) ≤ U8_MAX ∧
    toBE 1 kind.value.toNat = [kind.value] := by
  cases kind <;> decide

theorem encode_ok {obj : LedgerObject} {framed : Bytes} :
    encode obj = .ok framed ↔ Fits.object obj ∧ framed = Layout.object obj := by
  have header : Writes (do Writer.u8 obj.kind.value.toNat; Writer.u8 FORMAT_VERSION.toNat : Writer) True
      [obj.kind.value, FORMAT_VERSION] := by
    refine ((unsigned_writes ..).bind (unsigned_writes ..)).congr ?_ fun _ => ?_
    next => exact iff_of_true ⟨⟨by omega, (kind_small _).1⟩, by decide⟩ trivial
    next => rw [Int.toNat_natCast, (kind_small _).2]; rfl
  have payload (out : Bytes) : encode_payload obj [obj.kind.value, FORMAT_VERSION] = .ok ((), out) ↔
      Fits.object obj ∧ out = Layout.object obj := by
    cases obj with
    | chunk chunk =>
      have writes : Writes (encode_chunk chunk) (validate_chunk chunk = .ok ()) chunk.data :=
        ((Writes.check _).bind (.append _)).congr (and_iff_left trivial) fun _ => rfl
      exact @writes _ out
    | blob blob =>
      rw [encode_payload, encode_blob_ok, ← and_assoc]
      simp only [Fits.object, Layout.object, Layout.payload, List.cons_append, List.nil_append,
        List.length_cons, HEADER_BYTES, Nat.add_comm 2]
    | tree tree =>
      rw [encode_payload, encode_tree_ok, ← and_assoc]
      simp only [Fits.object, Layout.object, Layout.payload, List.cons_append, List.nil_append,
        List.length_cons, HEADER_BYTES, Nat.add_comm 2]
    | commit commit => exact @commit_writes commit _ out
  have run : encode obj = .ok framed ↔ ((do Writer.u8 obj.kind.value.toNat; Writer.u8 FORMAT_VERSION.toNat) >>=
      fun _ => encode_payload obj : Writer) [] = .ok ((), framed) := by
    rw [bind_assoc, encode, Monads.except_bind_ok]
    constructor
    next => rintro ⟨⟨_, written⟩, wrote, same⟩; cases same; exact wrote
    next => intro wrote; exact ⟨_, wrote, rfl⟩
  rw [run, Monads.bind_ok]
  constructor
  next =>
    rintro ⟨_, middle, wrote, rest⟩
    obtain ⟨-, rfl⟩ := header.mp wrote
    exact (payload framed).mp rest
  next =>
    intro fits
    exact ⟨(), _, header.mpr ⟨trivial, rfl⟩, (payload framed).mpr fits⟩

end LedgerVcs
