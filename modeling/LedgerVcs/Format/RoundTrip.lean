import LedgerVcs.Format.Decoding

set_option autoImplicit false

namespace LedgerVcs

open Wire (Bytes)

/-! ## Every accepted byte string is the encoding of what it means -/

theorem decode_canonical :
    (∀ framed obj, decode framed = .ok obj → encode obj = .ok framed) ∧
      ∀ left right obj, decode left = .ok obj → decode right = .ok obj → left = right := by
  have inverse (framed : Bytes) (obj : LedgerObject) (accepted : decode framed = .ok obj) :
      encode obj = .ok framed := by
    obtain ⟨fits, -, spelled⟩ := decode_ok.mp accepted
    exact encode_ok.mpr ⟨fits, spelled⟩
  refine ⟨inverse, ?_⟩
  intro left right obj leftAccepted rightAccepted
  have same := (inverse left obj leftAccepted).symm.trans (inverse right obj rightAccepted)
  exact Except.ok.inj same

theorem decode_canonical_chunk :
    decode [1, 1, 42] = .ok (.chunk ⟨[42]⟩) ∧ encode (.chunk ⟨[42]⟩) = .ok [1, 1, 42] := by
  have accepted : decode [1, 1, 42] = .ok (.chunk ⟨[42]⟩) := by rfl
  exact ⟨accepted, decode_canonical.1 _ _ accepted⟩

/-! ## Decoding undoes encoding, but for the spelling of a change id -/

def respell (commit : Commit) : Commit :=
  { commit with change_id := ⟨commit.change_id.value.map Text.respell⟩ }

theorem respell_encodes {commit : Commit} {framed : Bytes} (accepted : encode (.commit commit) = .ok framed) :
    encode (.commit (respell commit)) = .ok framed := by
  obtain ⟨fits, rfl⟩ := encode_ok.mp accepted
  have read := Text.fromhex_respell commit.change_id.value
  have valid : validate_commit (respell commit) = .ok () := by
    have original := validate_commit_ok.mp fits.1
    refine validate_commit_ok.mpr ⟨?_, ?_, original.2.2⟩
    next => rw [respell, List.length_map]; exact original.1
    next => rw [respell, read]; exact original.2.1
  refine encode_ok.mpr ⟨⟨valid, fits.2⟩, ?_⟩
  simp only [Layout.object, Layout.payload, Layout.commit, Layout.changeId, respell, read, LedgerObject.kind]

theorem respell_other {commit : Commit} {framed : Bytes} (accepted : encode (.commit commit) = .ok framed)
    (strange : ¬ CanonicalChangeId commit) : respell commit ≠ commit := by
  obtain ⟨fits, -⟩ := encode_ok.mp accepted
  obtain ⟨bytes, read⟩ := Option.ne_none_iff_exists'.mp (validate_commit_ok.mp fits.1).2.1
  intro same
  exact Text.respell_ne read strange (congrArg (·.change_id.value) same)

theorem decode_encode_exact (blake3 : Blake3) :
    (∀ obj framed, encode obj = .ok framed → (decode framed = .ok obj ↔ Canonical obj)) ∧
      (∀ left right leftFramed rightFramed,
        encode left = .ok leftFramed → encode right = .ok rightFramed → Canonical left → Canonical right →
        (blake3.digest leftFramed DIGEST_BYTES = blake3.digest rightFramed DIGEST_BYTES →
          leftFramed = rightFramed) →
        left ≠ right → name_of blake3 left ≠ name_of blake3 right) ∧
      ∀ obj framed, encode obj = .ok framed → ¬ Canonical obj → ∃ other ≠ obj, encode other = .ok framed := by
  have inverse (obj : LedgerObject) (framed : Bytes) (accepted : encode obj = .ok framed) :
      decode framed = .ok obj ↔ Canonical obj := by
    obtain ⟨fits, spelled⟩ := encode_ok.mp accepted
    rw [decode_ok]
    exact ⟨fun ok => ok.2.1, fun canonical => ⟨fits, canonical, spelled⟩⟩
  refine ⟨inverse, ?_, ?_⟩
  next =>
    intro left right leftFramed rightFramed leftOk rightOk leftCanonical rightCanonical injective different same
    simp only [name_of, leftOk, rightOk] at same
    have digests := congrArg ObjectName.digest (Except.ok.inj same)
    obtain rfl := injective digests
    have leftRead := (inverse left _ leftOk).mpr leftCanonical
    have rightRead := (inverse right _ rightOk).mpr rightCanonical
    exact different (Except.ok.inj (leftRead.symm.trans rightRead))
  next =>
    intro obj framed accepted strange
    cases obj with
    | commit commit =>
      refine ⟨.commit (respell commit), ?_, respell_encodes accepted⟩
      intro same
      exact respell_other accepted strange (LedgerObject.commit.inj same)
    | _ => exact absurd trivial strange

/-- The digests of two one-byte chunks. -/
def chunkDigests : Blake3 := .ofTable [
  ([1, 1, 42],
    [0xd8, 0xa4, 0x56, 0x74, 0x2f, 0x17, 0xde, 0x28, 0xc2, 0x35, 0xdd, 0x89, 0x58, 0xe3, 0x6f, 0x64, 0x26,
      0x73, 0xb1, 0xcd, 0xc7, 0x83, 0x0e, 0x77, 0xf0, 0xac, 0x0e, 0x5a, 0x3a, 0xcf, 0x9e, 0x80]),
  ([1, 1, 43],
    [0x99, 0x3d, 0x57, 0x16, 0xef, 0xd0, 0xde, 0xca, 0x42, 0x9c, 0x29, 0x72, 0xd8, 0x99, 0x70, 0x1f, 0x99,
      0x49, 0xf5, 0xbb, 0xc0, 0xad, 0x01, 0x97, 0x47, 0x08, 0xaf, 0x11, 0x3e, 0x9b, 0x4a, 0x4a])]

theorem decode_encode_exact_chunks :
    decode [1, 1, 42] = .ok (.chunk ⟨[42]⟩) ∧
      name_of chunkDigests (.chunk ⟨[42]⟩) ≠ name_of chunkDigests (.chunk ⟨[43]⟩) := by
  have first : encode (.chunk ⟨[42]⟩) = .ok [1, 1, 42] := by rfl
  have second : encode (.chunk ⟨[43]⟩) = .ok [1, 1, 43] := by rfl
  have exact := decode_encode_exact chunkDigests
  exact ⟨(exact.1 _ _ first).mpr trivial,
    exact.2.1 _ _ _ _ first second trivial trivial (fun same => absurd same (by decide)) (by decide)⟩

/-- A commit whose change id is thirty-two times the same letter. -/
def lettered (letter : Text.CodePoint) : Commit where
  tree := ⟨List.replicate 32 0, zeros_sized⟩
  parents := []
  change_id := ⟨List.replicate 32 letter⟩
  author := Text.lit "a"
  committer := Text.lit "a"
  timestamp_us := 0
  message := []
  metadata := []

/-- A change id of capital letters is accepted, stored as raw bytes and read back in lower case. -/
theorem capital_change_id_lost :
    ∃ framed, encode (.commit (lettered 0x41)) = .ok framed ∧ decode framed = .ok (.commit (lettered 0x61)) ∧
      decode framed ≠ .ok (.commit (lettered 0x41)) := by
  have fits (letter : Text.CodePoint) (either : letter = 0x41 ∨ letter = 0x61) : Fits.commit (lettered letter) := by
    have author : Fits.text U8_MAX (Text.lit "a") := ⟨[0x61], by decide, by decide⟩
    have message : Fits.text U32_MAX [] := ⟨[], by decide, by decide⟩
    have timestamp : Wire.FitsSigned 8 0 := by decide
    refine ⟨?_, Nat.zero_le _, author, author, timestamp, message, Nat.zero_le _, by simp [lettered]⟩
    rcases either with rfl | rfl <;> rfl
  have lower : CanonicalChangeId (lettered 0x61) := by
    intro point member
    rw [List.eq_of_mem_replicate member]
    decide
  have same : Layout.object (.commit (lettered 0x41)) = Layout.object (.commit (lettered 0x61)) := by rfl
  have quiet : decode (Layout.object (.commit (lettered 0x41))) = .ok (.commit (lettered 0x61)) :=
    decode_ok.mpr ⟨fits 0x61 (.inr rfl), lower, same⟩
  refine ⟨_, encode_ok.mpr ⟨fits 0x41 (.inl rfl), rfl⟩, quiet, ?_⟩
  rw [quiet]
  decide

end LedgerVcs
