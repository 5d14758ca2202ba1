import LedgerVcs.Format.RoundTrip

set_option autoImplicit false

namespace LedgerVcs

open Wire (Bytes)

/-! ## What an object is once it has been stored and fetched again -/

def read_back (object : LedgerObject) : Option LedgerObject := (encode object >>= decode).toOption

theorem digests_injective {left right : List ObjectName} (lengths : left.length = right.length)
    (same : left.flatMap ObjectName.digest = right.flatMap ObjectName.digest) : left = right := by
  induction left generalizing right with
  | nil => exact (List.length_eq_zero_iff.mp lengths.symm).symm
  | cons name names ih =>
    cases right with
    | nil => cases lengths
    | cons name' names' =>
      rw [List.flatMap_cons, List.flatMap_cons] at same
      obtain ⟨heads, tails⟩ := List.append_inj same (by rw [name.sized, name'.sized])
      rw [ObjectName.ext heads, ih (by simpa using lengths) tails]

theorem read_back_canonical {object : LedgerObject} {framed : Bytes} (accepted : encode object = .ok framed)
    (canonical : Canonical object) : read_back object = some object := by
  obtain ⟨fits, spelled⟩ := encode_ok.mp accepted
  have read : decode framed = .ok object := decode_ok.mpr ⟨fits, canonical, spelled⟩
  rw [read_back, accepted]
  change (decode framed).toOption = _
  rw [read]
  rfl

/-- Commits that are laid out alike have the same tree and the same parents. -/
theorem laid_out_alike {commit commit' : Commit} (fits : Fits.commit commit) (fits' : Fits.commit commit')
    (same : Layout.object (.commit commit) = Layout.object (.commit commit')) :
    commit'.tree = commit.tree ∧ commit'.parents = commit.parents := by
  have payload : Layout.commit commit = Layout.commit commit' := (List.cons.inj (List.cons.inj same).2).2
  simp only [Layout.commit] at payload
  obtain ⟨trees, payload⟩ := List.append_inj payload (by rw [commit.tree.sized, commit'.tree.sized])
  obtain ⟨counts, payload⟩ := List.append_inj payload (by simp)
  have bound {count : Nat} (small : count ≤ U16_MAX) : count < 256 ^ 2 := by
    rw [U16_MAX] at small
    omega
  have lengths : commit.parents.length = commit'.parents.length :=
    Wire.toBE_injective (bound fits.2.1) (bound fits'.2.1) counts
  obtain ⟨parents, -⟩ := List.append_inj payload (by simp [List.length_flatMap, ObjectName.sized, lengths])
  exact ⟨(ObjectName.ext trees).symm, (digests_injective lengths parents).symm⟩

theorem encoded_parents {commit commit' : Commit} {framed : Bytes} (encoded : encode (.commit commit) = .ok framed)
    (encoded' : encode (.commit commit') = .ok framed) : commit'.parents = commit.parents := by
  obtain ⟨fits, rfl⟩ := encode_ok.mp encoded
  obtain ⟨fits', same⟩ := encode_ok.mp encoded'
  exact (laid_out_alike fits fits' same).2

/-- Whatever becomes of its change id, a commit keeps its tree and its parents. -/
theorem read_back_commit {commit : Commit} {object : LedgerObject}
    (read : read_back (.commit commit) = some object) :
    ∃ commit', object = .commit commit' ∧ commit'.tree = commit.tree ∧ commit'.parents = commit.parents := by
  rw [read_back] at read
  cases written : encode (.commit commit) with
  | error error => rw [written] at read; cases read
  | ok framed =>
    rw [written] at read
    change (decode framed).toOption = _ at read
    cases accepted : decode framed with
    | error error => rw [accepted] at read; cases read
    | ok object' =>
      rw [accepted] at read
      obtain rfl : object' = object := Option.some.inj read
      obtain ⟨fits, spelled⟩ := encode_ok.mp written
      obtain ⟨fits', -, spelled'⟩ := decode_ok.mp accepted
      have same : Layout.object (.commit commit) = Layout.object object' := spelled.symm.trans spelled'
      cases object' with
      | commit commit' => exact ⟨commit', rfl, laid_out_alike fits fits' same⟩
      | _ => cases (List.cons.inj same).1

/-! ## The objects in play -/

/-- Objects and their names. BLAKE3 is taken to be injective on the objects in play: a name stands for one
of them, so what is stored under it needs no bytes of its own in a state. -/
structure Corpus where
  content : ObjectName → Option LedgerObject
  /-- `encode` and hash. -/
  name_of : LedgerObject → Except PyError ObjectName
  /-- The length of the framed object. -/
  length : ObjectName → Nat
  /-- What the object occupies on the medium, which may compress. -/
  occupied : ObjectName → Nat
  named : ∀ {object name}, name_of object = .ok name → content name = read_back object

/-- The byte strings of a list, under their real names. -/
def Corpus.ofBytes (blake3 : Blake3) (play : List Bytes) (occupied : Bytes → Nat)
    (injective : ∀ left ∈ play, ∀ right ∈ play,
      name_of_encoded blake3 left = name_of_encoded blake3 right → left = right) : Corpus where
  content name := (play.find? fun framed => name_of_encoded blake3 framed = name).bind fun framed =>
    (decode framed).toOption
  name_of object := do
    let framed ← encode object
    ensure (framed ∈ play) (.assertionError "not in play")
    return name_of_encoded blake3 framed
  length name := ((play.find? fun framed => name_of_encoded blake3 framed = name).map List.length).getD 0
  occupied name := ((play.find? fun framed => name_of_encoded blake3 framed = name).map occupied).getD 0
  named := by
    intro object name found
    simp only [Monads.except_bind_ok, ensure_ok, pure, Except.pure, Except.ok.injEq] at found
    obtain ⟨framed, written, _, inPlay, rfl⟩ := found
    have first : (play.find? fun other => name_of_encoded blake3 other = name_of_encoded blake3 framed) =
        some framed := by
      cases search : play.find? fun other => name_of_encoded blake3 other = name_of_encoded blake3 framed with
      | none => exact absurd (List.find?_eq_none.mp search framed inPlay) (by simp)
      | some other =>
        have same : name_of_encoded blake3 other = name_of_encoded blake3 framed := by
          simpa using List.find?_some search
        rw [injective other (List.mem_of_find?_eq_some search) framed inPlay same]
    rw [first, read_back, written]
    rfl

/-- No object in play. -/
def Corpus.none : Corpus where
  content _ := .none
  name_of _ := .error (.assertionError "not in play")
  length _ := 0
  occupied _ := 0
  named impossible := by cases impossible

/-! ## The smallest object -/

def emptyTree : LedgerObject := .tree ⟨0, []⟩

def emptyTreeFramed : Bytes := [3, 1, 0, 0, 0, 0, 0]

def emptyTreeName : ObjectName where
  digest :=
    [0x84, 0x6b, 0x03, 0xa1, 0x0b, 0x5d, 0x81, 0x76, 0xf3, 0x16, 0xa9, 0xf4, 0x45, 0xac, 0xfe, 0xa4, 0x7c,
      0x7f, 0x48, 0x0c, 0x64, 0xcc, 0xf1, 0xeb, 0x15, 0x84, 0x3c, 0xf0, 0x67, 0xcc, 0x1b, 0x64]
  sized := rfl

/-- The digest is that of BLAKE3. -/
def emptyTreeDigests : Blake3 := .ofTable [(emptyTreeFramed, emptyTreeName.digest)]

def emptyTreeOnly : Corpus := .ofBytes emptyTreeDigests [emptyTreeFramed] List.length (by decide)

end LedgerVcs
