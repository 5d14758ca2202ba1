import LedgerVcs.Fs.Nested

set_option autoImplicit false

/-! What a diff without changes leaves open. -/

namespace LedgerVcs

open Wire (Bytes)
open Align (named)

variable {blake3 : Blake3} {store : Objects blake3} {params : ShapeParams} {depth : Nat} {before after : ObjectName}

theorem Built.snapshot {root : ObjectName} (built : Built store params none depth root) : Snapshot store LEVELS depth root := by
  generalize whole : (none : Option (List Bytes)) = given at built
  induction built with
  | directory made held below ih =>
    subst whole
    obtain ⟨tree, directory, low, rfl, -, ascending, -⟩ := built_reads made held (le_refl _)
    exact .directory directory low ascending fun entry member tree => ih entry member tree nofun rfl

/-- Two files that a diff does not tell apart, or none. -/
def Unmodified : Option TreeEntry → Option TreeEntry → Prop
  | none, none => True
  | some before, some after => before.kind = after.kind ∧ before.target = after.target ∧ before.mode = after.mode
  | _, _ => False

theorem unmodified_iff {old new : Option TreeEntry} : Unmodified old new ↔ ∀ path kind first second, ¬ Differs old new ⟨path, kind, first, second⟩ := by
  constructor
  next =>
    intro alike path kind first second
    refine not_differs (fun before here after there => ?_) ?_ _
    next =>
      rw [Option.mem_def.mp here, Option.mem_def.mp there] at alike
      exact ⟨alike.2.1, alike.2.2, alike.1⟩
    next => cases old <;> cases new <;> simp_all [Unmodified]
  next =>
    intro none_differs
    cases old with
    | none =>
      cases new with
      | none => trivial
      | some entry => exact none_differs [] .added none (some entry) (differs_added.mpr rfl)
    | some entry =>
      cases new with
      | none => exact none_differs [] .removed (some entry) none (differs_removed.mpr rfl)
      | some other =>
        by_cases kind : entry.kind = other.kind
        next =>
          have same : ¬ (entry.target ≠ other.target ∨ entry.mode ≠ other.mode) := fun unlike =>
            none_differs [] .modified (some entry) (some other) ((differs_modified kind unlike).mpr rfl)
          push Not at same
          exact ⟨kind, same⟩
        next =>
          refine absurd ?_ (none_differs [] .added none (some other))
          exact ⟨rfl, fun _ same => by rw [← Option.some.inj same]; exact kind⟩

/-- Of two trees that were built, an empty diff says that they are the same exactly if they do not differ in directories
or in recorded sizes alone. -/
theorem empty_diff_exact (store : Objects blake3) (params : ShapeParams) (depth : Nat) (before after : ObjectName)
    (old : Built store params none depth before) (new : Built store params none depth after) :
    (diff_trees store LEVELS depth (some before) (some after) [] = .of [] → before = after) ↔
      ((∀ path, Unmodified (file_at store LEVELS (some before) path) (file_at store LEVELS (some after) path)) →
        ∀ path, content_at store none before path = content_at store none after path) := by
  obtain ⟨changes, yields, -, changed⟩ := diff_trees_compares (some before) (some after) []
    (fun _ same => Option.some.inj same ▸ old.snapshot) (fun _ same => Option.some.inj same ▸ new.snapshot)
    (.inl (Option.some_ne_none _))
  have silent : diff_trees store LEVELS depth (some before) (some after) [] = .of [] ↔
      ∀ path, Unmodified (file_at store LEVELS (some before) path) (file_at store LEVELS (some after) path) := by
    rw [yields, Gen.of_inj, List.eq_nil_iff_forall_not_mem]
    simp only [unmodified_iff]
    constructor
    next => exact fun none path _ kind first second differs => none ⟨path, kind, first, second⟩ ((changed _).mpr ⟨path, rfl, differs⟩)
    next =>
      rintro alike ⟨path, kind, first, second⟩ member
      obtain ⟨path', -, differs⟩ := (changed _).mp member
      exact alike path' path kind first second differs
  rw [silent]
  constructor
  next =>
    intro settled alike path
    rw [settled alike]
  next => exact fun told alike => one_map_one_name old new (told alike)

/-! ## A directory more, and nothing in it -/

def emptyDirectory : LedgerObject := .tree ⟨0, []⟩

def emptyDirectoryName : ObjectName where
  digest := [
    0x84, 0x6b, 0x03, 0xa1, 0x0b, 0x5d, 0x81, 0x76, 0xf3, 0x16, 0xa9, 0xf4, 0x45, 0xac, 0xfe, 0xa4, 0x7c,
    0x7f, 0x48, 0x0c, 0x64, 0xcc, 0xf1, 0xeb, 0x15, 0x84, 0x3c, 0xf0, 0x67, 0xcc, 0x1b, 0x64]
  sized := emptyTreeName.sized

def directoryEntry (name : Bytes) (target : ObjectName) : TreeEntry := ⟨name, .tree, target, 0, 0⟩

/-- Only the directory d. -/
def onlyD : LedgerObject := .tree ⟨0, [directoryEntry [0x64] emptyDirectoryName]⟩

def onlyDName : ObjectName where
  digest := [
    0x3f, 0xfd, 0x85, 0x7b, 0x5c, 0x50, 0xc4, 0xb2, 0xb3, 0xe6, 0x4a, 0x8a, 0xf0, 0x69, 0x1d, 0xd1, 0xc1,
    0xa1, 0xb0, 0x0e, 0xeb, 0x6a, 0x5d, 0xc1, 0x91, 0xe4, 0x43, 0xc6, 0x4f, 0x20, 0x21, 0x13]
  sized := rfl

/-- The digests are those of BLAKE3. -/
def emptyDigests : Blake3 := .ofTable [
  (Layout.object emptyDirectory, emptyDirectoryName.digest), (Layout.object onlyD, onlyDName.digest),
  (Layout.object onlyA, onlyAName.digest)]

def emptyDirectories : Objects emptyDigests :=
  ObjectStore.after_puts emptyDigests [Layout.object emptyDirectory, Layout.object onlyD, Layout.object onlyA]

theorem emptyDirectory_built {depth : Nat} : Built emptyDirectories PRODUCTION_SHAPE none (depth + 1) emptyDirectoryName := by
  refine @Built.directory _ emptyDirectories PRODUCTION_SHAPE none depth _ [] [(emptyDirectoryName, Layout.object emptyDirectory)]
    (by decide +kernel) ?_ fun _ impossible => by cases impossible
  unfold Objects.Holds
  decide +kernel

theorem onlyD_built : Built emptyDirectories PRODUCTION_SHAPE none 2 onlyDName := by
  refine @Built.directory _ emptyDirectories PRODUCTION_SHAPE none 1 _ [directoryEntry [0x64] emptyDirectoryName]
    [(onlyDName, Layout.object onlyD)] (by decide +kernel) ?_ fun entry member _ _ => ?_
  next =>
    unfold Objects.Holds
    decide +kernel
  next => rw [List.mem_singleton.mp member]; exact emptyDirectory_built

theorem onlyA_built : Built emptyDirectories PRODUCTION_SHAPE none 2 onlyAName := by
  refine @Built.directory _ emptyDirectories PRODUCTION_SHAPE none 1 _ [fileEntry [0x61]] [(onlyAName, Layout.object onlyA)]
    (by decide +kernel) ?_ fun entry member tree _ => ?_
  next =>
    unfold Objects.Holds
    decide +kernel
  next => rw [List.mem_singleton.mp member] at tree; cases tree

set_option maxRecDepth 4000 in
/-- An empty directory replaced by a file. -/
theorem empty_diff_exact_file :
    diff_trees emptyDirectories LEVELS 2 (some onlyDName) (some onlyAName) [] ≠ .of [] ∧ onlyDName ≠ onlyAName := by
  have different : onlyDName ≠ onlyAName := by decide
  refine ⟨fun quiet => different ?_, different⟩
  have exact_at := empty_diff_exact emptyDirectories PRODUCTION_SHAPE 2 onlyDName onlyAName onlyD_built onlyA_built
  refine exact_at.mpr (fun alike => ?_) quiet
  have none : file_at emptyDirectories LEVELS (some onlyDName) [[0x61]] = none := by decide
  have some : file_at emptyDirectories LEVELS (some onlyAName) [[0x61]] = some (fileEntry [0x61]) := by decide
  have impossible := alike [[0x61]]
  rw [none, some] at impossible
  exact impossible.elim

/-- A directory is new, and the diff is empty. -/
theorem new_directory_unseen :
    Built emptyDirectories PRODUCTION_SHAPE none 2 emptyDirectoryName ∧ Built emptyDirectories PRODUCTION_SHAPE none 2 onlyDName ∧
      diff_trees emptyDirectories LEVELS 2 (some emptyDirectoryName) (some onlyDName) [] = .of [] ∧
      emptyDirectoryName ≠ onlyDName :=
  ⟨emptyDirectory_built, onlyD_built, by decide +kernel, by decide⟩

end LedgerVcs
