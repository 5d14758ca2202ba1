import LedgerVcs.Fs.Revisions
import LedgerVcs.Lib.Patching

set_option autoImplicit false

/-! The changes between two trees, made one after the other. -/

namespace LedgerVcs

open Wire (Bytes)
open Align (named)
open Patching (Nested Leads patch leaf)

variable {blake3 : Blake3} {store : Objects blake3} {params : ShapeParams} {nodes depth : Nat}

def Change.step (change : Change) : Patching.Step Bytes Content := (change.path, change.after.map .entry)

section Order

variable {base : List Bytes} {old new : List Bytes → Option TreeEntry} {changes : List Change}
  {diff : (before after : Option ObjectName) → (base : List Bytes) → Gen PyError Change}

theorem Exact.inside (exact : Exact base old new changes) : ∀ change ∈ changes, base <+: change.path := by
  intro change member
  obtain ⟨path, same, -⟩ := (exact.changed change).mp member
  exact ⟨path, same.symm⟩

end Order

/-! ## Trees as maps -/

section Maps

end Maps

/-! ## What the changes lead to -/

section Leading

variable {before after : ObjectName} {changes : List Change}

/-- Files that a diff does not tell apart, or none. -/
def SameFile (first second : Option Content) : Prop :=
  ∃ old new, first = old.map Content.entry ∧ second = new.map Content.entry ∧ Unmodified old new

theorem SameFile.neither {first second : Option Content} (same : SameFile first second) : first = none ↔ second = none := by
  obtain ⟨old, new, rfl, rfl, alike⟩ := same
  cases old <;> cases new <;> simp_all [Unmodified]

end Leading

/-! ## Making the changes -/

/-- The change is made by an edit of its path. -/
def Change.apply (store : Objects blake3) (nodes : Nat) (params : ShapeParams) (root : ObjectName) (change : Change) :
    Except PyError EditResult :=
  edit store nodes params root change.path change.after

/-- The changes are made one after the other, each of them in the store that has what those before it wrote. -/
inductive Patched (nodes : Nat) (params : ShapeParams) :
    Objects blake3 × ObjectName → List Change → Objects blake3 × ObjectName → Prop
  | done {state : Objects blake3 × ObjectName} : Patched nodes params state [] state
  | change {store : Objects blake3} {root : ObjectName} {change : Change} {changes : List Change} {result : EditResult}
    {last : Objects blake3 × ObjectName} (applied : change.apply store nodes params root = .ok result)
    (intact : (store.after result.written).Holds result.written)
    (later : Patched nodes params (store.after result.written, result.tree) changes last) :
    Patched nodes params (store, root) (change :: changes) last

theorem edited_map_put {path : List Bytes} {entry : Option TreeEntry} {map : List Bytes → Option Content}
    (file : ∀ set ∈ entry, set.kind ≠ .tree) :
    edited_map store none path entry map = Patching.put .directory (path, entry.map .entry) map := by
  funext other
  rw [edited_map, Patching.put]
  by_cases here : other = path
  next =>
    subst here
    rw [if_pos List.prefix_rfl, if_pos rfl, List.drop_length]
    cases entry with
    | none => rfl
    | some entry => exact (if_neg fun tree => file entry rfl tree.1).trans (if_pos rfl)
  next =>
    rw [if_neg here]
    by_cases below : path <+: other
    next =>
      obtain ⟨rest, rfl⟩ := below
      have further : rest ≠ [] := by
        rintro rfl
        exact here (List.append_nil path)
      rw [if_pos (List.prefix_append _ _), if_pos (List.prefix_append _ _), List.drop_left]
      cases entry with
      | none => rfl
      | some entry => exact (if_neg fun tree => file entry rfl tree.1).trans (if_neg further)
    next => simp only [if_neg below, ne_eq, Option.map_eq_none_iff]

theorem Change.apply_puts {root : ObjectName} {change : Change} {result : EditResult} (enough : LEVELS ≤ nodes)
    (whole : Built store params none depth root) (applied : change.apply store nodes params root = .ok result)
    (intact : (store.after result.written).Holds result.written)
    (file : ∀ entry ∈ change.after, change.path.getLast? = some entry.name ∧ entry.kind ≠ .tree) :
    (∃ depth, Built (store.after result.written) params none depth result.tree) ∧
      content_at (store.after result.written) none result.tree = Patching.put .directory change.step (content_at store none root) := by
  obtain ⟨entries, makes, rooted, revised⟩ := edit_revises enough whole applied intact
  obtain ⟨last, ends⟩ : ∃ last, change.path.getLast? = some last := ⟨_, List.getLast?_eq_some_getLast revised.nonempty⟩
  have given : (change.after.map fun entry => { entry with name := last }) = change.after := by
    cases after : change.after with
    | none => rfl
    | some entry =>
      obtain rfl := Option.some.inj (ends.symm.trans (file entry after).1)
      rfl
  have afresh := revised.afresh makes rooted (within_after _) ends
    (.inr ⟨rfl, fun set same tree => absurd tree (file set same).2⟩)
  rw [given] at afresh
  exact ⟨afresh.built, (funext afresh.content).trans (edited_map_put fun set same => (file set same).2)⟩

theorem Patched.puts {first last : Objects blake3 × ObjectName} {changes : List Change} (patched : Patched nodes params first changes last)
    (enough : LEVELS ≤ nodes) (whole : ∃ depth, Built first.1 params none depth first.2)
    (files : ∀ change ∈ changes, ∀ entry ∈ change.after, change.path.getLast? = some entry.name ∧ entry.kind ≠ .tree) :
    (∃ depth, Built last.1 params none depth last.2) ∧ first.1.Within last.1 ∧
      content_at last.1 none last.2 = patch .directory (content_at first.1 none first.2) (changes.map Change.step) := by
  induction patched with
  | done => exact ⟨whole, fun _ _ read => read, rfl⟩
  | change applied intact later ih =>
    obtain ⟨depth, whole⟩ := whole
    obtain ⟨here, others⟩ := List.forall_mem_cons.mp files
    obtain ⟨built, puts⟩ := Change.apply_puts enough whole applied intact here
    obtain ⟨built', within, patches⟩ := ih built others
    refine ⟨built', (within_after _).trans within, ?_⟩
    rw [patches, puts]
    rfl

end LedgerVcs
