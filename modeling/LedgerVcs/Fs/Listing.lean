import LedgerVcs.Fs.Tree

set_option autoImplicit false

/-! Built directories: what their listings, pages and lookups show. -/

namespace LedgerVcs

open Wire (Bytes)
open Objects (get_tree_ok)

/-! ## Pages -/

section Pages

variable {blake3 : Blake3} (store : Objects blake3)

/-- The pages of a directory, each from the cursor of the one before. -/
def list_pages (depth : Nat) (tree : ObjectName) (limit : Int) :
    (pages : Nat) → (after : Option Bytes) → Except PyError (List DirectoryPage)
  | 0, _ => throw too_deep
  | pages + 1, after => do
    let page ← list_dir store depth tree after limit
    match page.cursor with
    | none => return [page]
    | some last => do
      let others ← list_pages depth tree limit pages (some last)
      return page :: others

/-- The pages of these entries: full ones with a cursor, then one without. -/
structure Paged (limit : Int) (entries : List TreeEntry) (listed : List DirectoryPage) : Prop where
  whole : listed.flatMap DirectoryPage.entries = entries
  last : ∃ page ∈ listed.getLast?, page.cursor = none
  others : ∀ page ∈ listed.dropLast, page.cursor ≠ none ∧ page.entries.length = limit
  filled : entries ≠ [] → ∀ page ∈ listed, page.entries ≠ []

variable {store} {name : ObjectName} {tree : Rose Int Bytes TreeEntry}

/-- The entries that a cursor leaves to list. -/
def remaining (entries : List TreeEntry) (after : Option Bytes) : List TreeEntry :=
  entries.filter fun entry => ∀ last ∈ after, last < entry.name

theorem Objects.Directory.remaining (directory : store.Directory name tree) (routed : Routing.Routed TreeEntry.name tree)
    {depth : Nat} (enough : tree.height < depth) (after : Option Bytes) :
    LedgerVcs.iter_entries store depth name after = .of (LedgerVcs.remaining tree.items after) := by
  obtain ⟨all, resumed⟩ := directory.iter_entries enough
  cases after with
  | none => simpa [LedgerVcs.remaining] using all
  | some after =>
    rw [resumed, routed.resume]
    simp [LedgerVcs.remaining]

theorem remaining_after {front back : List TreeEntry} {entry : TreeEntry}
    (ascending : Routing.Ascending TreeEntry.name (front ++ entry :: back)) :
    remaining (front ++ entry :: back) (some entry.name) = back := by
  simpa [remaining] using ascending.after

theorem Objects.Directory.list_dir (directory : store.Directory name tree) (routed : Routing.Routed TreeEntry.name tree)
    {depth : Nat} (enough : tree.height < depth) {front back : List TreeEntry} {after : Option Bytes} {limit : Int}
    (positive : 0 < limit) (items : tree.items = front ++ back) (rest : LedgerVcs.remaining tree.items after = back) :
    LedgerVcs.list_dir store depth name after limit =
      .ok ⟨back.take limit.toNat,
        if back.length ≤ limit then none else ((back.take limit.toNat).getLast?).map TreeEntry.name⟩ := by
  have ascending := routed.ascending directory.leaves
  have listing := directory.remaining routed enough after
  rw [rest] at listing
  have count := List.length_take (i := limit.toNat) (l := back)
  rcases List.eq_nil_or_concat' (back.take limit.toNat) with none | ⟨page, last, some⟩
  next =>
    have empty : back = [] := (List.take_eq_nil_iff.mp none).resolve_left (by omega)
    subst empty
    have fits : (0 : Int) ≤ limit := by omega
    simp [LedgerVcs.list_dir, positive, listing, fits, bind, Except.bind, pure, Except.pure, ensure]
  next =>
    have whole : back = page ++ last :: back.drop limit.toNat := by
      rw [List.append_cons, ← some, List.take_append_drop]
    simp only [LedgerVcs.list_dir, ensure, positive, if_true, listing, Gen.yielded_of, some, List.getLast?_concat, bind, Except.bind,
      pure, Except.pure]
    rw [some] at count
    by_cases full : ((page ++ [last]).length : Int) = limit
    next =>
      have following : LedgerVcs.remaining tree.items (Option.some last.name) = back.drop limit.toNat := by
        have placed : tree.items = (front ++ page) ++ last :: back.drop limit.toNat := by
          rw [items, List.append_assoc, ← whole]
        rw [placed] at ascending ⊢
        exact remaining_after ascending
      rw [if_pos full, directory.remaining routed enough, following, Gen.first_of]
      have length := List.length_drop (i := limit.toNat) (l := back)
      cases more : back.drop limit.toNat with
      | nil =>
        rw [more, List.length_nil] at length
        rw [if_pos (by omega)]
        rfl
      | cons next others =>
        rw [more, List.length_cons] at length
        rw [if_neg (by omega)]
        rfl
    next =>
      have short : (back.length : Int) ≤ limit := by omega
      have all : back.take limit.toNat = back := List.take_of_length_le (by omega)
      rw [if_neg full, if_pos short, ← some, all]
      rfl

/-- Following the cursors lists what is left of the directory. -/
theorem Objects.Directory.pages (directory : store.Directory name tree) (routed : Routing.Routed TreeEntry.name tree)
    {depth : Nat} (enough : tree.height < depth) {limit : Int} (positive : 0 < limit) (pages : Nat)
    {front back : List TreeEntry} {after : Option Bytes} (items : tree.items = front ++ back)
    (rest : LedgerVcs.remaining tree.items after = back) (many : back.length < pages) :
    ∃ listed, list_pages store depth name limit pages after = .ok listed ∧ Paged limit back listed := by
  have ascending := routed.ascending directory.leaves
  induction pages generalizing front back after with
  | zero => omega
  | succ pages ih =>
    rw [list_pages, directory.list_dir routed enough positive items rest]
    by_cases fits : (back.length : Int) ≤ limit
    next =>
      have all : back.take limit.toNat = back := List.take_of_length_le (by omega)
      refine ⟨[⟨back, none⟩], ?_, by simp, ⟨_, rfl, rfl⟩, by simp, by simp⟩
      simp [fits, all, bind, Except.bind, pure, Except.pure]
    next =>
      obtain ⟨page, last, some⟩ := (List.eq_nil_or_concat' (back.take limit.toNat)).resolve_left fun none => by
        rcases List.take_eq_nil_iff.mp none with zero | empty
        next => omega
        next => rw [empty] at fits; simp at fits; omega
      have whole : back = page ++ last :: back.drop limit.toNat := by
        rw [List.append_cons, ← some, List.take_append_drop]
      have placed : tree.items = (front ++ page) ++ last :: back.drop limit.toNat := by
        rw [items, List.append_assoc, ← whole]
      have following : LedgerVcs.remaining tree.items (Option.some last.name) = back.drop limit.toNat := by
        rw [placed] at ascending ⊢
        exact remaining_after ascending
      have count := List.length_drop (i := limit.toNat) (l := back)
      have taken := List.length_take (i := limit.toNat) (l := back)
      obtain ⟨listed, others, paged⟩ := @ih (front ++ page ++ [last]) (back.drop limit.toNat) (Option.some last.name)
        (by rw [placed]; simp) following (by omega)
      refine ⟨⟨back.take limit.toNat, Option.some last.name⟩ :: listed, ?_, ?_⟩
      next => simp [fits, some, others, bind, Except.bind, pure, Except.pure]
      next =>
        obtain ⟨page', final, closed⟩ := paged.last
        have nonempty : listed ≠ [] := by
          rintro rfl
          cases final
        refine ⟨?_, ⟨page', ?_, closed⟩, ?_, ?_⟩
        next => rw [List.flatMap_cons, paged.whole, List.take_append_drop]
        next => rw [List.getLast?_cons, Option.mem_def.mp final]; rfl
        next =>
          rw [List.dropLast_cons_of_ne_nil nonempty]
          refine List.forall_mem_cons.mpr ⟨⟨by simp, ?_⟩, paged.others⟩
          simp only [taken]
          omega
        next =>
          intro _
          refine List.forall_mem_cons.mpr ⟨by simp [some], paged.filled fun none => ?_⟩
          rw [none, List.length_nil] at count
          omega

end Pages

end LedgerVcs
