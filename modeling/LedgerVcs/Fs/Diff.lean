import LedgerVcs.Fs.Tree
import LedgerVcs.Lib.Align

set_option autoImplicit false

/-! Comparing two versions. -/

namespace LedgerVcs

open Wire (Bytes)
open Align (align named)

inductive ChangeKind
  | added | removed | modified
deriving DecidableEq, Repr

/-- One differing path. -/
structure Change where
  path : List Bytes
  kind : ChangeKind
  before : Option TreeEntry
  after : Option TreeEntry
deriving DecidableEq

section Diff

variable {blake3 : Blake3} (store : Objects blake3)

section Entries

variable (diff : (before after : Option ObjectName) → (base : List Bytes) → Gen PyError Change)

def diff_added (entry : TreeEntry) (base : List Bytes) : Gen PyError Change :=
  let path := base ++ [entry.name]
  if entry.kind = .tree then diff none (some entry.target) path
  else .of [⟨path, .added, none, some entry⟩]

def diff_removed (entry : TreeEntry) (base : List Bytes) : Gen PyError Change :=
  let path := base ++ [entry.name]
  if entry.kind = .tree then diff (some entry.target) none path
  else .of [⟨path, .removed, some entry, none⟩]

def diff_compare (before after : TreeEntry) (base : List Bytes) : Gen PyError Change :=
  if before.target = after.target ∧ before.mode = after.mode ∧ before.kind = after.kind then .of []
  else
    let path := base ++ [before.name]
    if before.kind = .tree ∧ after.kind = .tree then diff (some before.target) (some after.target) path
    -- A file replaced by a directory, or vice versa, is a removal and an addition.
    else if before.kind ≠ after.kind then (diff_removed diff before base).append (diff_added diff after base)
    else .of [⟨path, .modified, some before, some after⟩]

def merge_join (base : List Bytes) : (left right : List TreeEntry) → Gen PyError Change
  | [], [] => .of []
  | entry :: left, [] => (diff_removed diff entry base).append (merge_join base left [])
  | [], entry :: right => (diff_added diff entry base).append (merge_join base [] right)
  | before :: left, after :: right =>
    if before.name < after.name then (diff_removed diff before base).append (merge_join base left (after :: right))
    else if after.name < before.name then (diff_added diff after base).append (merge_join base (before :: left) right)
    else (diff_compare diff before after base).append (merge_join base left right)
termination_by left right => left.length + right.length

end Entries

def list_entries (nodes : Nat) : Option ObjectName → Except PyError (List TreeEntry)
  | none => .ok []
  | some tree => (iter_entries store nodes tree none).collect

/-- Over so many nested directories at most, each of at most so many levels of nodes. -/
def diff_trees (nodes : Nat) : (depth : Nat) → (before after : Option ObjectName) → (base : List Bytes) → Gen PyError Change
  | 0, _, _, _ => .raise too_deep
  | depth + 1, before, after, base =>
    -- Two identical subtrees have one name.
    if before = after then .of []
    else
      .fetching (list_entries store nodes before) fun left =>
        .fetching (list_entries store nodes after) fun right => merge_join (diff_trees nodes depth) base left right

end Diff

/-! ## What a tree holds -/

section Holding

variable {blake3 : Blake3} (store : Objects blake3) (nodes : Nat)

/-- A stored tree of directories, each of which lists its entries in the order of their names. -/
inductive Snapshot : (depth : Nat) → ObjectName → Prop
  | directory {depth : Nat} {root : ObjectName} {tree : Rose Int Bytes TreeEntry} (stored : store.Directory root tree)
    (shallow : tree.height < nodes) (ascending : Routing.Ascending TreeEntry.name tree.items)
    (below : ∀ entry ∈ tree.items, entry.kind = .tree → Snapshot depth entry.target) : Snapshot (depth + 1) root

/-- What is at the path, if it is not a directory. -/
def file_at : Option ObjectName → (path : List Bytes) → Option TreeEntry
  | none, _ => none
  | some _, [] => none
  | some tree, name :: path =>
    match named TreeEntry.name (iter_entries store nodes tree none).yielded name with
    | none => none
    | some entry =>
      if entry.kind = .tree then file_at (some entry.target) path
      else if path = [] then some entry else none

/-- What is at a path below the entry. -/
def file_below : Option TreeEntry → (path : List Bytes) → Option TreeEntry
  | none, _ => none
  | some entry, path =>
    if entry.kind = .tree then file_at store nodes (some entry.target) path
    else if path = [] then some entry else none

end Holding

/-- What a change of the path says: an entry where there was none of that kind, none of that kind where there was
an entry, or two of one kind that differ. -/
def Differs (old new : Option TreeEntry) (change : Change) : Prop :=
  match change.kind, change.before, change.after with
  | .added, none, some entry => new = some entry ∧ ∀ other ∈ old, other.kind ≠ entry.kind
  | .removed, some entry, none => old = some entry ∧ ∀ other ∈ new, other.kind ≠ entry.kind
  | .modified, some before, some after =>
    old = some before ∧ new = some after ∧ before.kind = after.kind ∧ (before.target ≠ after.target ∨ before.mode ≠ after.mode)
  | _, _, _ => False

/-- The changes of the paths below the base, each once. -/
structure Exact (base : List Bytes) (old new : List Bytes → Option TreeEntry) (changes : List Change) : Prop where
  once : (changes.map fun change => (change.path, change.kind)).Nodup
  changed : ∀ change, change ∈ changes ↔ ∃ path, change.path = base ++ path ∧ Differs (old path) (new path) change

section Changes

variable {base : List Bytes} {old new : List Bytes → Option TreeEntry}

/-- The one change there can be of a path. -/
theorem differs_cases {old new : Option TreeEntry} {change : Change} (differs : Differs old new change) :
    (∃ entry, change = ⟨change.path, .added, none, some entry⟩ ∧ new = some entry ∧ ∀ other ∈ old, other.kind ≠ entry.kind) ∨
      (∃ entry, change = ⟨change.path, .removed, some entry, none⟩ ∧ old = some entry ∧
        ∀ other ∈ new, other.kind ≠ entry.kind) ∨
      ∃ before after, change = ⟨change.path, .modified, some before, some after⟩ ∧ old = some before ∧ new = some after ∧
        before.kind = after.kind ∧ (before.target ≠ after.target ∨ before.mode ≠ after.mode) := by
  obtain ⟨path, kind, before, after⟩ := change
  rw [Differs] at differs
  split at differs
  next entry kind before after => exact .inl ⟨entry, by cases kind; cases before; cases after; rfl, differs⟩
  next entry kind before after => exact .inr (.inl ⟨entry, by cases kind; cases before; cases after; rfl, differs⟩)
  next left right kind before after =>
    exact .inr (.inr ⟨left, right, by cases kind; cases before; cases after; rfl, differs⟩)
  next => exact differs.elim

theorem not_differs {old new : Option TreeEntry} (alike : ∀ before ∈ old, ∀ after ∈ new,
      before.target = after.target ∧ before.mode = after.mode ∧ before.kind = after.kind)
    (both : old = none ↔ new = none) (change : Change) : ¬ Differs old new change := by
  intro differs
  rcases differs_cases differs with ⟨entry, -, rfl, apart⟩ | ⟨entry, -, rfl, apart⟩ | ⟨before, after, -, rfl, rfl, -, apart⟩
  next =>
    cases old with
    | none => cases both.mp rfl
    | some other => exact apart other rfl (alike other rfl entry rfl).2.2
  next =>
    cases new with
    | none => cases both.mpr rfl
    | some other => exact apart other rfl (alike entry rfl other rfl).2.2.symm
  next =>
    obtain ⟨target, mode, -⟩ := alike before rfl after rfl
    exact apart.elim (· target) (· mode)

theorem exact_nothing (same : ∀ path change, ¬ Differs (old path) (new path) change) : Exact base old new [] :=
  ⟨List.nodup_nil, fun change => ⟨fun impossible => (by cases impossible), fun ⟨path, _, differs⟩ =>
    absurd differs (same path change)⟩⟩

theorem differs_apart {old new : Option TreeEntry} {change : Change}
    (apart : ∀ before ∈ old, ∀ after ∈ new, before.kind ≠ after.kind) :
    Differs old new change ↔ Differs old none change ∨ Differs none new change := by
  constructor
  next =>
    intro differs
    rcases differs_cases differs with ⟨entry, same, rfl, -⟩ | ⟨entry, same, rfl, -⟩ | ⟨before, after, -, rfl, rfl, same, -⟩
    next => exact .inr (by rw [same]; exact ⟨rfl, fun _ impossible => by cases impossible⟩)
    next => exact .inl (by rw [same]; exact ⟨rfl, fun _ impossible => by cases impossible⟩)
    next => exact absurd same (apart before rfl after rfl)
  next =>
    rintro (differs | differs)
    all_goals
      rcases differs_cases differs with ⟨entry, same, known, -⟩ | ⟨entry, same, known, -⟩ | ⟨before, after, -, known, known', -⟩
    next => cases known
    next => rw [same]; exact ⟨known, fun other member => (apart entry known other member).symm⟩
    next => cases known'
    next => rw [same]; exact ⟨known, fun other member => apart other member entry known⟩
    next => cases known
    next => cases known

/-- Entries of different kinds at one path: the one is removed and the other added. -/
theorem exact_apart {removed added : List Change} (first : Exact base old (fun _ => none) removed)
    (second : Exact base (fun _ => none) new added)
    (apart : ∀ path, ∀ before ∈ old path, ∀ after ∈ new path, before.kind ≠ after.kind) :
    Exact base old new (removed ++ added) := by
  constructor
  next =>
    rw [List.map_append]
    refine List.nodup_append.mpr ⟨first.once, second.once, fun left member right member' same => ?_⟩
    obtain ⟨gone, there, rfl⟩ := List.mem_map.mp member
    obtain ⟨come, there', rfl⟩ := List.mem_map.mp member'
    obtain ⟨_, -, differs⟩ := (first.changed gone).mp there
    obtain ⟨_, -, differs'⟩ := (second.changed come).mp there'
    have kinds : gone.kind = come.kind := congrArg Prod.snd same
    -- What has gone is removed, and what has come is added.
    rcases differs_cases differs with ⟨_, _, impossible, -⟩ | ⟨_, whole, -⟩ | ⟨_, _, _, _, impossible, -⟩
    next => cases impossible
    next =>
      rcases differs_cases differs' with ⟨_, whole', -⟩ | ⟨_, _, impossible, -⟩ | ⟨_, _, _, impossible, -⟩
      next => rw [whole, whole'] at kinds; cases kinds
      next => cases impossible
      next => cases impossible
    next => cases impossible
  next =>
    intro change
    simp only [List.mem_append, first.changed, second.changed, ← exists_or, ← and_or_left, ← differs_apart (apart _)]

theorem differs_removed {entry : TreeEntry} {change : Change} :
    Differs (some entry) none change ↔ change = ⟨change.path, .removed, some entry, none⟩ := by
  constructor
  next =>
    intro differs
    rcases differs_cases differs with ⟨_, _, impossible, -⟩ | ⟨other, whole, same, -⟩ | ⟨_, _, _, _, impossible, -⟩
    next => cases impossible
    next => rw [Option.some.inj same]; exact whole
    next => cases impossible
  next => intro whole; rw [whole]; exact ⟨rfl, fun _ impossible => by cases impossible⟩

theorem differs_added {entry : TreeEntry} {change : Change} :
    Differs none (some entry) change ↔ change = ⟨change.path, .added, none, some entry⟩ := by
  constructor
  next =>
    intro differs
    rcases differs_cases differs with ⟨other, whole, same, -⟩ | ⟨_, _, impossible, -⟩ | ⟨_, _, _, impossible, -⟩
    next => rw [Option.some.inj same]; exact whole
    next => cases impossible
    next => cases impossible
  next => intro whole; rw [whole]; exact ⟨rfl, fun _ impossible => by cases impossible⟩

theorem differs_modified {before after : TreeEntry} {change : Change} (kind : before.kind = after.kind)
    (unlike : before.target ≠ after.target ∨ before.mode ≠ after.mode) :
    Differs (some before) (some after) change ↔ change = ⟨change.path, .modified, some before, some after⟩ := by
  constructor
  next =>
    intro differs
    rcases differs_cases differs with ⟨_, _, same, apart⟩ | ⟨_, _, same, apart⟩ | ⟨_, _, whole, same, same', -⟩
    next => exact absurd (Option.some.inj same ▸ kind) (apart before rfl)
    next => exact absurd (Option.some.inj same ▸ kind.symm) (apart after rfl)
    next => rw [Option.some.inj same, Option.some.inj same']; exact whole
  next => intro whole; rw [whole]; exact ⟨rfl, rfl, kind, unlike⟩

theorem exact_one {change : Change} (here : change.path = base)
    (differs : ∀ other, Differs (old []) (new []) other ↔ other = { change with path := other.path })
    (only : ∀ path other, path ≠ [] → ¬ Differs (old path) (new path) other) : Exact base old new [change] := by
  refine ⟨List.nodup_singleton _, fun other => ?_⟩
  rw [List.mem_singleton]
  constructor
  next =>
    rintro rfl
    exact ⟨[], by rw [here, List.append_nil], (differs other).mpr rfl⟩
  next =>
    rintro ⟨path, there, apart⟩
    cases path with
    | nil =>
      rw [(differs other).mp apart, there, List.append_nil, ← here]
    | cons => exact absurd apart (only _ _ (List.cons_ne_nil _ _))

/-- The changes below each of several names, one after the other. -/
theorem exact_names {names : List Bytes} {part : Bytes → List Change} (ascending : names.Pairwise (· < ·))
    (parts : ∀ name ∈ names, Exact (base ++ [name]) (fun path => old (name :: path)) (fun path => new (name :: path)) (part name))
    (elsewhere : ∀ path change, (∀ name ∈ names, path.head? ≠ some name) → ¬ Differs (old path) (new path) change) :
    Exact base old new (names.flatMap part) := by
  have found {name : Bytes} {change : Change} (member : name ∈ names) (there : change ∈ part name) :
      ∃ path, change.path = base ++ name :: path := by
    obtain ⟨path, same, -⟩ := ((parts name member).changed change).mp there
    exact ⟨path, by rw [same, List.append_assoc, List.singleton_append]⟩
  constructor
  next =>
    rw [List.map_flatMap]
    refine List.nodup_flatMap.mpr ⟨fun name member => (parts name member).once, ?_⟩
    refine ascending.imp_of_mem fun {left right} member member' before pair there there' => ?_
    obtain ⟨change, inside, rfl⟩ := List.mem_map.mp there
    obtain ⟨other, inside', same⟩ := List.mem_map.mp there'
    obtain ⟨path, whole⟩ := found member inside
    obtain ⟨path', whole'⟩ := found member' inside'
    have paths : other.path = change.path := congrArg Prod.fst same
    rw [whole, whole', List.append_cancel_left_eq, List.cons.injEq] at paths
    exact absurd paths.1.symm (Std.ne_of_lt before)
  next =>
    intro change
    rw [List.mem_flatMap]
    constructor
    next =>
      rintro ⟨name, member, there⟩
      obtain ⟨path, same, differs⟩ := ((parts name member).changed change).mp there
      exact ⟨name :: path, by rw [same, List.append_assoc, List.singleton_append], differs⟩
    next =>
      rintro ⟨path, same, differs⟩
      have here : ∃ name ∈ names, path.head? = some name := by
        by_contra none
        exact elsewhere path change (fun name member heads => none ⟨name, member, heads⟩) differs
      obtain ⟨name, member, heads⟩ := here
      obtain ⟨rest, rfl⟩ : ∃ rest, path = name :: rest := by
        cases path with
        | nil => cases heads
        | cons first rest => exact ⟨rest, by rw [Option.some.inj heads]⟩
      exact ⟨name, member, ((parts name member).changed change).mpr
        ⟨rest, by rw [same, List.append_assoc, List.singleton_append], differs⟩⟩

end Changes

/-! ## The merge -/

section Merging

variable {blake3 : Blake3} {store : Objects blake3} {nodes : Nat}

section Entries

variable {diff : (before after : Option ObjectName) → (base : List Bytes) → Gen PyError Change} {base : List Bytes}

/-- What the join does with the entries of one name. -/
def diff_pair (diff : (before after : Option ObjectName) → (base : List Bytes) → Gen PyError Change) (base : List Bytes) :
    Option TreeEntry × Option TreeEntry → Gen PyError Change
  | (none, none) => .of []
  | (some before, none) => diff_removed diff before base
  | (none, some after) => diff_added diff after base
  | (some before, some after) => diff_compare diff before after base

theorem merge_join_align (left right : List TreeEntry) :
    merge_join diff base left right = .each (align TreeEntry.name left right) (diff_pair diff base) := by
  induction left generalizing right with
  | nil =>
    induction right with
    | nil => rw [merge_join, align]; rfl
    | cons entry right ih => rw [merge_join, align, ih]; rfl
  | cons before left later =>
    induction right with
    | nil => rw [merge_join, align, later]; rfl
    | cons after right ih =>
      by_cases earlier : before.name < after.name
      next => rw [merge_join, align, if_pos earlier, if_pos earlier, later]; rfl
      next =>
        by_cases behind : after.name < before.name
        next => rw [merge_join, align, if_neg earlier, if_pos behind, if_neg earlier, if_pos behind, ih]; rfl
        next => rw [merge_join, align, if_neg earlier, if_neg behind, if_neg earlier, if_neg behind, later]; rfl

end Entries

theorem file_at_none : file_at store nodes none = fun _ => none :=
  funext fun _ => by rw [file_at]

theorem file_at_cons (tree : ObjectName) (name : Bytes) (path : List Bytes) :
    file_at store nodes (some tree) (name :: path) =
      file_below store nodes (named TreeEntry.name (iter_entries store nodes tree none).yielded name) path := by
  rw [file_at]
  cases named TreeEntry.name (iter_entries store nodes tree none).yielded name <;> rfl

theorem file_below_tree {entry : TreeEntry} (tree : entry.kind = .tree) :
    file_below store nodes (some entry) = file_at store nodes (some entry.target) :=
  funext fun _ => if_pos tree

theorem file_below_file {entry : TreeEntry} (file : ¬ entry.kind = .tree) (path : List Bytes) :
    file_below store nodes (some entry) path = if path = [] then some entry else none :=
  if_neg file

/-- What is known of the comparison of the directories below. -/
def Compares (store : Objects blake3) (nodes depth : Nat)
    (diff : (before after : Option ObjectName) → (base : List Bytes) → Gen PyError Change) : Prop :=
  ∀ before after base, (∀ tree ∈ before, Snapshot store nodes depth tree) → (∀ tree ∈ after, Snapshot store nodes depth tree) →
    (before ≠ none ∨ after ≠ none) → ∃ changes, diff before after base = .of changes ∧
      Exact base (file_at store nodes before) (file_at store nodes after) changes

variable {depth : Nat} {diff : (before after : Option ObjectName) → (base : List Bytes) → Gen PyError Change}

theorem removed_exact (compares : Compares store nodes depth diff) {entry : TreeEntry} (base : List Bytes)
    (below : entry.kind = .tree → Snapshot store nodes depth entry.target) :
    ∃ changes, diff_removed diff entry base = .of changes ∧
      Exact (base ++ [entry.name]) (file_below store nodes (some entry)) (fun _ => none) changes := by
  rw [diff_removed]
  by_cases tree : entry.kind = .tree
  next =>
    simp only [if_pos tree, file_below_tree tree, ← @file_at_none _ store nodes]
    exact compares (some entry.target) none (base ++ [entry.name]) (fun _ same => Option.some.inj same ▸ below tree)
      (fun _ impossible => by cases impossible) (.inl (Option.some_ne_none _))
  next =>
    simp only [if_neg tree]
    refine ⟨_, rfl, exact_one rfl (fun other => ?_) fun path other deeper => ?_⟩
    next => rw [file_below_file tree, if_pos rfl, differs_removed]
    next =>
      rw [file_below_file tree, if_neg deeper]
      exact not_differs (fun _ impossible => by cases impossible) Iff.rfl other

theorem added_exact (compares : Compares store nodes depth diff) {entry : TreeEntry} (base : List Bytes)
    (below : entry.kind = .tree → Snapshot store nodes depth entry.target) :
    ∃ changes, diff_added diff entry base = .of changes ∧
      Exact (base ++ [entry.name]) (fun _ => none) (file_below store nodes (some entry)) changes := by
  rw [diff_added]
  by_cases tree : entry.kind = .tree
  next =>
    simp only [if_pos tree, file_below_tree tree, ← @file_at_none _ store nodes]
    exact compares none (some entry.target) (base ++ [entry.name]) (fun _ impossible => by cases impossible)
      (fun _ same => Option.some.inj same ▸ below tree) (.inr (Option.some_ne_none _))
  next =>
    simp only [if_neg tree]
    refine ⟨_, rfl, exact_one rfl (fun other => ?_) fun path other deeper => ?_⟩
    next => rw [file_below_file tree, if_pos rfl, differs_added]
    next =>
      rw [file_below_file tree, if_neg deeper]
      exact not_differs (fun _ impossible => by cases impossible) Iff.rfl other

/-- Entries of different kinds leave nothing of one kind at one path. -/
theorem kinds_apart {before after : TreeEntry} (kinds : before.kind ≠ after.kind) (path : List Bytes) :
    ∀ first ∈ file_below store nodes (some before) path, ∀ second ∈ file_below store nodes (some after) path,
      first.kind ≠ second.kind := by
  intro first here second there
  have none_here (tree : ObjectName) : file_at store nodes (some tree) [] = none := by rw [file_at]
  by_cases tree : before.kind = .tree
  next =>
    have file : ¬ after.kind = .tree := fun tree' => kinds (tree.trans tree'.symm)
    rw [file_below_tree tree] at here
    rw [file_below_file file] at there
    by_cases top : path = []
    next => rw [top, none_here] at here; cases here
    next => rw [if_neg top] at there; cases there
  next =>
    rw [file_below_file tree] at here
    by_cases top : path = []
    next =>
      rw [if_pos top] at here
      obtain rfl := Option.some.inj here
      by_cases tree' : after.kind = .tree
      next => rw [file_below_tree tree', top, none_here] at there; cases there
      next =>
        rw [file_below_file tree', if_pos top] at there
        obtain rfl := Option.some.inj there
        exact kinds
    next => rw [if_neg top] at here; cases here

theorem compare_exact (compares : Compares store nodes depth diff) {before after : TreeEntry} (base : List Bytes)
    (named : before.name = after.name) (old : before.kind = .tree → Snapshot store nodes depth before.target)
    (new : after.kind = .tree → Snapshot store nodes depth after.target) :
    ∃ changes, diff_compare diff before after base = .of changes ∧
      Exact (base ++ [before.name]) (file_below store nodes (some before)) (file_below store nodes (some after)) changes := by
  rw [diff_compare]
  by_cases same : before.target = after.target ∧ before.mode = after.mode ∧ before.kind = after.kind
  next =>
    rw [if_pos same]
    refine ⟨[], rfl, exact_nothing fun path change => ?_⟩
    obtain ⟨target, mode, kind⟩ := same
    by_cases tree : before.kind = .tree
    next =>
      rw [file_below_tree tree, file_below_tree (kind ▸ tree), target]
      exact not_differs (fun first here second there => by rw [here] at there; cases there; exact ⟨rfl, rfl, rfl⟩) Iff.rfl change
    next =>
      rw [file_below_file tree, file_below_file (kind ▸ tree)]
      by_cases top : path = []
      next => simp only [if_pos top]; exact not_differs (by rintro _ ⟨⟩ _ ⟨⟩; exact ⟨target, mode, kind⟩) (by simp) change
      next => simp only [if_neg top]; exact not_differs (fun _ impossible => by cases impossible) Iff.rfl change
  next =>
    rw [if_neg same]
    by_cases trees : before.kind = .tree ∧ after.kind = .tree
    next =>
      simp only [if_pos trees, file_below_tree trees.1, file_below_tree trees.2]
      exact compares _ _ _ (fun _ same => Option.some.inj same ▸ old trees.1) (fun _ same => Option.some.inj same ▸ new trees.2)
        (.inl (Option.some_ne_none _))
    next =>
      simp only [if_neg trees]
      by_cases kinds : before.kind = after.kind
      next =>
        have file : ¬ before.kind = .tree := fun tree => trees ⟨tree, kinds ▸ tree⟩
        rw [if_neg (not_not_intro kinds)]
        refine ⟨_, rfl, exact_one rfl (fun other => ?_) fun path other deeper => ?_⟩
        next =>
          rw [file_below_file file, file_below_file (kinds ▸ file), if_pos rfl, if_pos rfl, differs_modified kinds]
          by_contra alike
          push Not at alike
          exact same ⟨alike.1, alike.2, kinds⟩
        next =>
          rw [file_below_file file, file_below_file (kinds ▸ file), if_neg deeper]
          exact not_differs (fun _ impossible => by cases impossible) (by rw [if_neg deeper]) other
      next =>
        rw [if_pos kinds]
        obtain ⟨removed, yields, exact⟩ := removed_exact compares base old
        obtain ⟨added, yields', exact'⟩ := added_exact compares base new
        refine ⟨removed ++ added, by rw [yields, yields', Gen.append_of], exact_apart exact (named ▸ exact') ?_⟩
        exact fun path => kinds_apart kinds path

/-- What two directories hold, and what lies below an entry of each. -/
theorem merge_exact (compares : Compares store nodes depth diff) {left right : List TreeEntry} (base : List Bytes)
    {old new : List Bytes → Option TreeEntry}
    (ascending : Routing.Ascending TreeEntry.name left) (ascending' : Routing.Ascending TreeEntry.name right)
    (below : ∀ entry ∈ left, entry.kind = .tree → Snapshot store nodes depth entry.target)
    (below' : ∀ entry ∈ right, entry.kind = .tree → Snapshot store nodes depth entry.target)
    (holds : old [] = none ∧ ∀ name path, old (name :: path) = file_below store nodes (named TreeEntry.name left name) path)
    (holds' : new [] = none ∧ ∀ name path, new (name :: path) = file_below store nodes (named TreeEntry.name right name) path) :
    ∃ changes, merge_join diff base left right = .of changes ∧ Exact base old new changes := by
  obtain ⟨names, order, members, pairs⟩ := Align.align_keys ascending ascending'
  have listed {entries : List TreeEntry} {name : Bytes} {entry : TreeEntry} (found : named TreeEntry.name entries name = some entry) :
      entry ∈ entries ∧ entry.name = name :=
    ⟨List.mem_of_find?_eq_some found, by simpa using List.find?_some found⟩
  have part (name : Bytes) : ∃ changes,
      diff_pair diff base (named TreeEntry.name left name, named TreeEntry.name right name) = .of changes ∧
        Exact (base ++ [name]) (fun path => old (name :: path)) (fun path => new (name :: path)) changes := by
    simp only [holds.2, holds'.2]
    cases found : named TreeEntry.name left name with
    | none =>
      cases found' : named TreeEntry.name right name with
      | none => exact ⟨[], rfl, exact_nothing fun path change => not_differs (fun _ impossible => by cases impossible) Iff.rfl change⟩
      | some after =>
        obtain ⟨member', rfl⟩ := listed found'
        exact added_exact compares base (below' after member')
    | some before =>
      obtain ⟨member, rfl⟩ := listed found
      cases found' : named TreeEntry.name right before.name with
      | none => exact removed_exact compares base (below before member)
      | some after =>
        obtain ⟨member', same⟩ := listed found'
        exact compare_exact compares base same.symm (below before member) (below' after member')
  choose changes yields exact using part
  refine ⟨names.flatMap changes, ?_, exact_names order (fun name _ => exact name) fun path change outside => ?_⟩
  next => rw [merge_join_align, pairs, Gen.each_map, Gen.each_of fun name _ => yields name]
  next =>
    have absent {entries : List TreeEntry} {name : Bytes} (missing : name ∉ names) (inside : ∀ entry ∈ entries, entry ∈ left ∨ entry ∈ right) :
        named TreeEntry.name entries name = none := by
      cases found : named TreeEntry.name entries name with
      | none => rfl
      | some entry =>
        obtain ⟨member, same⟩ := listed found
        exact absurd ((members name).mpr ⟨entry, inside entry member, same⟩) missing
    have neither : old path = none ∧ new path = none := by
      cases path with
      | nil => exact ⟨holds.1, holds'.1⟩
      | cons name rest =>
        have missing : name ∉ names := fun member => outside name member rfl
        rw [holds.2, holds'.2, absent missing fun _ => .inl, absent missing fun _ => .inr]
        exact ⟨rfl, rfl⟩
    rw [neither.1, neither.2]
    exact not_differs (fun _ impossible => by cases impossible) Iff.rfl change

theorem list_entries_snapshot {tree : Option ObjectName} (snapshot : ∀ root ∈ tree, Snapshot store nodes (depth + 1) root) :
    ∃ entries, list_entries store nodes tree = .ok entries ∧ Routing.Ascending TreeEntry.name entries ∧
      (∀ entry ∈ entries, entry.kind = .tree → Snapshot store nodes depth entry.target) ∧
      file_at store nodes tree [] = none ∧ ∀ name path, file_at store nodes tree (name :: path) =
        file_below store nodes (named TreeEntry.name entries name) path := by
  cases tree with
  | none => exact ⟨[], rfl, .nil, fun _ impossible => (by cases impossible), rfl, fun _ _ => rfl⟩
  | some root =>
    cases snapshot root rfl with
    | @directory _ _ tree stored shallow ascending below =>
      have lists := (stored.iter_entries shallow).1
      refine ⟨tree.items, by rw [list_entries, lists, Gen.collect_of], ascending, below, rfl, fun name path => ?_⟩
      rw [file_at_cons, lists, Gen.yielded_of]

theorem diff_trees_compares : Compares store nodes depth (diff_trees store nodes depth) := by
  induction depth with
  | zero =>
    rintro before after base old new (given | given)
    next =>
      obtain ⟨tree, rfl⟩ := Option.ne_none_iff_exists'.mp given
      cases old tree rfl
    next =>
      obtain ⟨tree, rfl⟩ := Option.ne_none_iff_exists'.mp given
      cases new tree rfl
  | succ depth ih =>
    intro before after base old new _
    rw [diff_trees]
    by_cases same : before = after
    next =>
      rw [if_pos same]
      refine ⟨[], rfl, exact_nothing fun path change => ?_⟩
      rw [same]
      exact not_differs (fun first here second there => by rw [here] at there; cases there; exact ⟨rfl, rfl, rfl⟩) Iff.rfl change
    next =>
      obtain ⟨left, lists, ascending, below, holds⟩ := list_entries_snapshot old
      obtain ⟨right, lists', ascending', below', holds'⟩ := list_entries_snapshot new
      rw [if_neg same, lists, lists', Gen.fetching_ok, Gen.fetching_ok]
      exact merge_exact ih base ascending ascending' below below' holds holds'

end Merging

example : diff_trees bothSplits 2 1 (some onlyAName) (some splitRootName) [] =
    .of [⟨[[0x63]], .added, none, some (fileEntry [0x63])⟩] := by decide +kernel

end LedgerVcs
