import LedgerVcs.Fs.Built
import LedgerVcs.Fs.Diff

set_option autoImplicit false

/-! Directories in directories, each made by `build_tree`. -/

namespace LedgerVcs

open Wire (Bytes)
open Align (named)
open Objects (get_tree_ok)

variable {blake3 : Blake3} {store : Objects blake3} {params : ShapeParams}

/-! ## How high one directory is -/

/-- Each node is one level above its children. -/
inductive Stepped (store : Objects blake3) : Nat → ObjectName → Prop
  | leaf {root : ObjectName} {entries : List TreeEntry} (stored : store.get_tree root = .ok ⟨0, entries⟩) : Stepped store 0 root
  | node {level : Nat} {root : ObjectName} {entries : List TreeEntry}
    (stored : store.get_tree root = .ok ⟨((level + 1 : Nat) : Int), entries⟩)
    (below : ∀ entry ∈ entries, Stepped store level entry.target) : Stepped store (level + 1) root

theorem Stepped.height {level : Nat} {root : ObjectName} {tree : Rose Int Bytes TreeEntry} (stepped : Stepped store level root)
    (directory : store.Directory root tree) : tree.height ≤ level := by
  induction directory generalizing level with
  | leaf => rw [Rose.height, Rose.fold_leaf]; exact Nat.zero_le _
  | @node root upper children above stored inner ih =>
    cases stepped with
    | leaf again =>
      rw [(Tree.mk.inj (Except.ok.inj (stored.symm.trans again))).1] at above
      exact absurd above (lt_irrefl _)
    | node again below =>
      obtain ⟨-, same⟩ := Tree.mk.inj (Except.ok.inj (stored.symm.trans again))
      refine Rose.height_node_le fun pair member => ?_
      obtain ⟨child, there, rfl⟩ := List.mem_map.mp member
      exact ih child there (below child.1 (same ▸ List.mem_map_of_mem there))

theorem exists_left {α β : Type} {relates : α → β → Prop} {lefts : List α} {rights : List β}
    (pairs : List.Forall₂ relates lefts rights) {right : β} (member : right ∈ rights) :
    ∃ left ∈ lefts, relates left right := by
  induction pairs with
  | nil => cases member
  | cons related _ ih =>
    rcases List.mem_cons.mp member with rfl | later
    next => exact ⟨_, List.mem_cons_self, related⟩
    next =>
      obtain ⟨left, there, other⟩ := ih later
      exact ⟨left, List.mem_cons_of_mem _ there, other⟩

theorem round_stepped {level : Nat} {current nodes : List TreeEntry} {emitted middle : List (ObjectName × Bytes)}
    (below : ∀ entry ∈ current, level = 0 ∨ Stepped store (level - 1) entry.target)
    (built : build_tree_nodes blake3 level current 0
      (Runs.offsets 0 (partition_runs blake3 TreeEntry.name tree_entry_bytes level params current)) emitted =
        .ok (nodes, middle)) (held : store.Holds middle) : ∀ node ∈ nodes, Stepped store level node.target := by
  have flat := partition_runs_flatten blake3 TreeEntry.name tree_entry_bytes level params current
  have stand := (build_tree_nodes_stand [] _ (by rw [List.nil_append, flat]; exact built)).1
  intro node member
  obtain ⟨run, inside, stands⟩ := exists_left stand member
  have stored := stands.stored held
  cases level with
  | zero => exact .leaf stored
  | succ level =>
    refine .node stored fun entry there => ?_
    exact (below entry (flat ▸ List.mem_flatten.mpr ⟨run, inside, there⟩)).resolve_left (Nat.succ_ne_zero level)

theorem levels_stepped (rounds : Nat) {level : Nat} {current : List TreeEntry} {emitted out : List (ObjectName × Bytes)}
    {root : ObjectName} (below : ∀ entry ∈ current, level = 0 ∨ Stepped store (level - 1) entry.target)
    (built : build_tree_levels blake3 params rounds level current emitted = .ok (root, out)) (held : store.Holds out) :
    ∃ top < level + rounds, Stepped store top root := by
  induction rounds generalizing level current emitted with
  | zero => cases built
  | succ rounds ih =>
    obtain ⟨nodes, middle, -, written, rest⟩ := (round_ok blake3).mp built
    rcases rest with ⟨node, rfl, rfl, rfl⟩ | ⟨-, higher⟩
    next => exact ⟨level, by omega, round_stepped below written held node (List.mem_singleton_self node)⟩
    next =>
      obtain ⟨added, rfl, -⟩ := levels_emitted blake3 _ higher
      have stepped := round_stepped below written fun pair member => held pair (List.mem_append_left _ member)
      obtain ⟨top, low, root⟩ := ih (fun entry member => .inr (by simpa using stepped entry member)) higher
      exact ⟨top, by omega, root⟩

/-- Enough for the levels of any one directory that is built. -/
def LEVELS : Nat := MAX_LEVEL + 2

theorem built_low {entries : List TreeEntry} {root : ObjectName} {emitted : List (ObjectName × Bytes)}
    (built : build_tree blake3 entries params [] = .ok (root, emitted)) (held : store.Holds emitted)
    {tree : Rose Int Bytes TreeEntry} (directory : store.Directory root tree) : tree.height < LEVELS := by
  rw [build_tree] at built
  split at built
  next =>
    obtain ⟨framed, encoded, rfl, rfl⟩ := (emit_node_ok blake3).mp built
    have stands : StandsFor 0 [(name_of_encoded blake3 framed, framed)] []
        ⟨[], .tree, name_of_encoded blake3 framed, 0, 0⟩ := ⟨rfl, framed, encoded, by simp⟩
    have low := Stepped.height (.leaf (stands.stored held)) directory
    rw [LEVELS]
    omega
  next =>
    obtain ⟨_, middle, checked, levels⟩ := Monads.bind_ok.mp built
    obtain ⟨top, low, stepped⟩ := @levels_stepped _ store params (MAX_LEVEL + 2) 0 entries _ _ _ (fun _ _ => .inl rfl) levels held
    rw [LEVELS]
    have := stepped.height directory
    omega

/-! ## Nested directories -/

/-- A path, seen from the directory of that name. -/
def beneath (name : Bytes) : Option (List Bytes) → Option (List Bytes)
  | some (first :: rest) => if first = name then some rest else none
  | _ => none

/-- A directory that `build_tree` made, and so were the ones in it, but for what is taken as it is at one path. -/
inductive Built (store : Objects blake3) (params : ShapeParams) : (given : Option (List Bytes)) → (depth : Nat) → ObjectName → Prop
  | directory {given : Option (List Bytes)} {depth : Nat} {root : ObjectName} {entries : List TreeEntry}
    {emitted : List (ObjectName × Bytes)} (built : build_tree blake3 entries params [] = .ok (root, emitted))
    (held : store.Holds emitted)
    (below : ∀ entry ∈ entries, entry.kind = .tree → given ≠ some [entry.name] →
      Built store params (beneath entry.name given) depth entry.target) :
    Built store params given (depth + 1) root

theorem validated_plain {entries : List TreeEntry} {previous : Option Bytes}
    (valid : validate_tree_entries_from 0 previous entries = .ok ()) :
    ∀ entry ∈ entries, entry.kind = .tree → entry.mode = 0 ∧ entry.size = 0 := by
  induction entries generalizing previous with
  | nil => exact fun _ impossible => by cases impossible
  | cons entry entries ih =>
    simp only [validate_tree_entries_from, Monads.except_bind_ok, ensure_ok] at valid
    obtain ⟨_, -, _, -, _, fields, rest⟩ := valid
    refine List.forall_mem_cons.mpr ⟨fun tree => ?_, ih rest⟩
    simp only [validate_tree_entry_fields, lt_irrefl, if_false, tree, Monads.except_bind_ok, ensure_ok] at fields
    obtain ⟨_, -, _, plain, -⟩ := fields
    exact plain

/-- An entry for a directory says nothing but which one it is. -/
theorem Objects.Directory.plain {root : ObjectName} {tree : Rose Int Bytes TreeEntry} (directory : store.Directory root tree) :
    ∀ entry ∈ tree.items, entry.kind = .tree → entry.mode = 0 ∧ entry.size = 0 := by
  induction directory with
  | leaf stored =>
    obtain ⟨framed, read, -⟩ := store.verified (get_tree_ok.mp stored)
    rw [Rose.items_leaf]
    exact validated_plain (decode_ok.mp read).1.1.2.2
  | node above stored inner ih =>
    intro entry member
    rw [Rose.items_node] at member
    obtain ⟨pair, there, inside⟩ := List.mem_flatMap.mp member
    obtain ⟨child, listed, rfl⟩ := List.mem_map.mp there
    exact ih child listed entry inside

/-- What the reads of a built directory give. -/
theorem built_reads {entries : List TreeEntry} {root : ObjectName} {emitted : List (ObjectName × Bytes)} {nodes : Nat}
    (built : build_tree blake3 entries params [] = .ok (root, emitted)) (held : store.Holds emitted) (enough : LEVELS ≤ nodes) :
    ∃ tree, store.Directory root tree ∧ tree.height < nodes ∧ tree.items = entries ∧
      iter_entries store nodes root none = .of entries ∧ Routing.Ascending TreeEntry.name entries ∧
      (∀ entry ∈ entries, entry.kind = .tree → entry.mode = 0 ∧ entry.size = 0) ∧
      ∀ name, lookup store nodes root name = .ok (named TreeEntry.name entries name) := by
  obtain ⟨tree, directory, routed, rfl⟩ := built_directory built store held
  have low := (built_low built held directory).trans_le enough
  refine ⟨tree, directory, low, rfl, (directory.iter_entries low).1, routed.ascending directory.leaves, directory.plain,
    fun name => ?_⟩
  rw [directory.lookup low, routed.search]
  rfl

/-- What there is at a path: an entry as it is, or a directory. -/
inductive Content
  | entry (entry : TreeEntry)
  | directory
deriving DecidableEq

def Content.of (given : Option (List Bytes)) (entry : TreeEntry) : Content :=
  if entry.kind = .tree ∧ given ≠ some [entry.name] then .directory else .entry entry

/-- What the directory map of a tree has at the path. -/
def content_at (store : Objects blake3) (given : Option (List Bytes)) : ObjectName → (path : List Bytes) → Option Content
  | _, [] => none
  | tree, name :: path =>
    match named TreeEntry.name (iter_entries store LEVELS tree none).yielded name with
    | none => none
    | some entry =>
      if path = [] then some (.of given entry)
      else if entry.kind = .tree ∧ given ≠ some [name] then content_at store (beneath name given) entry.target path
      else none

/-- What it has at the path, by the entries of the directory. -/
def content_in (store : Objects blake3) (given : Option (List Bytes)) (entries : List TreeEntry) : (path : List Bytes) → Option Content
  | [] => none
  | name :: path =>
    (named TreeEntry.name entries name).bind fun entry =>
      if path = [] then some (.of given entry)
      else if entry.kind = .tree ∧ given ≠ some [name] then content_at store (beneath name given) entry.target path
      else none

theorem content_at_entries {given : Option (List Bytes)} {root : ObjectName} {entries : List TreeEntry}
    (lists : iter_entries store LEVELS root none = .of entries) (path : List Bytes) :
    content_at store given root path = content_in store given entries path := by
  cases path with
  | nil => rfl
  | cons name path =>
    rw [content_at, content_in, lists, Gen.yielded_of]
    cases named TreeEntry.name entries name <;> rfl

theorem named_some {entries : List TreeEntry} {name : Bytes} {entry : TreeEntry}
    (found : named TreeEntry.name entries name = some entry) : entry ∈ entries ∧ entry.name = name :=
  ⟨List.mem_of_find?_eq_some found, by simpa using List.find?_some found⟩

/-- Entries of one name and one content differ in nothing but the directory they may stand for. -/
theorem Content.of_inj {given : Option (List Bytes)} {entry other : TreeEntry} (same : of given entry = of given other)
    (name : entry.name = other.name) (plain : entry.kind = .tree → entry.mode = 0 ∧ entry.size = 0)
    (plain' : other.kind = .tree → other.mode = 0 ∧ other.size = 0)
    (below : entry.kind = .tree → other.kind = .tree → given ≠ some [entry.name] → entry.target = other.target) :
    entry = other := by
  unfold of at same
  rw [← name] at same
  by_cases tree : entry.kind = .tree ∧ given ≠ some [entry.name]
  next =>
    by_cases tree' : other.kind = .tree ∧ given ≠ some [entry.name]
    next =>
      have target := below tree.1 tree'.1 tree.2
      obtain ⟨_, _, _, _, _⟩ := entry
      obtain ⟨_, _, _, _, _⟩ := other
      obtain ⟨rfl, rfl⟩ := plain tree.1
      obtain ⟨rfl, rfl⟩ := plain' tree'.1
      obtain rfl : _ = _ := name
      obtain rfl : _ = _ := target
      obtain rfl : _ = _ := tree.1.trans tree'.1.symm
      rfl
    next => rw [if_pos tree, if_neg tree'] at same; cases same
  next =>
    by_cases tree' : other.kind = .tree ∧ given ≠ some [entry.name]
    next => rw [if_neg tree, if_pos tree'] at same; cases same
    next => rw [if_neg tree, if_neg tree'] at same; exact Content.entry.inj same

/-- One directory map has one name. -/
theorem one_map_one_name {store' : Objects blake3} {given : Option (List Bytes)} {depth depth' : Nat} {root root' : ObjectName}
    (first : Built store params given depth root) (second : Built store' params given depth' root')
    (same : ∀ path, content_at store given root path = content_at store' given root' path) : root = root' := by
  induction first generalizing depth' root' with
  | @directory given depth root entries emitted built held below ih =>
    cases second with
    | @directory _ depth' _ entries' emitted' built' held' below' =>
      obtain ⟨tree, -, -, -, lists, ascending, plain, -⟩ := built_reads built held (le_refl _)
      obtain ⟨tree', -, -, -, lists', ascending', plain', -⟩ := built_reads built' held' (le_refl _)
      simp only [content_at_entries lists, content_at_entries lists'] at same
      have entries_same : entries = entries' := by
        refine Align.named_inj ascending ascending' fun name => ?_
        have top := same [name]
        rw [content_in, content_in] at top
        cases found : named TreeEntry.name entries name with
        | none =>
          cases found' : named TreeEntry.name entries' name with
          | none => rfl
          | some other => rw [found, found'] at top; cases top
        | some entry =>
          obtain ⟨member, rfl⟩ := named_some found
          cases found' : named TreeEntry.name entries' entry.name with
          | none => rw [found, found'] at top; cases top
          | some other =>
            obtain ⟨member', name_is⟩ := named_some found'
            rw [found, found'] at top
            refine congrArg some (Content.of_inj (Option.some.inj top) name_is.symm (plain entry member)
              (plain' other member') fun tree tree' free => ?_)
            have built_there := below' other member' tree' (name_is ▸ free)
            rw [name_is] at built_there
            refine ih entry member tree free built_there fun path => ?_
            cases path with
            | nil => rfl
            | cons next path =>
              have deeper := same (entry.name :: next :: path)
              rw [content_in, content_in, found, found'] at deeper
              simpa [tree, tree', free] using deeper
      subst entries_same
      rw [built] at built'
      cases built'
      rfl

end LedgerVcs
