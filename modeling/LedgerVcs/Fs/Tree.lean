import LedgerVcs.Format.Directories
import LedgerVcs.Lib.Gen
import LedgerVcs.Lib.Routing
import LedgerVcs.Store.Objects

set_option autoImplicit false

/-! Reading directories: lookup and paginated listing. -/

namespace LedgerVcs

open Wire (Bytes)
open Objects (get_tree_ok)

structure DirectoryPage where
  entries : List TreeEntry
  cursor : Option Bytes
deriving DecidableEq

/-! ## The readers -/

/-- The first entry whose key is not below the name. -/
def child_covering (node : Tree) (name : Bytes) : Option TreeEntry := node.entries.find? fun entry => name ≤ entry.name

def find_in_leaf (name : Bytes) : List TreeEntry → Option TreeEntry
  | [] => none
  | entry :: entries =>
    if entry.name = name then some entry
    else if name < entry.name then none
    else find_in_leaf name entries

/-- Trees are finite, so with fuel enough this is never raised. -/
def too_deep : PyError := .assertionError "more nodes than the tree has"

section Readers

variable {blake3 : Blake3} (store : Objects blake3)

/-- The loop of `lookup`, over at most so many nodes. -/
def lookup_from (name : Bytes) : (nodes : Nat) → Tree → Except PyError (Option TreeEntry)
  | 0, _ => throw too_deep
  | nodes + 1, node =>
    if node.level > 0 then
      match child_covering node name with
      | none => return none
      | some child => do
        let node ← store.get_tree child.target
        lookup_from name nodes node
    else return find_in_leaf name node.entries

def lookup (nodes : Nat) (tree : ObjectName) (name : Bytes) : Except PyError (Option TreeEntry) := do
  let node ← store.get_tree tree
  lookup_from store name nodes node

def iter_entries : (depth : Nat) → ObjectName → (after : Option Bytes) → Gen PyError TreeEntry
  | 0, _, _ => .raise too_deep
  | depth + 1, tree, after =>
    .fetching (store.get_tree tree) fun node =>
      if node.level = 0 then .of (node.entries.filter fun entry => ∀ last ∈ after, last < entry.name)
      else .each node.entries fun child =>
        if ∃ last ∈ after, child.name ≤ last then .of [] else iter_entries depth child.target after

def list_dir (depth : Nat) (tree : ObjectName) (after : Option Bytes) (limit : Int) : Except PyError DirectoryPage := do
  ensure (0 < limit) (.valueError "limit must be positive")
  let listing := iter_entries store depth tree after
  let collected := listing.yielded.take limit.toNat
  match collected.getLast? with
  | some entry =>
    if collected.length = limit then
      -- the generator is not asked for more than the limit
      let more ← (iter_entries store depth tree (some entry.name)).first
      return ⟨collected, if more.isSome then some entry.name else none⟩
    else
      let collected ← listing.collect
      return ⟨collected, none⟩
  | none =>
    let collected ← listing.collect
    return ⟨collected, none⟩

end Readers

/-! ## What a name's nodes hold -/

def keyed (child : TreeEntry × Rose Int Bytes TreeEntry) : Bytes × Rose Int Bytes TreeEntry := (child.1.name, child.2)

/-- All the nodes below a name are stored. -/
inductive Objects.Directory {blake3 : Blake3} (store : Objects blake3) : ObjectName → Rose Int Bytes TreeEntry → Prop
  | leaf {name : ObjectName} {entries : List TreeEntry} (stored : store.get_tree name = .ok ⟨0, entries⟩) :
    Directory store name (.leaf entries)
  | node {name : ObjectName} {level : Int} {children : List (TreeEntry × Rose Int Bytes TreeEntry)} (above : 0 < level)
    (stored : store.get_tree name = .ok ⟨level, children.map Prod.fst⟩)
    (inner : ∀ child ∈ children, Directory store child.1.target child.2) :
    Directory store name (.node level (children.map keyed))

theorem validated_ascending {level : Int} {entries : List TreeEntry} {previous : Option Bytes}
    (valid : validate_tree_entries_from level previous entries = .ok ()) :
    (∀ before ∈ previous, ∀ entry ∈ entries, before < entry.name) ∧ Routing.Ascending TreeEntry.name entries := by
  induction entries generalizing previous with
  | nil => exact ⟨fun _ _ _ none => absurd none List.not_mem_nil, List.Pairwise.nil⟩
  | cons entry entries ih =>
    simp only [validate_tree_entries_from, Monads.except_bind_ok, ensure_ok] at valid
    obtain ⟨_, -, _, above, _, -, rest⟩ := valid
    obtain ⟨behind, ascending⟩ := ih rest
    have first (before : Bytes) (given : before ∈ previous) : before < entry.name := List.not_le.mp (above before given)
    refine ⟨fun before given => List.forall_mem_cons.mpr ⟨first before given, fun later member => ?_⟩,
      List.pairwise_cons.mpr ⟨behind entry.name rfl, ascending⟩⟩
    exact List.lt_trans (first before given) (behind entry.name rfl later member)

theorem validated_bare {level : Int} (above : 0 < level) {entries : List TreeEntry} {previous : Option Bytes}
    (valid : validate_tree_entries_from level previous entries = .ok ()) : ∀ entry ∈ entries, Bare entry := by
  induction entries generalizing previous with
  | nil => exact fun _ none => absurd none List.not_mem_nil
  | cons entry entries ih =>
    simp only [validate_tree_entries_from, Monads.except_bind_ok, ensure_ok] at valid
    obtain ⟨_, -, _, -, _, fields, rest⟩ := valid
    refine List.forall_mem_cons.mpr ⟨?_, ih rest⟩
    simp only [validate_tree_entry_fields, above, if_true, Monads.except_bind_ok, ensure_ok] at fields
    obtain ⟨_, -, bare⟩ := fields
    exact bare

theorem Bare.same {left right : TreeEntry} (bare : Bare left) (too : Bare right) (name : left.name = right.name)
    (target : left.target = right.target) : left = right := by
  obtain ⟨_, _, _, _, _⟩ := left
  obtain ⟨_, _, _, _, _⟩ := right
  obtain ⟨rfl, rfl, rfl⟩ := bare
  obtain ⟨rfl, rfl, rfl⟩ := too
  obtain rfl : _ = _ := name
  obtain rfl : _ = _ := target
  rfl

section Directory

variable {blake3 : Blake3} {store : Objects blake3} {name : ObjectName} {tree : Rose Int Bytes TreeEntry}

theorem stored_ascending {node : Tree} (stored : store.get_tree name = .ok node) :
    Routing.Ascending TreeEntry.name node.entries := by
  obtain ⟨framed, read, -⟩ := store.verified (get_tree_ok.mp stored)
  exact (validated_ascending (decode_ok.mp read).1.1.2.2).2

theorem stored_bare {node : Tree} (above : 0 < node.level) (stored : store.get_tree name = .ok node) :
    ∀ entry ∈ node.entries, Bare entry := by
  obtain ⟨framed, read, -⟩ := store.verified (get_tree_ok.mp stored)
  exact validated_bare above (decode_ok.mp read).1.1.2.2

theorem Objects.Directory.leaves (directory : store.Directory name tree) :
    Routing.LeavesAscending TreeEntry.name tree := by
  induction directory with
  | leaf stored => exact .leaf _ (stored_ascending stored)
  | node above stored inner ih =>
    refine .node _ _ fun child member => ?_
    obtain ⟨pair, there, rfl⟩ := List.mem_map.mp member
    exact ih pair there

theorem children_unique {children others : List (TreeEntry × Rose Int Bytes TreeEntry)}
    (entries : children.map Prod.fst = others.map Prod.fst)
    (unique : ∀ child ∈ children, ∀ other, store.Directory child.1.target other → child.2 = other)
    (too : ∀ other ∈ others, store.Directory other.1.target other.2) : children = others := by
  induction children generalizing others with
  | nil => exact (List.map_eq_nil_iff.mp entries.symm).symm
  | cons child children ih =>
    cases others with
    | nil => cases entries
    | cons other others =>
      obtain ⟨same, later⟩ := List.cons.inj entries
      obtain ⟨first, rest⟩ := List.forall_mem_cons.mp unique
      obtain ⟨own, more⟩ := List.forall_mem_cons.mp too
      rw [Prod.ext same (first other.2 (same ▸ own)), ih later rest more]

theorem Objects.Directory.unique {other : Rose Int Bytes TreeEntry} (directory : store.Directory name tree)
    (too : store.Directory name other) : tree = other := by
  induction directory generalizing other with
  | @leaf name entries stored =>
    cases too with
    | leaf again => rw [(Tree.mk.inj (Except.ok.inj (stored.symm.trans again))).2]
    | node above again =>
      rw [← (Tree.mk.inj (Except.ok.inj (stored.symm.trans again))).1] at above
      exact absurd above (lt_irrefl _)
  | @node name level children above stored inner ih =>
    cases too with
    | leaf again =>
      rw [(Tree.mk.inj (Except.ok.inj (stored.symm.trans again))).1] at above
      exact absurd above (lt_irrefl _)
    | node _ again others =>
      obtain ⟨same, entries⟩ := Tree.mk.inj (Except.ok.inj (stored.symm.trans again))
      rw [same, children_unique entries (fun child member _ => ih child member) others]

theorem children_alike {children others : List (TreeEntry × Rose Int Bytes TreeEntry)}
    (keys : children.map keyed = others.map keyed)
    (names : ∀ child ∈ children, ∀ other, store.Directory other child.2 → child.1.target = other)
    (bare : ∀ entry ∈ children.map Prod.fst, Bare entry) (too : ∀ entry ∈ others.map Prod.fst, Bare entry)
    (inner : ∀ other ∈ others, store.Directory other.1.target other.2) : children = others := by
  induction children generalizing others with
  | nil => exact (List.map_eq_nil_iff.mp keys.symm).symm
  | cons child children ih =>
    cases others with
    | nil => cases keys
    | cons other others =>
      obtain ⟨same, later⟩ := List.cons.inj keys
      obtain ⟨first, rest⟩ := List.forall_mem_cons.mp names
      obtain ⟨own, more⟩ := List.forall_mem_cons.mp inner
      obtain ⟨first_bare, plain⟩ := List.forall_mem_cons.mp bare
      obtain ⟨own_bare, plain'⟩ := List.forall_mem_cons.mp too
      obtain ⟨key, subtree⟩ := Prod.mk.inj same
      have target := first other.1.target (subtree ▸ own)
      rw [Prod.ext (first_bare.same own_bare key target) subtree, ih later rest plain plain' more]

theorem Objects.Directory.same_name {other : ObjectName} (directory : store.Directory name tree)
    (too : store.Directory other tree) : name = other := by
  induction directory generalizing other with
  | leaf stored =>
    cases too with
    | leaf again => exact Objects.same_name (get_tree_ok.mp stored) (get_tree_ok.mp again)
  | @node name level children above stored inner ih =>
    generalize whole : Rose.node level (children.map keyed) = tree at too
    cases too with
    | leaf => cases whole
    | @node _ level' others above' again inner' =>
      obtain ⟨rfl, keys⟩ := Rose.node.inj whole
      obtain rfl := children_alike keys (fun child member _ => ih child member) (stored_bare above stored)
        (stored_bare above' again) inner'
      exact Objects.same_name (get_tree_ok.mp stored) (get_tree_ok.mp again)

theorem find_in_leaf_eq {entries : List TreeEntry} (ascending : Routing.Ascending TreeEntry.name entries) (sought : Bytes) :
    find_in_leaf sought entries = entries.find? fun entry => entry.name = sought := by
  induction entries with
  | nil => rfl
  | cons entry entries ih =>
    obtain ⟨behind, rest⟩ := List.pairwise_cons.mp ascending
    rw [find_in_leaf, List.find?_cons, ih rest]
    by_cases same : entry.name = sought
    next => simp [same]
    next =>
      rw [if_neg same]
      by_cases passed : sought < entry.name
      next =>
        have none : (entries.find? fun entry => entry.name = sought) = none := by
          refine List.find?_eq_none.mpr fun other member found => ?_
          have later := List.lt_trans passed (behind other member)
          rw [of_decide_eq_true found] at later
          exact List.lt_irrefl _ later
        simp [passed, same, none]
      next => simp [passed, same]

theorem keyed_lower {level : Int} {children : List (TreeEntry × Rose Int Bytes TreeEntry)}
    {child : TreeEntry × Rose Int Bytes TreeEntry} {depth : Nat} (member : child ∈ children)
    (enough : (Rose.node level (children.map keyed)).height < depth + 1) : child.2.height < depth := by
  have lower := @Rose.height_child Int Bytes TreeEntry level (children.map keyed) (keyed child) (List.mem_map_of_mem member)
  exact Nat.lt_of_lt_of_le lower (Nat.lt_succ_iff.mp enough)

theorem Objects.Directory.lookup (directory : store.Directory name tree) {nodes : Nat} (enough : tree.height < nodes)
    (sought : Bytes) : LedgerVcs.lookup store nodes name sought = .ok (Routing.search TreeEntry.name sought tree) := by
  induction directory generalizing nodes with
  | leaf stored =>
    obtain ⟨nodes, rfl⟩ := Nat.exists_eq_succ_of_ne_zero (Nat.ne_zero_of_lt enough)
    have ascending := stored_ascending stored
    rw [LedgerVcs.lookup, stored, Routing.search_leaf]
    exact congrArg Except.ok (find_in_leaf_eq ascending sought)
  | @node name level children above stored inner ih =>
    obtain ⟨nodes, rfl⟩ := Nat.exists_eq_succ_of_ne_zero (Nat.ne_zero_of_lt enough)
    rw [LedgerVcs.lookup, stored, Routing.search_node]
    change lookup_from store sought (nodes + 1) _ = _
    rw [lookup_from, if_pos above, child_covering, List.find?_map, List.find?_map]
    change (match Option.map Prod.fst (children.find? fun child => sought ≤ child.1.name) with | none => _ | some _ => _) =
      Except.ok ((Option.map keyed (children.find? fun child => sought ≤ child.1.name)).bind _)
    cases found : children.find? fun child => sought ≤ child.1.name with
    | none => rfl
    | some child =>
      have member := List.mem_of_find?_eq_some found
      exact ih child member (keyed_lower member enough)

theorem Objects.Directory.iter_entries (directory : store.Directory name tree) {depth : Nat} (enough : tree.height < depth) :
    LedgerVcs.iter_entries store depth name none = .of tree.items ∧
      ∀ after, LedgerVcs.iter_entries store depth name (some after) = .of (Routing.resume TreeEntry.name after tree) := by
  induction directory generalizing depth with
  | leaf stored =>
    obtain ⟨depth, rfl⟩ := Nat.exists_eq_succ_of_ne_zero (Nat.ne_zero_of_lt enough)
    simp [LedgerVcs.iter_entries, stored]
  | @node name level children above stored inner ih =>
    obtain ⟨depth, rfl⟩ := Nat.exists_eq_succ_of_ne_zero (Nat.ne_zero_of_lt enough)
    have interior : ¬ level = 0 := by omega
    constructor
    next =>
      have plain := Gen.each_of fun child member => (ih child member (keyed_lower member enough)).1
      simp only [LedgerVcs.iter_entries, stored, Gen.fetching_ok, interior, if_false, Gen.each_map, Rose.items_node,
        List.flatMap_map]
      simpa [keyed, Function.comp_def] using plain
    next =>
      intro after
      have plain := @Gen.each_skip _ _ _ children _ _ (fun child => child.1.name ≤ after) _
        fun child member _ => (ih child member (keyed_lower member enough)).2 after
      simp only [LedgerVcs.iter_entries, stored, Gen.fetching_ok, interior, if_false, Gen.each_map, Option.mem_def,
        Option.some.injEq, exists_eq_left', Routing.resume_node, List.filter_map, List.flatMap_map]
      exact plain

/-- A lookup finds what a listing shows, and the listing ascends, exactly when every child holds what its key says. -/
theorem lookup_agrees_exact {root : ObjectName} (directory : store.Directory root tree) {fuel : Nat}
    (enough : tree.height < fuel) :
    (∃ entries, iter_entries store fuel root none = .of entries ∧ Routing.Ascending TreeEntry.name entries ∧
      ∀ name, lookup store fuel root name = .ok (entries.find? fun entry => entry.name = name)) ↔
      Routing.Routed TreeEntry.name tree := by
  rw [← Routing.search_exact directory.leaves, (directory.iter_entries enough).1]
  constructor
  next =>
    rintro ⟨entries, same, ascending, agrees⟩
    obtain rfl := Gen.of_inj.mp same
    refine ⟨ascending, fun sought => ?_⟩
    exact Except.ok.inj ((directory.lookup enough sought).symm.trans (agrees sought))
  next =>
    rintro ⟨ascending, agrees⟩
    exact ⟨_, rfl, ascending, fun sought => (directory.lookup enough sought).trans (congrArg Except.ok (agrees sought))⟩

/-- Two roots that list the same entries have one name exactly when they are split alike. -/
theorem one_name_exact {left right : ObjectName} {other : Rose Int Bytes TreeEntry}
    (first : store.Directory left tree) (second : store.Directory right other) {fuel : Nat}
    (enough : tree.height < fuel ∧ other.height < fuel)
    (alike : iter_entries store fuel left none = iter_entries store fuel right none) :
    left = right ↔ tree.shape = other.shape := by
  rw [(first.iter_entries enough.1).1, (second.iter_entries enough.2).1, Gen.of_inj] at alike
  constructor
  next =>
    rintro rfl
    rw [first.unique second]
  next =>
    intro shapes
    obtain rfl := Rose.shape_items_inj shapes alike
    exact first.same_name second

end Directory

/-! ## Nodes that put accepts -/

def routingEntry (name : Bytes) (target : ObjectName) : TreeEntry := ⟨name, .tree, target, 0, 0⟩

def onlyA : LedgerObject := .tree ⟨0, [fileEntry [0x61]]⟩

def onlyAName : ObjectName where
  digest := [
    0x96, 0x70, 0xfe, 0x95, 0x82, 0xdc, 0x79, 0xc8, 0xf5, 0x16, 0xb7, 0xd6, 0x94, 0xd0, 0xd8, 0x34, 0xcc,
    0x02, 0xac, 0x04, 0xf0, 0x92, 0x51, 0x91, 0x41, 0x7b, 0xe5, 0x2c, 0xa1, 0x8d, 0x80, 0x97]
  sized := rfl

def onlyC : LedgerObject := .tree ⟨0, [fileEntry [0x63]]⟩

def onlyCName : ObjectName where
  digest := [
    0x7c, 0x85, 0x78, 0xe4, 0x4d, 0xe1, 0x43, 0xfb, 0x5e, 0xaf, 0xa6, 0xd3, 0x68, 0x22, 0x46, 0xdd, 0x5a,
    0xfe, 0xef, 0x9a, 0xf3, 0xd1, 0x7b, 0xfb, 0xc2, 0x4a, 0x46, 0x81, 0xab, 0x86, 0x86, 0x64]
  sized := rfl

/-- Two names in one node. -/
def flatRoot : LedgerObject := .tree ⟨0, [fileEntry [0x61], fileEntry [0x63]]⟩

def flatRootName : ObjectName where
  digest := [
    0x90, 0x1e, 0x27, 0x33, 0x94, 0xa6, 0xec, 0xa0, 0xee, 0x63, 0x69, 0xfd, 0x4a, 0x57, 0x0e, 0x75, 0x08,
    0x73, 0x67, 0x5a, 0x78, 0xed, 0x8f, 0x12, 0x56, 0xc7, 0xed, 0x77, 0x67, 0xa3, 0xcb, 0x8a]
  sized := rfl

/-- The same two, in a node each. -/
def splitRoot : LedgerObject := .tree ⟨1, [routingEntry [0x61] onlyAName, routingEntry [0x63] onlyCName]⟩

def splitRootName : ObjectName where
  digest := [
    0xc6, 0x51, 0xd2, 0x10, 0x17, 0xcd, 0x95, 0xd4, 0x5b, 0xd9, 0x16, 0x0c, 0x1e, 0x92, 0x48, 0xc6, 0x3e,
    0x0a, 0x4c, 0x00, 0xf5, 0x08, 0x05, 0x4d, 0xfa, 0x98, 0x86, 0xe5, 0x5c, 0x9d, 0xa3, 0x86]
  sized := rfl

/-- The digests are those of BLAKE3. -/
def splitDigests : Blake3 := .ofTable [
  (Layout.object onlyA, onlyAName.digest), (Layout.object onlyC, onlyCName.digest),
  (Layout.object flatRoot, flatRootName.digest), (Layout.object splitRoot, splitRootName.digest)]

def bothSplits : Objects splitDigests :=
  ObjectStore.after_puts splitDigests
    [Layout.object onlyA, Layout.object onlyC, Layout.object flatRoot, Layout.object splitRoot]

def flatTree : Rose Int Bytes TreeEntry := .leaf [fileEntry [0x61], fileEntry [0x63]]

def splitTree : Rose Int Bytes TreeEntry :=
  .node 1 [([0x61], .leaf [fileEntry [0x61]]), ([0x63], .leaf [fileEntry [0x63]])]

theorem both_splits_stored :
    bothSplits.get_tree flatRootName = .ok ⟨0, [fileEntry [0x61], fileEntry [0x63]]⟩ ∧
      bothSplits.get_tree splitRootName = .ok ⟨1, [routingEntry [0x61] onlyAName, routingEntry [0x63] onlyCName]⟩ ∧
      bothSplits.get_tree onlyAName = .ok ⟨0, [fileEntry [0x61]]⟩ ∧ bothSplits.get_tree onlyCName = .ok ⟨0, [fileEntry [0x63]]⟩ := by
  decide +kernel

theorem flat_directory : bothSplits.Directory flatRootName flatTree := .leaf both_splits_stored.1

theorem split_directory : bothSplits.Directory splitRootName splitTree := by
  obtain ⟨-, root, first, second⟩ := both_splits_stored
  refine @Objects.Directory.node _ bothSplits splitRootName 1
    [(routingEntry [0x61] onlyAName, .leaf [fileEntry [0x61]]), (routingEntry [0x63] onlyCName, .leaf [fileEntry [0x63]])]
    (by decide) root fun child member => ?_
  simp only [List.mem_cons, List.not_mem_nil, or_false] at member
  rcases member with rfl | rfl
  next => exact .leaf first
  next => exact .leaf second

theorem flat_listing : iter_entries bothSplits 2 flatRootName none = .of [fileEntry [0x61], fileEntry [0x63]] := by
  rw [(flat_directory.iter_entries (by simp [flatTree, Rose.height])).1, flatTree, Rose.items_leaf]

theorem split_listing : iter_entries bothSplits 2 splitRootName none = .of [fileEntry [0x61], fileEntry [0x63]] := by
  rw [(split_directory.iter_entries (by simp [splitTree, Rose.height])).1, splitTree, Rose.items_node]
  simp

theorem split_routed : Routing.Routed TreeEntry.name splitTree := by
  have before : ([0x61] : Bytes) < [0x63] := by decide
  exact .node 1 _ (by simp [fileEntry, before]) (by simp [fileEntry]) (by simp [Routing.Routed.leaf])

theorem lookup_agrees_exact_split :
    ∃ entries, iter_entries bothSplits 2 splitRootName none = .of entries ∧ Routing.Ascending TreeEntry.name entries ∧
      ∀ name, lookup bothSplits 2 splitRootName name = .ok (entries.find? fun entry => entry.name = name) :=
  (lookup_agrees_exact split_directory (by simp [splitTree, Rose.height])).mpr split_routed

theorem one_name_exact_split : flatRootName = splitRootName ↔ flatTree.shape = splitTree.shape :=
  @one_name_exact _ bothSplits _ _ _ _ flat_directory split_directory 2
    ⟨by simp [flatTree, Rose.height], by simp [splitTree, Rose.height]⟩
    (flat_listing.trans split_listing.symm)

/-- One directory under two names. -/
theorem split_directory_renamed :
    bothSplits.Directory flatRootName flatTree ∧ bothSplits.Directory splitRootName splitTree ∧
      iter_entries bothSplits 2 flatRootName none = .of [fileEntry [0x61], fileEntry [0x63]] ∧
      iter_entries bothSplits 2 splitRootName none = .of [fileEntry [0x61], fileEntry [0x63]] ∧
      flatRootName ≠ splitRootName :=
  ⟨flat_directory, split_directory, flat_listing, split_listing, by decide⟩

def misroutedFirst : LedgerObject := .tree ⟨0, [fileEntry [0x61], fileEntry [0x7a]]⟩

def misroutedFirstName : ObjectName where
  digest := [
    0x7f, 0xb3, 0x57, 0xb2, 0xa8, 0xb2, 0x95, 0x8f, 0xdf, 0x3a, 0x2c, 0x9e, 0xf1, 0x23, 0x4d, 0x6d, 0x13,
    0x67, 0x7a, 0x5e, 0xc6, 0x5c, 0x1e, 0x67, 0x09, 0x1d, 0xa9, 0x26, 0xe5, 0x5a, 0x53, 0xcd]
  sized := rfl

/-- Its first key is before the last name below it. -/
def misroutedRoot : LedgerObject :=
  .tree ⟨1, [routingEntry [0x62] misroutedFirstName, routingEntry [0x64] onlyCName]⟩

def misroutedRootName : ObjectName where
  digest := [
    0x82, 0x0d, 0x97, 0x58, 0x5d, 0x42, 0x98, 0xdb, 0xf3, 0xfa, 0x71, 0x78, 0x95, 0xe6, 0x22, 0xa7, 0xf4,
    0x61, 0xb3, 0xc3, 0xf8, 0x2c, 0xf2, 0x66, 0x6b, 0xf2, 0x45, 0x66, 0x76, 0x84, 0x26, 0x38]
  sized := rfl

/-- The digests are those of BLAKE3. -/
def misroutedDigests : Blake3 := .ofTable [
  (Layout.object misroutedFirst, misroutedFirstName.digest), (Layout.object onlyC, onlyCName.digest),
  (Layout.object misroutedRoot, misroutedRootName.digest)]

def misrouted : Objects misroutedDigests :=
  ObjectStore.after_puts misroutedDigests
    [Layout.object misroutedFirst, Layout.object onlyC, Layout.object misroutedRoot]

def misroutedTree : Rose Int Bytes TreeEntry :=
  .node 1 [([0x62], .leaf [fileEntry [0x61], fileEntry [0x7a]]), ([0x64], .leaf [fileEntry [0x63]])]

theorem misrouted_stored :
    misrouted.get_tree misroutedRootName = .ok ⟨1, [routingEntry [0x62] misroutedFirstName, routingEntry [0x64] onlyCName]⟩ ∧
      misrouted.get_tree misroutedFirstName = .ok ⟨0, [fileEntry [0x61], fileEntry [0x7a]]⟩ ∧
      misrouted.get_tree onlyCName = .ok ⟨0, [fileEntry [0x63]]⟩ ∧
      iter_entries misrouted 2 misroutedRootName none = .of [fileEntry [0x61], fileEntry [0x7a], fileEntry [0x63]] ∧
      lookup misrouted 2 misroutedRootName [0x7a] = .ok none := by decide +kernel

theorem misrouted_directory : misrouted.Directory misroutedRootName misroutedTree := by
  obtain ⟨root, first, second, -, -⟩ := misrouted_stored
  refine @Objects.Directory.node _ misrouted misroutedRootName 1
    [(routingEntry [0x62] misroutedFirstName, .leaf [fileEntry [0x61], fileEntry [0x7a]]),
      (routingEntry [0x64] onlyCName, .leaf [fileEntry [0x63]])]
    (by decide) root fun child member => ?_
  simp only [List.mem_cons, List.not_mem_nil, or_false] at member
  rcases member with rfl | rfl
  next => exact .leaf first
  next => exact .leaf second

/-- The listing shows z, out of order, and no lookup finds it. -/
theorem listed_name_not_found :
    misrouted.Directory misroutedRootName misroutedTree ∧
      iter_entries misrouted 2 misroutedRootName none = .of [fileEntry [0x61], fileEntry [0x7a], fileEntry [0x63]] ∧
        lookup misrouted 2 misroutedRootName [0x7a] = .ok none :=
  ⟨misrouted_directory, misrouted_stored.2.2.2⟩

end LedgerVcs
