import LedgerVcs.Fs.Listing
import LedgerVcs.Format.Partition

set_option autoImplicit false

/-! Directories that `build_tree` made read back as they were given. -/

namespace LedgerVcs

open Wire (Bytes)
open Objects (get_tree_ok)

variable {blake3 : Blake3}

/-- Everything emitted is stored under its name. -/
def Objects.Holds (store : Objects blake3) (emitted : List (ObjectName × Bytes)) : Prop :=
  ∀ pair ∈ emitted, store.get_object pair.1 = decode pair.2

/-- The entry one level up that stands for a run. -/
structure StandsFor (level : Nat) (out : List (ObjectName × Bytes)) (run : List TreeEntry) (node : TreeEntry) : Prop where
  named : node.name = (run.getLast?.map TreeEntry.name).getD []
  emitted : ∃ framed, encode (.tree ⟨level, run⟩) = .ok framed ∧ (node.target, framed) ∈ out

theorem StandsFor.mono {level : Nat} {out more : List (ObjectName × Bytes)} {run : List TreeEntry} {node : TreeEntry}
    (stands : StandsFor level out run node) (within : out ⊆ more) : StandsFor level more run node := by
  obtain ⟨named, framed, encoded, member⟩ := stands
  exact ⟨named, framed, encoded, within member⟩

theorem build_tree_nodes_stand {level : Nat} (front : List TreeEntry) (runs : List (List TreeEntry))
    {emitted out : List (ObjectName × Bytes)} {nodes : List TreeEntry}
    (built : build_tree_nodes blake3 level (front ++ runs.flatten) front.length (Runs.offsets front.length runs)
      emitted = .ok (nodes, out)) :
    List.Forall₂ (StandsFor level out) runs nodes ∧ emitted ⊆ out := by
  induction runs generalizing front emitted nodes with
  | nil =>
    obtain ⟨rfl, rfl⟩ := Monads.pure_ok.mp built
    exact ⟨.nil, List.Subset.refl _⟩
  | cons run runs ih =>
    rw [Runs.offsets, build_tree_nodes] at built
    simp only [slice_head, Monads.bind_ok, emit_node_ok, Monads.pure_ok] at built
    obtain ⟨name, middle, ⟨framed, encoded, rfl, rfl⟩, rest, _, others, rfl, rfl⟩ := built
    obtain ⟨later, within⟩ := ih (front ++ run) (by simpa using others)
    refine ⟨.cons ⟨rfl, framed, encoded, within (by simp)⟩ later, fun pair member => within (by simp [member])⟩

theorem StandsFor.stored {level : Nat} {out : List (ObjectName × Bytes)} {run : List TreeEntry} {node : TreeEntry}
    {store : Objects blake3} (stands : StandsFor level out run node) (held : store.Holds out) :
    store.get_tree node.target = .ok ⟨level, run⟩ := by
  obtain ⟨-, framed, encoded, member⟩ := stands
  obtain ⟨fits, spelled⟩ := encode_ok.mp encoded
  rw [get_tree_ok, held _ member]
  exact decode_ok.mpr ⟨fits, trivial, spelled⟩

/-! ## Subtrees -/

/-- An entry with the subtree it names, up to the key it carries. -/
structure Subtree (store : Objects blake3) (child : TreeEntry × Rose Int Bytes TreeEntry) : Prop where
  directory : store.Directory child.1.target child.2
  routed : Routing.Routed TreeEntry.name child.2
  last : child.2.items.getLast?.map TreeEntry.name = some child.1.name

section Subtrees

variable {store : Objects blake3} {level : Nat} {out : List (ObjectName × Bytes)}

/-- The subtrees of these, one after the other. -/
def listed (children : List (TreeEntry × Rose Int Bytes TreeEntry)) : List TreeEntry :=
  children.flatMap fun child => child.2.items

theorem Subtree.within {child : TreeEntry × Rose Int Bytes TreeEntry} (subtree : Subtree store child)
    (ascending : Routing.Ascending TreeEntry.name child.2.items) : ∀ item ∈ child.2.items, item.name ≤ child.1.name := by
  obtain ⟨last, final, named⟩ := Option.map_eq_some_iff.mp subtree.last
  obtain ⟨front, whole⟩ := List.getLast?_eq_some_iff.mp final
  intro item member
  rw [whole] at ascending member
  rw [← named]
  obtain ⟨-, -, before⟩ := List.pairwise_append.mp ascending
  rcases List.mem_append.mp member with early | late
  next => exact List.le_of_lt (before item early last (List.mem_singleton.mpr rfl))
  next => rw [List.mem_singleton.mp late]; exact List.le_refl _

theorem leaf_subtree {run : List TreeEntry} {node : TreeEntry} (stands : StandsFor 0 out run node)
    (held : store.Holds out) (nonempty : run ≠ []) : Subtree store (node, .leaf run) := by
  refine ⟨.leaf (stands.stored held), .leaf run, ?_⟩
  obtain ⟨front, last, rfl⟩ := (List.eq_nil_or_concat' run).resolve_left nonempty
  simp [stands.named]

theorem node_subtree {run : List (TreeEntry × Rose Int Bytes TreeEntry)} {node : TreeEntry} (above : 0 < level)
    (stands : StandsFor level out (run.map Prod.fst) node) (held : store.Holds out) (nonempty : run ≠ [])
    (subtrees : ∀ child ∈ run, Subtree store child) (ascending : Routing.Ascending TreeEntry.name (listed run)) :
    Subtree store (node, .node level (run.map keyed)) := by
  obtain ⟨each, apart⟩ := List.pairwise_flatMap.mp ascending
  refine ⟨.node (by exact_mod_cast above) (stands.stored held) fun child member => (subtrees child member).directory,
    Routing.Routed.node (level : Int) (run.map keyed) (List.pairwise_map.mpr ?_) ?_ ?_, ?_⟩
  next =>
    refine apart.imp_of_mem fun early _ before item inside => ?_
    obtain ⟨last, final, named⟩ := Option.map_eq_some_iff.mp (subtrees _ early).last
    have earlier := before last (List.mem_of_getLast? final) item inside
    rw [named] at earlier
    exact earlier
  next =>
    intro pair member
    obtain ⟨child, there, rfl⟩ := List.mem_map.mp member
    exact (subtrees child there).within (each child there)
  next =>
    intro pair member
    obtain ⟨child, there, rfl⟩ := List.mem_map.mp member
    exact (subtrees child there).routed
  next =>
    obtain ⟨front, child, rfl⟩ := (List.eq_nil_or_concat' run).resolve_left nonempty
    obtain ⟨last, final, named⟩ := Option.map_eq_some_iff.mp (subtrees child (by simp)).last
    simp [stands.named, keyed, final, named]

theorem runs_subtrees {α : Type} {runs : List α} {nodes : List TreeEntry} {entries : α → List TreeEntry}
    {subtree : α → Rose Int Bytes TreeEntry}
    (stand : List.Forall₂ (StandsFor level out) (runs.map entries) nodes)
    (becomes : ∀ run ∈ runs, ∀ node, StandsFor level out (entries run) node → Subtree store (node, subtree run)) :
    ∃ children : List (TreeEntry × Rose Int Bytes TreeEntry), nodes = children.map Prod.fst ∧
      (∀ child ∈ children, Subtree store child) ∧ listed children = runs.flatMap fun run => (subtree run).items := by
  induction runs generalizing nodes with
  | nil =>
    obtain rfl := List.forall₂_nil_left_iff.mp stand
    exact ⟨[], rfl, by simp, rfl⟩
  | cons run runs ih =>
    obtain ⟨node, rest, first, others, rfl⟩ := List.forall₂_cons_left_iff.mp stand
    obtain ⟨own, later⟩ := List.forall_mem_cons.mp becomes
    obtain ⟨children, rfl, subtrees, whole⟩ := ih others later
    refine ⟨(node, subtree run) :: children, rfl, List.forall_mem_cons.mpr ⟨own node first, subtrees⟩, ?_⟩
    rw [listed, List.flatMap_cons, List.flatMap_cons]
    exact congrArg _ whole

end Subtrees

/-! ## All levels -/

/-- What a level is made from: the entries themselves, or subtrees of them. -/
def Made (store : Objects blake3) (entries : List TreeEntry) (level : Nat) (current : List TreeEntry) : Prop :=
  (level = 0 ∧ current = entries) ∨
    0 < level ∧ ∃ children : List (TreeEntry × Rose Int Bytes TreeEntry), current = children.map Prod.fst ∧
      (∀ child ∈ children, Subtree store child) ∧ listed children = entries

section Levels

variable {store : Objects blake3} {params : ShapeParams}

theorem encoded_children {level : Nat} {run : List TreeEntry} {framed : Bytes} (above : 0 < level)
    (encoded : encode (.tree ⟨level, run⟩) = .ok framed) : run ≠ [] := by
  rintro rfl
  have checked := (encode_ok.mp encoded).1.1.1.2.2
  simp only [validate_node_level, Monads.except_bind_ok, ensure_ok, List.length_nil] at checked
  obtain ⟨_, bottom, -⟩ := checked
  simp at bottom
  omega

theorem round_subtrees {level : Nat} {entries current nodes : List TreeEntry} {emitted middle : List (ObjectName × Bytes)}
    (ascending : Routing.Ascending TreeEntry.name entries) (made : Made store entries level current)
    (built : build_tree_nodes blake3 level current 0
      (Runs.offsets 0 (partition_runs blake3 TreeEntry.name tree_entry_bytes level params current)) emitted =
        .ok (nodes, middle)) (held : store.Holds middle) :
    ∃ children : List (TreeEntry × Rose Int Bytes TreeEntry), nodes = children.map Prod.fst ∧
      (∀ child ∈ children, Subtree store child) ∧ listed children = entries := by
  have flat := partition_runs_flatten blake3 TreeEntry.name tree_entry_bytes level params current
  have encodable := (round_written blake3 built).1
  have stand := (build_tree_nodes_stand [] _ (by rw [List.nil_append, flat]; exact built)).1
  rcases made with ⟨rfl, rfl⟩ | ⟨above, children, rfl, subtrees, whole⟩
  next =>
    obtain ⟨children, same, each, items⟩ := @runs_subtrees _ store 0 middle _
      (partition_runs blake3 TreeEntry.name tree_entry_bytes 0 params current) nodes id Rose.leaf
      (by rw [List.map_id]; exact stand)
      fun run member node stands => leaf_subtree stands held (Runs.all_nonempty _ _ run member)
    exact ⟨children, same, each, items.trans (by simpa using flat)⟩
  next =>
    obtain ⟨runs, lifted, joined⟩ := Runs.exists_lift Prod.fst flat
    rw [← lifted] at stand encodable
    subst joined
    have sorted (run : List (TreeEntry × Rose Int Bytes TreeEntry)) (member : run ∈ runs) :
        Routing.Ascending TreeEntry.name (listed run) := by
      rw [← whole] at ascending
      refine ascending.sublist ?_
      exact (List.sublist_flatten_of_mem member).flatMap _
    obtain ⟨children, same, each, items⟩ := @runs_subtrees _ store level middle _ runs nodes (List.map Prod.fst)
      (fun run => .node level (run.map keyed)) stand fun run member node stands => by
        obtain ⟨framed, encoded⟩ := encodable (run.map Prod.fst) (List.mem_map_of_mem member)
        refine node_subtree above stands held (fun none => encoded_children above encoded (by rw [none]; rfl))
          (fun child inside => subtrees child (List.mem_flatten.mpr ⟨run, member, inside⟩)) (sorted run member)
    refine ⟨children, same, each, items.trans (Eq.trans ?_ whole)⟩
    rw [listed, ← List.flatMap_id, List.flatMap_assoc]
    simp [List.flatMap_map, keyed]

theorem levels_directory (rounds : Nat) {level : Nat} {entries current : List TreeEntry}
    {emitted out : List (ObjectName × Bytes)} {root : ObjectName}
    (ascending : Routing.Ascending TreeEntry.name entries) (made : Made store entries level current)
    (built : build_tree_levels blake3 params rounds level current emitted = .ok (root, out)) (held : store.Holds out) :
    ∃ tree, store.Directory root tree ∧ Routing.Routed TreeEntry.name tree ∧ tree.items = entries := by
  induction rounds generalizing level current emitted with
  | zero => cases built
  | succ rounds ih =>
    obtain ⟨nodes, middle, -, written, rest⟩ := (round_ok blake3).mp built
    rcases rest with ⟨node, rfl, rfl, rfl⟩ | ⟨-, higher⟩
    next =>
      obtain ⟨children, same, subtrees, whole⟩ := round_subtrees ascending made written held
      obtain ⟨child, rfl, rfl⟩ := List.map_eq_singleton_iff.mp same.symm
      have subtree := subtrees child (by simp)
      exact ⟨child.2, subtree.directory, subtree.routed, by simpa [listed] using whole⟩
    next =>
      obtain ⟨added, rfl, -⟩ := levels_emitted blake3 _ higher
      have earlier : store.Holds middle := fun pair member => held pair (List.mem_append_left _ member)
      obtain ⟨children, same, subtrees, whole⟩ := round_subtrees ascending made written earlier
      exact ih (.inr ⟨Nat.succ_pos level, children, same, subtrees, whole⟩) higher

end Levels

theorem accepted_ascending {entries : List TreeEntry} (checked : reject_unsorted entries = .ok ()) :
    Routing.Ascending TreeEntry.name entries := by
  induction entries with
  | nil => exact List.Pairwise.nil
  | cons entry entries ih =>
    cases entries with
    | nil => exact List.pairwise_singleton _ _
    | cons next entries =>
      simp only [reject_unsorted, Monads.except_bind_ok, ensure_ok] at checked
      obtain ⟨_, above, rest⟩ := checked
      have before := List.not_le.mp above
      have ascending := ih rest
      obtain ⟨behind, -⟩ := List.pairwise_cons.mp ascending
      refine List.pairwise_cons.mpr ⟨List.forall_mem_cons.mpr ⟨before, fun later member => ?_⟩, ascending⟩
      exact List.lt_trans before (behind later member)

/-- A built root's nodes make one tree over the entries given. -/
theorem built_directory {entries : List TreeEntry} {params : ShapeParams} {root : ObjectName}
    {emitted : List (ObjectName × Bytes)} (built : build_tree blake3 entries params [] = .ok (root, emitted))
    (store : Objects blake3) (held : store.Holds emitted) :
    ∃ tree, store.Directory root tree ∧ Routing.Routed TreeEntry.name tree ∧ tree.items = entries := by
  rw [build_tree] at built
  split at built
  next none =>
    subst none
    obtain ⟨framed, encoded, rfl, rfl⟩ := (emit_node_ok blake3).mp built
    have stands : StandsFor 0 [(name_of_encoded blake3 framed, framed)] []
        ⟨[], .tree, name_of_encoded blake3 framed, 0, 0⟩ := ⟨rfl, framed, encoded, by simp⟩
    exact ⟨.leaf [], .leaf (stands.stored held), .leaf [], Rose.items_leaf []⟩
  next =>
    obtain ⟨_, middle, checked, levels⟩ := Monads.bind_ok.mp built
    obtain ⟨sorted, rfl⟩ := Monads.liftM_ok.mp checked
    exact levels_directory _ (accepted_ascending sorted) (.inl ⟨rfl, rfl⟩) levels held

/-- A built directory is listed, resumed, searched and paged as the list it was built from. -/
theorem built_reads_back (entries : List TreeEntry) (params : ShapeParams) {root : ObjectName}
    {emitted : List (ObjectName × Bytes)} (built : build_tree blake3 entries params [] = .ok (root, emitted))
    (store : Objects blake3) (held : store.Holds emitted) :
    ∃ enough, ∀ fuel, enough ≤ fuel →
      iter_entries store fuel root none = .of entries ∧
      (∀ after, iter_entries store fuel root (some after) = .of (entries.filter fun entry => after < entry.name)) ∧
      (∀ name, lookup store fuel root name = .ok (entries.find? fun entry => entry.name = name)) ∧
      ∀ limit : Int, 0 < limit → ∀ pages, entries.length < pages →
        ∃ listed, list_pages store fuel root limit pages none = .ok listed ∧ Paged limit entries listed := by
  obtain ⟨tree, directory, routed, rfl⟩ := built_directory built store held
  refine ⟨tree.height + 1, fun fuel enough => ?_⟩
  obtain ⟨all, resumed⟩ := directory.iter_entries enough
  refine ⟨all, fun after => ?_, fun name => ?_, fun limit positive pages many => ?_⟩
  next => rw [resumed, routed.resume]
  next => rw [directory.lookup enough, routed.search]
  next => exact directory.pages routed enough positive pages (List.nil_append _).symm (by simp [remaining]) many

/-- Cuts after every second name on average. -/
def smallShape : ShapeParams where
  domain := SPLIT_DOMAIN
  period := 2
  min_entries := 1
  max_entries := 2
  max_node_bytes := 64
  entries_ordered := by decide
  period_large := tightShape.period_large
  node_bytes_large := tightShape.node_bytes_large

/-- The digests are those of BLAKE3. -/
def smallDigests : Blake3 := .ofTable [
  (SPLIT_DOMAIN ++ [0] ++ [0x61], [0x32, 0x99, 0xc8, 0x3b, 0x25, 0x80, 0x67, 0x12]),
  (SPLIT_DOMAIN ++ [0] ++ [0x63], [0xfd, 0x85, 0x88, 0xed, 0x48, 0x9e, 0x1f, 0x79]),
  (SPLIT_DOMAIN ++ [1] ++ [0x61], [0x86, 0x42, 0xd6, 0xf6, 0xc4, 0xc3, 0x0c, 0x10]),
  (SPLIT_DOMAIN ++ [1] ++ [0x63], [0xc3, 0x87, 0xeb, 0x99, 0x0b, 0xac, 0xf0, 0xb1]),
  (Layout.object onlyA, onlyAName.digest), (Layout.object onlyC, onlyCName.digest),
  (Layout.object splitRoot, splitRootName.digest)]

def smallNodes : List (ObjectName × Bytes) := [(onlyAName, Layout.object onlyA), (onlyCName, Layout.object onlyC),
  (splitRootName, Layout.object splitRoot)]

theorem small_built :
    build_tree smallDigests [fileEntry [0x61], fileEntry [0x63]] smallShape [] = .ok (splitRootName, smallNodes) := by
  decide +kernel

theorem small_held : (ObjectStore.after_puts smallDigests (smallNodes.map Prod.snd)).Holds smallNodes := by
  unfold Objects.Holds
  decide +kernel

theorem built_reads_back_two_levels :
    ∃ enough, ∀ fuel, enough ≤ fuel →
      lookup (ObjectStore.after_puts smallDigests (smallNodes.map Prod.snd)) fuel splitRootName [0x62] = .ok none := by
  obtain ⟨enough, reads⟩ := built_reads_back [fileEntry [0x61], fileEntry [0x63]] smallShape small_built _ small_held
  exact ⟨enough, fun fuel many => (reads fuel many).2.2.1 [0x62]⟩

end LedgerVcs
