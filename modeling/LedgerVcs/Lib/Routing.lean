import LedgerVcs.Lib.Rose

set_option autoImplicit false

/-! Search trees whose nodes say, for each child, up to which key its items go. -/

namespace Routing

variable {L κ α : Type}

/-! ## Searching -/

section Search

variable [LE κ] [DecidableLE κ] [DecidableEq κ]

/-- Goes down to the first child whose key is not below the one sought. -/
def search (key : α → κ) (sought : κ) : Rose L κ α → Option α :=
  Rose.fold (fun items => items.find? fun item => key item = sought)
    fun _ children => (children.find? fun child => sought ≤ child.1).bind Prod.snd

variable {key : α → κ} {tree : Rose L κ α} {sought : κ} {item : α}

@[simp] theorem search_leaf (items : List α) :
    search key sought (.leaf items : Rose L κ α) = items.find? fun item => key item = sought := by
  rw [search, Rose.fold_leaf]

@[simp] theorem search_node (label : L) (children : List (κ × Rose L κ α)) :
    search key sought (.node label children) =
      (children.find? fun child => sought ≤ child.1).bind fun child => search key sought child.2 := by
  rw [search, Rose.fold_node, List.find?_map]
  cases found : children.find? ((fun child => decide (sought ≤ child.1)) ∘ fun child =>
    (child.1, search key sought child.2)) <;> exact found ▸ rfl

theorem search_mem (found : search key sought tree = some item) : item ∈ tree.items ∧ key item = sought := by
  induction tree with
  | leaf items =>
    rw [search_leaf] at found
    rw [Rose.items_leaf]
    exact ⟨List.mem_of_find?_eq_some found, by simpa using List.find?_some found⟩
  | node label children ih =>
    rw [search_node] at found
    obtain ⟨child, first, found⟩ := Option.bind_eq_some_iff.mp found
    have member := List.mem_of_find?_eq_some first
    obtain ⟨inside, named⟩ := ih child member found
    rw [Rose.items_node]
    exact ⟨List.mem_flatMap.mpr ⟨child, member, inside⟩, named⟩

end Search

/-! ## Resuming -/

section Resume

variable [LT κ] [LE κ] [DecidableLT κ] [DecidableLE κ] {key : α → κ}

/-- The items after a key, without a look at the children that end there. -/
def resume (key : α → κ) (after : κ) : Rose L κ α → List α :=
  Rose.fold (fun items => items.filter fun item => after < key item)
    fun _ children => (children.filter fun child => ¬ child.1 ≤ after).flatMap Prod.snd

@[simp] theorem resume_leaf (after : κ) (items : List α) :
    resume key after (.leaf items : Rose L κ α) = items.filter fun item => after < key item := by
  rw [resume, Rose.fold_leaf]

@[simp] theorem resume_node (after : κ) (label : L) (children : List (κ × Rose L κ α)) :
    resume key after (.node label children) =
      (children.filter fun child => ¬ child.1 ≤ after).flatMap fun child => resume key after child.2 := by
  rw [resume, Rose.fold_node, List.filter_map, List.flatMap_map]
  rfl

end Resume

/-! ## What a search relies on -/

section Routed

variable [LT κ] [LE κ]

section Definitions

variable (key : α → κ)

def Ascending (items : List α) : Prop := items.Pairwise fun left right => key left < key right

inductive LeavesAscending : Rose L κ α → Prop
  | leaf (items : List α) (ascending : Ascending key items) : LeavesAscending (.leaf items)
  | node (label : L) (children : List (κ × Rose L κ α)) (inner : ∀ child ∈ children, LeavesAscending child.2) :
    LeavesAscending (.node label children)

/-- The items below a child are after the keys of the children before it, and not after its own. -/
inductive Routed : Rose L κ α → Prop
  | leaf (items : List α) : Routed (.leaf items)
  | node (label : L) (children : List (κ × Rose L κ α))
    (after : children.Pairwise fun earlier later => ∀ item ∈ later.2.items, earlier.1 < key item)
    (within : ∀ child ∈ children, ∀ item ∈ child.2.items, key item ≤ child.1)
    (inner : ∀ child ∈ children, Routed child.2) : Routed (.node label children)

end Definitions

section Children

variable {key : α → κ} {label : L} {children : List (κ × Rose L κ α)}

omit [LE κ] in
theorem LeavesAscending.inside (leaves : LeavesAscending key (.node label children)) :
    ∀ child ∈ children, LeavesAscending key child.2 := by
  cases leaves with
  | node _ _ inner => exact inner

theorem Routed.inside (routed : Routed key (.node label children)) :
    (children.Pairwise fun earlier later => ∀ item ∈ later.2.items, earlier.1 < key item) ∧
      (∀ child ∈ children, ∀ item ∈ child.2.items, key item ≤ child.1) ∧ ∀ child ∈ children, Routed key child.2 := by
  cases routed with
  | node _ _ after within inner => exact ⟨after, within, inner⟩

end Children

variable [Std.IsLinearOrder κ] [Std.LawfulOrderLT κ] {key : α → κ} {tree : Rose L κ α}

omit [Std.IsLinearOrder κ] in
theorem Ascending.apart {items : List α} (ascending : Ascending key items) {first second : Nat}
    (early : first < items.length) (late : second < items.length) (same : key items[first] = key items[second]) :
    first = second := by
  have ordered := List.pairwise_iff_getElem.mp ascending
  rcases Nat.lt_trichotomy first second with before | equal | behind
  next => exact absurd same (Std.ne_of_lt (ordered first second early late before))
  next => exact equal
  next => exact absurd same.symm (Std.ne_of_lt (ordered second first late early behind))

omit [Std.IsLinearOrder κ] in
theorem Ascending.find [DecidableEq κ] {items : List α} (ascending : Ascending key items) {item : α} (member : item ∈ items) :
    (items.find? fun other => key other = key item) = some item := by
  obtain ⟨index, bound, rfl⟩ := List.getElem_of_mem member
  cases found : items.find? fun other => key other = key items[index] with
  | none =>
    have missing := List.find?_eq_none.mp found items[index] member
    simp at missing
  | some other =>
    obtain ⟨place, inside, rfl⟩ := List.getElem_of_mem (List.mem_of_find?_eq_some found)
    have same := ascending.apart inside bound (by simpa using List.find?_some found)
    subst same
    rfl

omit [Std.IsLinearOrder κ] in
theorem Ascending.after [DecidableLT κ] {front back : List α} {item : α} (ascending : Ascending key (front ++ item :: back)) :
    ((front ++ item :: back).filter fun other => key item < key other) = back := by
  obtain ⟨-, rest, before⟩ := List.pairwise_append.mp ascending
  obtain ⟨behind, -⟩ := List.pairwise_cons.mp rest
  have front_none : (front.filter fun other => key item < key other) = [] := by
    refine List.filter_eq_nil_iff.mpr fun other member => ?_
    have earlier := before other member item List.mem_cons_self
    simpa using Std.not_lt_of_ge (Std.le_of_lt earlier)
  rw [List.filter_append, front_none, List.nil_append, List.filter_cons_of_neg (by simp [Std.lt_irrefl])]
  exact List.filter_eq_self.mpr fun other member => decide_eq_true (behind other member)

theorem Routed.ascending (routed : Routed key tree) (leaves : LeavesAscending key tree) : Ascending key tree.items := by
  induction tree with
  | leaf items =>
    cases leaves with
    | leaf _ ascending =>
      rw [Rose.items_leaf]
      exact ascending
  | node label children ih =>
    obtain ⟨after, within, inner⟩ := routed.inside
    have sorted := leaves.inside
    rw [Rose.items_node]
    refine List.pairwise_flatMap.mpr ⟨fun child member => ih child member (inner child member) (sorted child member), ?_⟩
    refine after.imp_of_mem fun first _ behind => fun left early right late => ?_
    exact Std.lt_of_le_of_lt (within _ first left early) (behind right late)

omit [Std.IsLinearOrder κ] in
/-- Of children with the items of each where its key says, only the first one that reaches a key may have it. -/
theorem find_children [DecidableEq κ] [DecidableLE κ] {children : List (κ × Rose L κ α)} {sought : κ}
    (after : children.Pairwise fun earlier later => ∀ item ∈ later.2.items, earlier.1 < key item)
    (within : ∀ child ∈ children, ∀ item ∈ child.2.items, key item ≤ child.1) :
    ((children.flatMap fun child => child.2.items).find? fun item => key item = sought) =
      (children.find? fun child => sought ≤ child.1).bind fun child =>
        child.2.items.find? fun item => key item = sought := by
  induction children with
  | nil => rfl
  | cons child children ih =>
    obtain ⟨behind, later⟩ := List.pairwise_cons.mp after
    obtain ⟨first, others⟩ := List.forall_mem_cons.mp within
    rw [List.flatMap_cons, List.find?_append, List.find?_cons, ih later others]
    by_cases reaches : sought ≤ child.1
    next =>
      -- whatever follows is after this child's key
      have none : ((children.flatMap fun child => child.2.items).find? fun item => key item = sought) = none := by
        refine List.find?_eq_none.mpr fun item member found => ?_
        obtain ⟨other, there, inside⟩ := List.mem_flatMap.mp member
        have past := behind other there item inside
        rw [of_decide_eq_true found] at past
        exact Std.not_le_of_gt past reaches
      rw [← ih later others, none, Option.or_none]
      simp [reaches]
    next =>
      have none : (child.2.items.find? fun item => key item = sought) = none := by
        refine List.find?_eq_none.mpr fun item member found => reaches ?_
        rw [← of_decide_eq_true found]
        exact first item member
      simp [none, reaches]

omit [Std.IsLinearOrder κ] in
theorem Routed.search [DecidableEq κ] [DecidableLE κ] (routed : Routed key tree) (sought : κ) :
    Routing.search key sought tree = tree.items.find? fun item => key item = sought := by
  induction tree with
  | leaf items => rw [search_leaf, Rose.items_leaf]
  | node label children ih =>
    obtain ⟨after, within, inner⟩ := routed.inside
    rw [search_node, Rose.items_node, find_children after within]
    cases found : children.find? fun child => sought ≤ child.1 with
    | none => rfl
    | some child =>
      have member := List.mem_of_find?_eq_some found
      exact ih child member (inner child member)

/-- The search finds what the leaves hold, and they ascend, exactly when every child holds what its key says. -/
theorem search_exact [DecidableEq κ] [DecidableLE κ] (leaves : LeavesAscending key tree) :
    (Ascending key tree.items ∧ ∀ sought, Routing.search key sought tree = tree.items.find? fun item => key item = sought) ↔
      Routed key tree := by
  refine ⟨fun both => ?_, fun routed => ⟨routed.ascending leaves, routed.search⟩⟩
  induction tree with
  | leaf items => exact .leaf items
  | node label children ih =>
    obtain ⟨ascending, agrees⟩ := both
    have sorted := leaves.inside
    rw [Rose.items_node] at ascending
    obtain ⟨each, apart⟩ := List.pairwise_flatMap.mp ascending
    have ordered := List.pairwise_iff_getElem.mp apart
    -- the search for an item below a child goes to that child
    have routes (index : Nat) (bound : index < children.length) (item : α) (member : item ∈ children[index].2.items) :
        key item ≤ children[index].1 ∧ (∀ earlier, (before : earlier < index) → children[earlier].1 < key item) ∧
          Routing.search key (key item) children[index].2 = some item := by
      have whole : item ∈ children.flatMap fun child => child.2.items :=
        List.mem_flatMap.mpr ⟨_, List.getElem_mem bound, member⟩
      have found := agrees (key item)
      rw [Rose.items_node, ascending.find whole, search_node] at found
      obtain ⟨child, first, found⟩ := Option.bind_eq_some_iff.mp found
      obtain ⟨reaches, place, inside, rfl, earlier⟩ := List.find?_eq_some_iff_getElem.mp first
      have there := (search_mem found).1
      have same : place = index := by
        rcases Nat.lt_trichotomy place index with before | equal | behind
        next => exact absurd rfl (Std.ne_of_lt (ordered place index inside bound before item there item member))
        next => exact equal
        next => exact absurd rfl (Std.ne_of_lt (ordered index place bound inside behind item member item there))
      subst same
      refine ⟨of_decide_eq_true reaches, fun other before => ?_, found⟩
      exact Std.not_le.mp (by simpa using earlier other before)
    refine .node label children (List.pairwise_iff_getElem.mpr fun first second early late before item member =>
      (routes second late item member).2.1 first before) (fun child member item inside => ?_) fun child member => ?_
    next =>
      obtain ⟨index, bound, rfl⟩ := List.getElem_of_mem member
      exact (routes index bound item inside).1
    next =>
      refine ih child member (sorted child member) ⟨each child member, fun sought => ?_⟩
      obtain ⟨index, bound, rfl⟩ := List.getElem_of_mem member
      cases held : children[index].2.items.find? fun item => key item = sought with
      | some item =>
        obtain rfl : key item = sought := by simpa using List.find?_some held
        exact (routes index bound item (List.mem_of_find?_eq_some held)).2.2
      | none =>
        cases found : Routing.search key sought children[index].2 with
        | none => rfl
        | some item =>
          obtain ⟨inside, named⟩ := search_mem found
          exact absurd named (by simpa using List.find?_eq_none.mp held item inside)

theorem Routed.resume [DecidableLT κ] [DecidableLE κ] (routed : Routed key tree) (after : κ) :
    Routing.resume key after tree = tree.items.filter fun item => after < key item := by
  induction tree with
  | leaf items => rw [resume_leaf, Rose.items_leaf]
  | node label children ih =>
    obtain ⟨-, within, inner⟩ := routed.inside
    rw [resume_node, Rose.items_node]
    clear routed
    induction children with
    | nil => rfl
    | cons child children rest =>
      obtain ⟨first, others⟩ := List.forall_mem_cons.mp within
      have tail := rest (fun other member => ih other (List.mem_cons_of_mem _ member)) others
        fun other member => inner other (List.mem_cons_of_mem _ member)
      rw [List.flatMap_cons, List.filter_append, ← tail]
      by_cases ends : child.1 ≤ after
      next =>
        have none : (child.2.items.filter fun item => after < key item) = [] := by
          refine List.filter_eq_nil_iff.mpr fun item member beyond => ?_
          exact Std.not_lt_of_ge (Std.le_trans (first item member) ends) (of_decide_eq_true beyond)
        rw [none, List.nil_append, List.filter_cons_of_neg (by simpa using ends)]
      next =>
        rw [List.filter_cons_of_pos (by simpa using ends), List.flatMap_cons,
          ih child List.mem_cons_self (inner child List.mem_cons_self)]

end Routed

end Routing
