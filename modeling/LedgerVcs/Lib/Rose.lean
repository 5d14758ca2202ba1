import Mathlib.Tactic

set_option autoImplicit false

/-! Trees with items in their leaves, and a key for each child of a node. -/

inductive Rose (L κ α : Type) : Type
  | leaf (items : List α)
  | node (label : L) (children : List (κ × Rose L κ α))

namespace Rose

variable {L κ α β : Type}

theorem child_smaller {label : L} {children : List (κ × Rose L κ α)} {child : κ × Rose L κ α}
    (member : child ∈ children) : sizeOf child.2 < sizeOf (node label children) := by
  have listed := List.sizeOf_lt_of_mem member
  have inside : sizeOf child.2 < sizeOf child := by
    obtain ⟨key, tree⟩ := child
    simp
  simp only [node.sizeOf_spec]
  omega

@[induction_eliminator]
theorem induct {motive : Rose L κ α → Prop} (leaf : ∀ items, motive (leaf items))
    (node : ∀ label children, (∀ child ∈ children, motive child.2) → motive (node label children)) :
    ∀ tree, motive tree
  | .leaf items => leaf items
  | .node label children => node label children fun child _ => induct leaf node child.2
termination_by tree => sizeOf tree
decreasing_by exact child_smaller ‹_›

/-- What is made of a tree from its leaves up. -/
def fold (leaf : List α → β) (node : L → List (κ × β) → β) : Rose L κ α → β
  | .leaf items => leaf items
  | .node label children => node label (children.attach.map fun child => (child.1.1, fold leaf node child.1.2))
termination_by tree => sizeOf tree
decreasing_by exact child_smaller child.2

@[simp] theorem fold_leaf (leaf : List α → β) (node : L → List (κ × β) → β) (items : List α) :
    fold leaf node (.leaf items) = leaf items := by
  rw [fold]

@[simp] theorem fold_node (leaf : List α → β) (node : L → List (κ × β) → β) (label : L)
    (children : List (κ × Rose L κ α)) :
    fold leaf node (.node label children) =
      node label (children.map fun child => (child.1, fold leaf node child.2)) := by
  rw [fold]
  exact congrArg (node label) (List.attach_map_val (f := fun child : κ × Rose L κ α => (child.1, fold leaf node child.2)))

/-! ## Items -/

def items : Rose L κ α → List α := fold id fun _ children => children.flatMap Prod.snd

@[simp] theorem items_leaf (items : List α) : (leaf items : Rose L κ α).items = items := fold_leaf ..

@[simp] theorem items_node (label : L) (children : List (κ × Rose L κ α)) :
    (node label children).items = children.flatMap fun child => child.2.items := by
  rw [items, fold_node, List.flatMap_map]

/-! ## Height -/

def height : Rose L κ α → Nat := fold (fun _ => 0) fun _ children => (children.map Prod.snd).foldr max 0 + 1

theorem le_foldr_max {heights : List Nat} {height : Nat} (member : height ∈ heights) : height ≤ heights.foldr max 0 := by
  induction heights with
  | nil => cases member
  | cons first rest ih =>
    rcases List.mem_cons.mp member with rfl | later
    next => exact le_max_left _ _
    next => exact (ih later).trans (le_max_right _ _)

theorem height_child {label : L} {children : List (κ × Rose L κ α)} {child : κ × Rose L κ α} (member : child ∈ children) :
    child.2.height < (node label children).height := by
  rw [height, fold_node, List.map_map, Nat.lt_succ_iff]
  exact le_foldr_max (List.mem_map_of_mem member)

theorem height_node_le {label : L} {children : List (κ × Rose L κ α)} {bound : Nat}
    (below : ∀ child ∈ children, child.2.height ≤ bound) : (node label children).height ≤ bound + 1 := by
  rw [height, fold_node, List.map_map]
  refine Nat.succ_le_succ ?_
  induction children with
  | nil => exact Nat.zero_le _
  | cons child children ih =>
    obtain ⟨first, rest⟩ := List.forall_mem_cons.mp below
    exact max_le first (ih rest)

/-! ## Shape -/

/-- All but what the items are. -/
def shape : Rose L κ α → Rose L κ Unit := fold (fun items => leaf (items.map fun _ => ())) node

theorem shape_items (tree : Rose L κ α) : tree.shape.items = tree.items.map fun _ => () := by
  induction tree with
  | leaf items => rw [shape, fold_leaf, items_leaf, items_leaf]
  | node label children ih =>
    rw [shape, fold_node, items_node, items_node, List.flatMap_map, List.map_flatMap]
    exact List.flatMap_congr ih

/-- A tree is known from its shape and its items. -/
theorem shape_items_inj {left right : Rose L κ α} (shape : left.shape = right.shape) (items : left.items = right.items) :
    left = right := by
  have lengths {left right : Rose L κ α} (same : left.shape = right.shape) : left.items.length = right.items.length := by
    have units := congrArg (fun tree : Rose L κ Unit => tree.items.length) same
    simpa only [shape_items, List.length_map] using units
  induction left generalizing right with
  | leaf own =>
    cases right with
    | leaf other => rw [items_leaf, items_leaf] at items; rw [items]
    | node => simp [Rose.shape] at shape
  | node label children ih =>
    cases right with
    | leaf => simp [Rose.shape] at shape
    | node other others =>
      simp only [Rose.shape, fold_node, node.injEq] at shape
      obtain ⟨rfl, shapes⟩ := shape
      congr 1
      rw [items_node, items_node] at items
      induction children generalizing others with
      | nil => exact (List.map_eq_nil_iff.mp shapes.symm).symm
      | cons child children rest =>
        cases others with
        | nil => cases shapes
        | cons other others =>
          simp only [List.map_cons, List.cons.injEq, Prod.mk.injEq] at shapes
          obtain ⟨⟨key, first⟩, later⟩ := shapes
          rw [List.flatMap_cons, List.flatMap_cons] at items
          obtain ⟨own, after⟩ := List.append_inj items (lengths first)
          have tree := ih child List.mem_cons_self first own
          rw [Prod.ext key tree, rest (fun child member => ih child (List.mem_cons_of_mem _ member)) others later after]

end Rose
