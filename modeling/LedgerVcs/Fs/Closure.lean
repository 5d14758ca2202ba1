import LedgerVcs.Lib.Search
import LedgerVcs.Store.Cas

set_option autoImplicit false

namespace LedgerVcs

open Prog (ofExcept)

/-! ## The walk -/

/-- How a name reached the walk, which says how to read it. -/
inductive Role
  | tree | blob | chunk
deriving DecidableEq, Repr

def tree_children (node : Tree) : List (ObjectName × Role) :=
  node.entries.map fun entry =>
    (entry.target, if node.level > 0 ∨ entry.kind = .tree then .tree else .blob)

def blob_children (node : Blob) : List (ObjectName × Role) :=
  node.entries.map fun entry => (entry.target, if node.level > 0 then .blob else .chunk)

def children (name : ObjectName) : Role → Act (List (ObjectName × Role))
  | .chunk => return []
  | .tree => do
    let node ← get_tree name
    return tree_children node
  | .blob => do
    let node ← get_blob name
    return blob_children node

/-- There are this many object names, so no walk visits more. -/
def NAMES : Nat := 256 ^ DIGEST_BYTES

/-- The loop of `_walk`, with `visits` bounding the names still to visit. The top of the stack is its head. -/
def walk (visits : Nat) (stack : List (ObjectName × Role)) (seen : Finset ObjectName)
    (found : List ObjectName) : Act (List ObjectName) :=
  match stack.dropWhile fun item => item.1 ∈ seen with
  | [] => return found
  | (name, role) :: rest =>
    match visits with
    | 0 => .fail (.assertionError "more names than there are")
    | visits + 1 => do
      let below ← children name role
      walk visits (below.reverse ++ rest) (insert name seen) (found ++ [name])

def tree_closure (root : ObjectName) : Act (List ObjectName) := walk NAMES [(root, .tree)] ∅ []

def commit_closure (commit : ObjectName) : Act (List ObjectName) := do
  let node ← get_commit commit
  walk NAMES [(node.tree, .tree)] {commit} [commit]

/-! ## What an object refers to -/

/-- What the content of a name in a role leads to. -/
def references (corpus : Corpus) (item : ObjectName × Role) : List (ObjectName × Role) :=
  match item.2, corpus.content item.1 with
  | .tree, some (.tree node) => tree_children node
  | .blob, some (.blob node) => blob_children node
  | _, _ => []

def Refers (corpus : Corpus) (item below : ObjectName × Role) : Prop := below ∈ references corpus item

/-- A tree, and everything under it. -/
def InTree (corpus : Corpus) (root : ObjectName) (item : ObjectName × Role) : Prop :=
  Relation.ReflTransGen (Refers corpus) (root, .tree) item

/-- The object names a tree reaches. -/
def TreeClosure (corpus : Corpus) (root name : ObjectName) : Prop := ∃ role, InTree corpus root (name, role)

/-- The commit object and everything its tree reaches. -/
def Closure (corpus : Corpus) (commit name : ObjectName) : Prop :=
  name = commit ∨ ∃ node, corpus.content commit = some (.commit node) ∧ TreeClosure corpus node.tree name

/-- No object of the tree is referred to in two roles. -/
def OneRole (corpus : Corpus) (root : ObjectName) : Prop :=
  ∀ name role role', InTree corpus root (name, role) → InTree corpus root (name, role') → role = role'

/-! ## There are names enough -/

theorem card_names (names : Finset ObjectName) : names.card ≤ NAMES := by
  have inside : Set.MapsTo (fun name : ObjectName => Wire.ofBE name.digest) names (Finset.range NAMES) := by
    intro name _
    have bound := Wire.ofBE_lt name.digest
    rw [name.sized] at bound
    exact Finset.mem_coe.mpr (Finset.mem_range.mpr bound)
  have apart : Set.InjOn (fun name : ObjectName => Wire.ofBE name.digest) names := by
    intro left _ right _ same
    apply ObjectName.ext
    have spelled := Wire.toBE_ofBE left.digest
    have spelled' := Wire.toBE_ofBE right.digest
    rw [left.sized] at spelled
    rw [right.sized, ← show Wire.ofBE left.digest = Wire.ofBE right.digest from same] at spelled'
    exact spelled.symm.trans spelled'
  have counted := Finset.card_le_card_of_injOn _ inside apart
  rwa [Finset.card_range] at counted

/-- The walk never runs out of visits. -/
theorem all_seen {visits : Nat} {seen : Finset ObjectName} (enough : NAMES ≤ visits + seen.card)
    (exhausted : visits = 0) (name : ObjectName) : name ∈ seen := by
  by_contra fresh
  have counted := card_names (insert name seen)
  rw [Finset.card_insert_of_notMem fresh] at counted
  omega

/-! ## Reading answers with the content of a name -/

/-- What a read can answer, whatever is stored. -/
def answers (corpus : Corpus) : (command : Cmd) → command.Response → Prop
  | .backend_read name, .ok object => corpus.content name = some object
  | _, _ => True

theorem answered (corpus : Corpus) (command : Cmd) (world : World) :
    answers corpus command (exec corpus command world).1 := by
  cases command with
  | backend_read name =>
    simp only [exec]
    by_cases stored : name ∈ world.backend
    next =>
      rw [if_pos stored]
      cases content : corpus.content name with
      | none => trivial
      | some object => exact content
    next => rw [if_neg stored]; trivial
  | _ => trivial

/-- Fetching an object only reads. -/
def Reads (command : Cmd) : Prop := ∃ name, command = .backend_read name

theorem exec_reads {corpus : Corpus} {command : Cmd} (reads : Reads command) (world : World) :
    (exec corpus command world).2 = world := by
  obtain ⟨name, rfl⟩ := reads
  rfl

section Fetching

variable {corpus : Corpus}

theorem get_object_yields (name : ObjectName) :
    (get_object name).Yields Reads (answers corpus) fun object => corpus.content name = some object := by
  refine .bind (.ask ⟨name, rfl⟩ fun response fits => ?_)
  cases response with
  | ok object => exact fits
  | error => trivial

theorem get_commit_yields (name : ObjectName) :
    (get_commit name).Yields Reads (answers corpus) fun commit =>
      corpus.content name = some (.commit commit) := by
  refine .bind ((get_object_yields name).mono (fun _ fits => fits) fun object content => ?_)
  cases object with
  | commit => exact content
  | _ => trivial

theorem get_tree_yields (name : ObjectName) :
    (get_tree name).Yields Reads (answers corpus) fun tree => corpus.content name = some (.tree tree) := by
  refine .bind ((get_object_yields name).mono (fun _ fits => fits) fun object content => ?_)
  cases object with
  | tree => exact content
  | _ => trivial

theorem get_blob_yields (name : ObjectName) :
    (get_blob name).Yields Reads (answers corpus) fun blob => corpus.content name = some (.blob blob) := by
  refine .bind ((get_object_yields name).mono (fun _ fits => fits) fun object content => ?_)
  cases object with
  | blob => exact content
  | _ => trivial

theorem children_yields (name : ObjectName) (role : Role) :
    (children name role).Yields Reads (answers corpus) fun below =>
      below = references corpus (name, role) := by
  cases role with
  | tree =>
    exact .bind ((get_tree_yields name).mono (fun _ fits => fits) fun node content => by
      simp [Prog.Yields, references, content, pure])
  | blob =>
    exact .bind ((get_blob_yields name).mono (fun _ fits => fits) fun node content => by
      simp [Prog.Yields, references, content, pure])
  | chunk => rfl

end Fetching

/-! ## What the walk finds -/

section Walk

variable {corpus : Corpus} {G : ObjectName × Role → Prop}

theorem dropped_seen {stack : List (ObjectName × Role)} {seen : Finset ObjectName} {item : ObjectName × Role}
    (member : item ∈ stack) :
    item.1 ∈ seen ∨ item ∈ stack.dropWhile fun item => item.1 ∈ seen :=
  (@Search.skipped_or_left _ (fun item : ObjectName × Role => decide (item.1 ∈ seen)) _ _ member).imp_left
    of_decide_eq_true

theorem remaining_fresh {stack rest : List (ObjectName × Role)} {seen : Finset ObjectName}
    {item : ObjectName × Role} (pending : stack.dropWhile (fun item => item.1 ∈ seen) = item :: rest) :
    item.1 ∉ seen ∧ item ∈ stack ∧ ∀ other ∈ rest, other ∈ stack := by
  obtain ⟨fresh, member, others⟩ := Search.popped pending
  exact ⟨of_decide_eq_false fresh, member, others⟩

/-- Whatever a walk finds, its stack leads to, and it finds nothing twice. -/
theorem walk_sound {visits : Nat} {stack : List (ObjectName × Role)} {seen : Finset ObjectName}
    {found : List ObjectName} (closed : ∀ item below, G item → Refers corpus item below → G below)
    (started : ∀ item ∈ stack, G item) (kept : ∀ name, name ∈ seen ↔ name ∈ found) (once : found.Nodup) :
    (walk visits stack seen found).Yields Reads (answers corpus) fun result =>
      result.Nodup ∧ ∀ name ∈ result, name ∈ found ∨ ∃ role, G (name, role) := by
  induction visits generalizing stack seen found with
  | zero =>
    rw [walk]
    split
    next => exact ⟨once, fun name member => .inl member⟩
    next => trivial
  | succ visits ih =>
    rw [walk]
    split
    next => exact ⟨once, fun name member => .inl member⟩
    next name role rest pending =>
      obtain ⟨fresh, here, others⟩ := remaining_fresh pending
      refine .bind ((children_yields name role).mono (fun _ fits => fits) ?_)
      rintro below rfl
      have deeper : ∀ item ∈ (references corpus (name, role)).reverse ++ rest, G item := by
        intro item member
        rcases List.mem_append.mp member with child | later
        next => exact closed (name, role) item (started _ here) (List.mem_reverse.mp child)
        next => exact started item (others item later)
      refine (ih deeper (fun other => ?_) ?_).mono (fun _ fits => fits) ?_
      next => rw [Finset.mem_insert, kept, List.mem_append, List.mem_singleton, or_comm]
      next =>
        refine List.nodup_append.mpr ⟨once, List.nodup_singleton _, ?_⟩
        intro left member right single same
        rw [List.mem_singleton.mp single] at same
        exact fresh ((kept name).mpr (same ▸ member))
      next =>
        rintro result ⟨unique, origin⟩
        refine ⟨unique, fun other member => ?_⟩
        rcases origin other member with early | reached
        next =>
          rcases List.mem_append.mp early with before | now
          next => exact .inl before
          next => exact .inr ⟨role, List.mem_singleton.mp now ▸ started _ here⟩
        next => exact .inr reached

theorem walk_ends {stack : List (ObjectName × Role)} {seen : Finset ObjectName} {found : List ObjectName}
    (kept : ∀ name, name ∈ seen ↔ name ∈ found)
    (followed : ∀ item below, G item → item.1 ∈ seen → Refers corpus item below →
      below.1 ∈ seen ∨ below ∈ stack)
    (pending : stack.dropWhile (fun item => item.1 ∈ seen) = []) :
    (∀ name ∈ found, name ∈ found) ∧ (∀ item ∈ stack, item.1 ∈ found) ∧
      ∀ item below, G item → item.1 ∈ found → Refers corpus item below → below.1 ∈ found := by
  have all (item : ObjectName × Role) (member : item ∈ stack) : item.1 ∈ seen := by
    rcases dropped_seen member with early | late
    next => exact early
    next => rw [pending] at late; cases late
  refine ⟨fun _ member => member, fun item member => (kept _).mp (all item member), ?_⟩
  intro item below fits member refers
  rcases followed item below fits ((kept _).mpr member) refers with early | late
  next => exact (kept _).mp early
  next => exact (kept _).mp (all below late)

/-- A walk of objects that each have one role finds everything its stack leads to. -/
theorem walk_complete {visits : Nat} {stack : List (ObjectName × Role)} {seen : Finset ObjectName}
    {found : List ObjectName} (closed : ∀ item below, G item → Refers corpus item below → G below)
    (started : ∀ item ∈ stack, G item) (kept : ∀ name, name ∈ seen ↔ name ∈ found)
    (single : ∀ name role role', G (name, role) → G (name, role') → role = role')
    (followed : ∀ item below, G item → item.1 ∈ seen → Refers corpus item below →
      below.1 ∈ seen ∨ below ∈ stack) :
    (walk visits stack seen found).Yields Reads (answers corpus) fun result =>
      (∀ name ∈ found, name ∈ result) ∧ (∀ item ∈ stack, item.1 ∈ result) ∧
        ∀ item below, G item → item.1 ∈ result → Refers corpus item below → below.1 ∈ result := by
  induction visits generalizing stack seen found with
  | zero =>
    rw [walk]
    split
    next pending => exact walk_ends kept followed pending
    next => trivial
  | succ visits ih =>
    rw [walk]
    split
    next pending => exact walk_ends kept followed pending
    next name role rest pending =>
      obtain ⟨fresh, here, others⟩ := remaining_fresh pending
      refine .bind ((children_yields name role).mono (fun _ fits => fits) ?_)
      rintro below rfl
      have deeper : ∀ item ∈ (references corpus (name, role)).reverse ++ rest, G item := by
        intro item member
        rcases List.mem_append.mp member with child | later
        next => exact closed (name, role) item (started _ here) (List.mem_reverse.mp child)
        next => exact started item (others item later)
      have moved (item : ObjectName × Role) (known : item.1 ∈ seen ∨ item ∈ stack) :
          item.1 ∈ insert name seen ∨ item ∈ (references corpus (name, role)).reverse ++ rest := by
        have left : item.1 ∈ seen ∨ item ∈ (name, role) :: rest := by
          rcases known with early | member
          next => exact .inl early
          next => exact pending ▸ dropped_seen member
        rcases left with early | late
        next => exact .inl (Finset.mem_insert_of_mem early)
        next =>
          rcases List.mem_cons.mp late with rfl | later
          next => exact .inl (Finset.mem_insert_self _ _)
          next => exact .inr (List.mem_append_right _ later)
      have keptNow (other : ObjectName) : other ∈ insert name seen ↔ other ∈ found ++ [name] := by
        rw [Finset.mem_insert, kept, List.mem_append, List.mem_singleton, or_comm]
      have followedNow (item child : ObjectName × Role) (fits : G item) (member : item.1 ∈ insert name seen)
          (refers : Refers corpus item child) :
          child.1 ∈ insert name seen ∨ child ∈ (references corpus (name, role)).reverse ++ rest := by
        rcases Finset.mem_insert.mp member with now | before
        next =>
          -- The name just visited has one role only, so its references are those just pushed.
          have same : item = (name, role) :=
            Prod.ext now (single name _ _ (now ▸ fits : G (name, item.2)) (started _ here))
          rw [same] at refers
          exact .inr (List.mem_append_left _ (List.mem_reverse.mpr refers))
        next => exact moved child (followed item child fits before refers)
      refine (ih deeper keptNow followedNow).mono (fun _ fits => fits) ?_
      rintro result ⟨whole, tops, ends⟩
      refine ⟨fun other member => whole other (List.mem_append_left _ member), ?_, ends⟩
      intro item member
      rcases moved item (.inr member) with early | late
      next => exact whole _ ((keptNow _).mp early)
      next => exact tops item late

end Walk

/-! ## Closures -/

section Closures

variable {corpus : Corpus}

theorem tree_walk_yields {root : ObjectName} {seed : List ObjectName} (once : seed.Nodup)
    (leaves : ∀ name ∈ seed, ∀ role, references corpus (name, role) = []) :
    (walk NAMES [(root, .tree)] seed.toFinset seed).Yields Reads (answers corpus) fun result =>
      (result.Nodup ∧ ∀ name ∈ result, name ∈ seed ∨ TreeClosure corpus root name) ∧
        (OneRole corpus root → ∀ name, name ∈ seed ∨ TreeClosure corpus root name → name ∈ result) := by
  have closed (item below : ObjectName × Role) (inTree : InTree corpus root item)
      (refers : Refers corpus item below) : InTree corpus root below := inTree.tail refers
  have started : ∀ item ∈ [(root, Role.tree)], InTree corpus root item := by
    intro item member
    rw [List.mem_singleton.mp member]
    exact .refl
  have kept (name : ObjectName) : name ∈ seed.toFinset ↔ name ∈ seed := List.mem_toFinset
  refine (walk_sound closed started kept once).and ?_
  by_cases single : OneRole corpus root
  next =>
    refine (walk_complete closed started kept single ?_).mono (fun _ fits => fits) ?_
    next =>
      rintro ⟨name, role⟩ below _ member refers
      rw [Refers, leaves name ((kept name).mp member) role] at refers
      cases refers
    next =>
      rintro result ⟨whole, tops, ends⟩ _ name (early | ⟨role, inTree⟩)
      next => exact whole name early
      next =>
        have reached : ∀ item, InTree corpus root item → item.1 ∈ result := by
          intro item inTree
          induction inTree with
          | refl => exact tops _ (List.mem_singleton_self _)
          | tail before refers ih => exact ends _ _ before ih refers
        exact reached _ inTree
  next =>
    refine (walk_sound (G := InTree corpus root) closed started kept once).mono (fun _ fits => fits) ?_
    intro result _ impossible
    exact absurd impossible single

theorem tree_closure_yields (root : ObjectName) :
    (tree_closure root).Yields Reads (answers corpus) fun result =>
      (result.Nodup ∧ ∀ name ∈ result, TreeClosure corpus root name) ∧
        (OneRole corpus root → ∀ name, TreeClosure corpus root name → name ∈ result) := by
  refine (@tree_walk_yields corpus root [] List.nodup_nil (by simp)).mono (fun _ fits => fits) ?_
  simp

theorem commit_closure_yields (commit : ObjectName) :
    (commit_closure commit).Yields Reads (answers corpus) fun result =>
      ∃ node, corpus.content commit = some (.commit node) ∧
        (result.Nodup ∧ ∀ name ∈ result, name = commit ∨ TreeClosure corpus node.tree name) ∧
        (OneRole corpus node.tree → ∀ name, name = commit ∨ TreeClosure corpus node.tree name →
          name ∈ result) := by
  refine .bind ((get_commit_yields commit).mono (fun _ fits => fits) fun node content => ?_)
  refine (@tree_walk_yields corpus node.tree [commit] (List.nodup_singleton _) ?_).mono (fun _ fits => fits) ?_
  next =>
    intro name member role
    rw [List.mem_singleton.mp member, references, content]
    cases role <;> rfl
  next =>
    intro result whole
    simp only [List.mem_singleton] at whole
    exact ⟨node, content, whole⟩

end Closures

end LedgerVcs
