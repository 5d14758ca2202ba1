import Mathlib.Logic.Relation

set_option autoImplicit false

/-! Following one pointer from a node, down to an end. -/

namespace Descent

variable {α : Type} {parent : α → Option α → Prop} {bottom top : Option α} {nodes : List α}

/-- The nodes from the top down to the bottom, which is left out, each followed by its parent. -/
inductive Path (parent : α → Option α → Prop) (bottom : Option α) : Option α → List α → Prop
  | here : Path parent bottom bottom []
  | step {node : α} {next : Option α} {nodes : List α} (leads : parent node next)
      (below : Path parent bottom next nodes) : Path parent bottom (some node) (node :: nodes)

def Leads (parent : α → Option α → Prop) (node next : α) : Prop := parent node (some next)

theorem Path.head {node : α} (path : Path parent bottom top (node :: nodes)) : top = some node := by
  cases path
  rfl

theorem Path.above {last : α} (path : Path parent (some last) top nodes) :
    ∀ node ∈ nodes, Relation.TransGen (Leads parent) node last := by
  induction path with
  | here => exact fun node member => by cases member
  | @step first next nodes leads below ih =>
    intro node member
    rcases List.mem_cons.mp member with rfl | among
    next =>
      cases below with
      | here => exact .single leads
      | step => exact .head leads (ih _ List.mem_cons_self)
    next => exact ih node among

theorem Path.rest {before after : List α} {node : α} (path : Path parent bottom top (before ++ node :: after)) :
    Path parent bottom (some node) (node :: after) := by
  induction before generalizing top with
  | nil =>
    obtain rfl := path.head
    exact path
  | cons first before ih =>
    cases path with
    | step leads below => exact ih below

theorem Path.fresh (path : Path parent bottom top nodes)
    (rooted : ∀ last, bottom = some last → ¬ Relation.TransGen (Leads parent) last last) {node : α}
    (member : node ∈ nodes) : bottom ≠ some node := by
  rintro rfl
  exact rooted node rfl (path.above node member)

theorem Path.apart (path : Path parent bottom top nodes)
    (rooted : ∀ last, bottom = some last → ¬ Relation.TransGen (Leads parent) last last) {node last : α}
    (member : node ∈ nodes) (ends : bottom = some last) : ¬ Relation.ReflTransGen (Leads parent) last node := by
  intro under
  subst ends
  exact rooted last rfl (Relation.TransGen.trans_right under (path.above node member))

theorem Path.unique {nodes' : List α} (functional : ∀ node next next', parent node next → parent node next' → next = next')
    (path : Path parent bottom top nodes) (path' : Path parent bottom top nodes')
    (fresh : ∀ node ∈ nodes, bottom ≠ some node) (fresh' : ∀ node ∈ nodes', bottom ≠ some node) : nodes = nodes' := by
  induction path generalizing nodes' with
  | here =>
    cases path' with
    | here => rfl
    | step leads below => exact absurd rfl (fresh' _ List.mem_cons_self)
  | @step node next nodes leads below ih =>
    cases path' with
    | here => exact absurd rfl (fresh _ List.mem_cons_self)
    | step leads' below' =>
      obtain rfl := functional _ _ _ leads leads'
      rw [ih below' (fun other member => fresh other (List.mem_cons_of_mem _ member))
        fun other member => fresh' other (List.mem_cons_of_mem _ member)]

/-- A way down to an end that is not above itself passes no node twice. -/
theorem Path.nodup (functional : ∀ node next next', parent node next → parent node next' → next = next')
    (rooted : ∀ last, bottom = some last → ¬ Relation.TransGen (Leads parent) last last)
    (path : Path parent bottom top nodes) : nodes.Nodup := by
  have fresh {top : Option α} {nodes : List α} (path : Path parent bottom top nodes) :
      ∀ node ∈ nodes, bottom ≠ some node := fun node member => path.fresh rooted member
  induction path with
  | here => exact List.nodup_nil
  | @step node next nodes leads below ih =>
    refine List.nodup_cons.mpr ⟨fun again => ?_, ih⟩
    obtain ⟨before, after, rfl⟩ := List.append_of_mem again
    have long : Path parent bottom (some node) (node :: (before ++ node :: after)) := .step leads below
    have short := below.rest
    -- From a node that is met again, there would be a longer and a shorter way down.
    have same := long.unique functional short (fresh long) (fresh short)
    have lengths := congrArg List.length same
    simp only [List.length_cons, List.length_append] at lengths
    omega

end Descent
