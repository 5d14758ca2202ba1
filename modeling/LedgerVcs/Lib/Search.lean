import Mathlib.Data.Finset.Card
import Mathlib.Logic.Relation
import Mathlib.Tactic

set_option autoImplicit false

/-!
# Searching a graph with a stack

The head of the stack is its top. A search visits nothing twice, and gives up after a number of visits.
-/

namespace Search

/-! ## Popping what is not wanted -/

section Pop

variable {α : Type} {skip : α → Bool} {stack rest : List α} {item : α}

theorem skipped_or_left (member : item ∈ stack) : skip item = true ∨ item ∈ stack.dropWhile skip := by
  rw [← List.takeWhile_append_dropWhile (p := skip) (l := stack), List.mem_append] at member
  rcases member with early | late
  next => exact .inl (List.all_eq_true.mp List.all_takeWhile item early)
  next => exact .inr late

theorem popped (pending : stack.dropWhile skip = item :: rest) :
    skip item = false ∧ item ∈ stack ∧ ∀ other ∈ rest, other ∈ stack := by
  have within : ∀ other ∈ item :: rest, other ∈ stack := by
    intro other member
    rw [← pending] at member
    exact List.dropWhile_subset _ member
  refine ⟨?_, within item List.mem_cons_self, fun other member => within other (List.mem_cons_of_mem _ member)⟩
  have head := List.head_dropWhile_not skip (l := stack) (by rw [pending]; exact List.cons_ne_nil _ _)
  simpa [pending] using head

end Pop

section Path

variable {α : Type} {below : α → List α} {goal : α} {stack : List α} {seen : Finset α}

/-- Something leads to the goal. -/
def Leads (below : α → List α) (goal : α) (stack : List α) : Prop :=
  ∃ start ∈ stack, Relation.ReflTransGen (fun item next => next ∈ below item) start goal

/-- A path to a goal that was not visited comes to the stack. -/
theorem leads_of_path {start : α} (followed : ∀ item ∈ seen, ∀ next ∈ below item, next ∈ seen ∨ next ∈ stack)
    (fresh : goal ∉ seen) (known : start ∈ seen ∨ start ∈ stack)
    (path : Relation.ReflTransGen (fun item next => next ∈ below item) start goal) : Leads below goal stack := by
  induction path using Relation.ReflTransGen.head_induction_on with
  | refl =>
    rcases known with old | waiting
    next => exact absurd old fresh
    next => exact ⟨goal, waiting, .refl⟩
  | @head item next edge rest ih =>
    rcases known with old | waiting
    next => exact ih (followed item old next edge)
    next => exact ⟨item, waiting, .head edge rest⟩

end Path

section Find

variable {α σ : Type} [DecidableEq α]

/-- Looks for the goal from what the stack holds, and notes every visit. -/
def find (below : α → List α) (note : σ → α → σ) (goal : α) (visits : Nat) (stack : List α) (seen : Finset α)
    (noted : σ) : Bool × σ :=
  match stack.dropWhile fun item => item ∈ seen with
  | [] => (false, noted)
  | current :: rest =>
    match visits with
    | 0 => (false, noted)
    | visits + 1 =>
      if current = goal then (true, note noted current)
      else find below note goal visits ((below current).reverse ++ rest) (insert current seen) (note noted current)

variable {below : α → List α} {note : σ → α → σ} {goal : α} {stack : List α} {seen : Finset α}

theorem followed_visit {current : α} {rest : List α}
    (followed : ∀ item ∈ seen, ∀ next ∈ below item, next ∈ seen ∨ next ∈ stack)
    (pending : (stack.dropWhile fun item => item ∈ seen) = current :: rest) :
    (∀ item, item ∈ seen ∨ item ∈ stack → item ∈ insert current seen ∨ item ∈ (below current).reverse ++ rest) ∧
      ∀ item ∈ insert current seen, ∀ next ∈ below item,
        next ∈ insert current seen ∨ next ∈ (below current).reverse ++ rest := by
  have moved (item : α) (known : item ∈ seen ∨ item ∈ stack) :
      item ∈ insert current seen ∨ item ∈ (below current).reverse ++ rest := by
    have left : item ∈ seen ∨ item ∈ current :: rest := by
      rcases known with old | waiting
      next => exact .inl old
      next =>
        have := @skipped_or_left _ (fun item => decide (item ∈ seen)) _ _ waiting
        rwa [pending, decide_eq_true_iff] at this
    rcases left with old | waiting
    next => exact .inl (Finset.mem_insert_of_mem old)
    next =>
      rcases List.mem_cons.mp waiting with rfl | later
      next => exact .inl (Finset.mem_insert_self _ _)
      next => exact .inr (List.mem_append_right _ later)
  refine ⟨moved, fun item member next edge => ?_⟩
  rcases Finset.mem_insert.mp member with rfl | old
  next => exact .inr (List.mem_append_left _ (List.mem_reverse.mpr edge))
  next => exact moved next (followed item old next edge)

theorem exhausted (fresh : goal ∉ seen)
    (followed : ∀ item ∈ seen, ∀ next ∈ below item, next ∈ seen ∨ next ∈ stack)
    (pending : (stack.dropWhile fun item => item ∈ seen) = []) : ¬ Leads below goal stack := by
  have all (item : α) (waiting : item ∈ stack) : item ∈ seen := by
    have := @skipped_or_left _ (fun item => decide (item ∈ seen)) _ _ waiting
    simpa [pending] using this
  rintro ⟨start, waiting, path⟩
  obtain ⟨_, impossible, -⟩ := @leads_of_path _ _ _ [] _ _
    (fun item old next edge => .inl ((followed item old next edge).elim id (all next))) fresh (.inl (all start waiting)) path
  cases impossible

/-- A search with room for everything there is finds the goal exactly if something on its stack leads to it. -/
theorem find_iff {all : Finset α} {visits : Nat} {noted : σ} (closed : ∀ item ∈ all, ∀ next ∈ below item, next ∈ all)
    (within : ∀ item ∈ stack, item ∈ all) (visited : seen ⊆ all) (fresh : goal ∉ seen)
    (followed : ∀ item ∈ seen, ∀ next ∈ below item, next ∈ seen ∨ next ∈ stack)
    (room : all.card ≤ visits + seen.card) :
    (find below note goal visits stack seen noted).1 = true ↔ Leads below goal stack := by
  induction visits generalizing stack seen noted with
  | zero =>
    rw [find]
    split
    next pending => simp [exhausted fresh followed pending]
    next current rest pending =>
      obtain ⟨new, here, -⟩ := popped pending
      have grown := Finset.card_le_card (Finset.insert_subset (within current here) visited)
      rw [Finset.card_insert_of_notMem (of_decide_eq_false new)] at grown
      omega
  | succ visits ih =>
    rw [find]
    split
    next pending => simp [exhausted fresh followed pending]
    next current rest pending =>
      obtain ⟨new, here, others⟩ := popped pending
      have unseen := of_decide_eq_false new
      by_cases found : current = goal
      next =>
        simp only [found, if_true, true_iff]
        exact ⟨goal, found ▸ here, .refl⟩
      next =>
        obtain ⟨moved, follows⟩ := followed_visit followed pending
        have unvisited : goal ∉ insert current seen := by
          rw [Finset.mem_insert, not_or]
          exact ⟨Ne.symm found, fresh⟩
        simp only [if_neg found]
        rw [ih ?_ (Finset.insert_subset (within current here) visited) unvisited follows ?_]
        next =>
          constructor
          next =>
            rintro ⟨start, waiting, path⟩
            rcases List.mem_append.mp waiting with child | later
            next => exact ⟨current, here, .head (List.mem_reverse.mp child) path⟩
            next => exact ⟨start, others start later, path⟩
          next =>
            rintro ⟨start, waiting, path⟩
            exact leads_of_path follows unvisited (moved start (.inr waiting)) path
        next =>
          intro item waiting
          rcases List.mem_append.mp waiting with child | later
          next => exact closed current (within current here) item (List.mem_reverse.mp child)
          next => exact within item (others item later)
        next =>
          rw [Finset.card_insert_of_notMem unseen]
          omega

/-- What holds of the notes at first, and is kept by the visits to what the stack leads to, holds of them last. -/
theorem find_notes {P : σ → Prop} {G : α → Prop} {visits : Nat} {noted : σ}
    (closed : ∀ item, G item → ∀ next ∈ below item, G next) (within : ∀ item ∈ stack, G item)
    (keeps : ∀ so_far item, G item → P so_far → P (note so_far item)) (holds : P noted) :
    P (find below note goal visits stack seen noted).2 := by
  induction visits generalizing stack seen noted with
  | zero =>
    rw [find]
    split <;> exact holds
  | succ visits ih =>
    rw [find]
    split
    next => exact holds
    next current rest pending =>
      obtain ⟨-, here, others⟩ := popped pending
      have kept := keeps noted current (within current here) holds
      by_cases found : current = goal
      next => simpa only [if_pos found] using kept
      next =>
        simp only [if_neg found]
        refine ih (fun item waiting => ?_) kept
        rcases List.mem_append.mp waiting with child | later
        next => exact closed current (within current here) item (List.mem_reverse.mp child)
        next => exact within item (others item later)

end Find

section Sweep

variable {α : Type} [DecidableEq α]

/-- Visits all that the stack leads to, unless the visits run out before: whether it has, and what is visited then. -/
def sweep (below : α → List α) (visits : Nat) (stack : List α) (seen : Finset α) : Bool × Finset α :=
  match stack.dropWhile fun item => item ∈ seen with
  | [] => (true, seen)
  | current :: rest =>
    match visits with
    | 0 => (false, seen)
    | visits + 1 => sweep below visits ((below current).reverse ++ rest) (insert current seen)

variable {below : α → List α} {stack : List α} {seen : Finset α}

/-- What is visited is closed. -/
def Closed (below : α → List α) (seen : Finset α) : Prop := ∀ item ∈ seen, ∀ next ∈ below item, next ∈ seen

theorem swept (followed : ∀ item ∈ seen, ∀ next ∈ below item, next ∈ seen ∨ next ∈ stack)
    (pending : (stack.dropWhile fun item => item ∈ seen) = []) :
    Closed below seen ∧ ∀ goal, goal ∈ seen ↔ goal ∈ seen ∨ Leads below goal stack := by
  have all (item : α) (waiting : item ∈ stack) : item ∈ seen := by
    have := @skipped_or_left _ (fun item => decide (item ∈ seen)) _ _ waiting
    simpa [pending] using this
  refine ⟨fun item old next edge => (followed item old next edge).elim id (all next), fun goal => ?_⟩
  refine ⟨.inl, fun reached => reached.elim id fun leads => ?_⟩
  by_contra fresh
  exact exhausted fresh followed pending leads

/-- What a visit leaves to sweep leads to the same, beside what is visited. -/
theorem leads_visit {current : α} {rest : List α} {goal : α}
    (followed : ∀ item ∈ seen, ∀ next ∈ below item, next ∈ seen ∨ next ∈ stack)
    (pending : (stack.dropWhile fun item => item ∈ seen) = current :: rest) :
    (goal ∈ insert current seen ∨ Leads below goal ((below current).reverse ++ rest)) ↔
      goal ∈ seen ∨ Leads below goal stack := by
  obtain ⟨-, here, others⟩ := popped pending
  obtain ⟨moved, follows⟩ := followed_visit followed pending
  constructor
  next =>
    rintro (visited | ⟨start, waiting, path⟩)
    next =>
      rcases Finset.mem_insert.mp visited with rfl | old
      next => exact .inr ⟨goal, here, .refl⟩
      next => exact .inl old
    next =>
      rcases List.mem_append.mp waiting with child | later
      next => exact .inr ⟨current, here, .head (List.mem_reverse.mp child) path⟩
      next => exact .inr ⟨start, others start later, path⟩
  next =>
    rintro (old | ⟨start, waiting, path⟩)
    next => exact .inl (Finset.mem_insert_of_mem old)
    next =>
      by_cases visited : goal ∈ insert current seen
      next => exact .inl visited
      next => exact .inr (leads_of_path follows visited (moved start (.inr waiting)) path)

/-- A sweep that finished has visited what its stack leads to and nothing more, in no more visits than it had. -/
theorem sweep_finished {visits : Nat} (followed : ∀ item ∈ seen, ∀ next ∈ below item, next ∈ seen ∨ next ∈ stack)
    (finished : (sweep below visits stack seen).1 = true) :
    Closed below (sweep below visits stack seen).2 ∧
      (∀ goal, goal ∈ (sweep below visits stack seen).2 ↔ goal ∈ seen ∨ Leads below goal stack) ∧
      ((sweep below visits stack seen).2 \ seen).card ≤ visits := by
  have ended (visits : Nat) : (seen \ seen).card ≤ visits := by
    rw [Finset.sdiff_self, Finset.card_empty]
    exact Nat.zero_le visits
  induction visits generalizing stack seen with
  | zero =>
    rw [sweep] at finished ⊢
    cases pending : stack.dropWhile fun item => item ∈ seen with
    | nil =>
      obtain ⟨shut, reached⟩ := swept followed pending
      exact ⟨shut, reached, ended 0⟩
    | cons current rest =>
      rw [pending] at finished
      cases finished
  | succ visits ih =>
    rw [sweep] at finished ⊢
    cases pending : stack.dropWhile fun item => item ∈ seen with
    | nil =>
      obtain ⟨shut, reached⟩ := swept followed pending
      exact ⟨shut, reached, ended _⟩
    | cons current rest =>
      rw [pending] at finished
      obtain ⟨shut, reached, few⟩ := ih (followed_visit followed pending).2 finished
        fun visits => by rw [Finset.sdiff_self, Finset.card_empty]; exact Nat.zero_le visits
      refine ⟨shut, fun goal => (reached goal).trans (leads_visit followed pending), ?_⟩
      calc ((sweep below visits ((below current).reverse ++ rest) (insert current seen)).2 \ seen).card
          ≤ (insert current ((sweep below visits ((below current).reverse ++ rest) (insert current seen)).2 \
              insert current seen)).card := by
            refine Finset.card_le_card fun item member => ?_
            obtain ⟨visited, fresh⟩ := Finset.mem_sdiff.mp member
            by_cases same : item = current
            next => exact same ▸ Finset.mem_insert_self _ _
            next =>
              refine Finset.mem_insert_of_mem (Finset.mem_sdiff.mpr ⟨visited, fun early => ?_⟩)
              exact (Finset.mem_insert.mp early).elim same fresh
        _ ≤ visits + 1 := (Finset.card_insert_le _ _).trans (Nat.succ_le_succ few)

/-- A sweep with room for what its stack leads to finishes. -/
theorem sweep_finishes {all : Finset α} {visits : Nat} (leads : ∀ goal, Leads below goal stack → goal ∈ seen ∨ goal ∈ all)
    (followed : ∀ item ∈ seen, ∀ next ∈ below item, next ∈ seen ∨ next ∈ stack) (room : (all \ seen).card ≤ visits) :
    (sweep below visits stack seen).1 = true := by
  have inside {current : α} {rest : List α} (pending : (stack.dropWhile fun item => item ∈ seen) = current :: rest) :
      current ∈ all \ seen := by
    obtain ⟨new, here, -⟩ := popped pending
    have unseen := of_decide_eq_false new
    exact Finset.mem_sdiff.mpr ⟨(leads current ⟨current, here, .refl⟩).resolve_left unseen, unseen⟩
  induction visits generalizing stack seen with
  | zero =>
    rw [sweep]
    cases pending : stack.dropWhile fun item => item ∈ seen with
    | nil => rfl
    | cons current rest =>
      have counted := Finset.card_pos.mpr ⟨current, inside pending⟩
      omega
  | succ visits ih =>
    rw [sweep]
    cases pending : stack.dropWhile fun item => item ∈ seen with
    | nil => rfl
    | cons current rest =>
      have later (goal : α) (goes : Leads below goal ((below current).reverse ++ rest)) :
          goal ∈ insert current seen ∨ goal ∈ all := by
        rcases (leads_visit followed pending).mp (.inr goes) with old | goes
        next => exact .inl (Finset.mem_insert_of_mem old)
        next => exact (leads goal goes).imp_left fun old => Finset.mem_insert_of_mem old
      refine ih later (followed_visit followed pending).2 ?_ fun {item left} waiting => ?_
      next =>
        have counted := Finset.card_lt_card (Finset.ssubset_iff_of_subset
          (Finset.sdiff_subset_sdiff (Finset.Subset.refl all) (Finset.subset_insert current seen)) |>.mpr
          ⟨current, inside pending, fun member => (Finset.mem_sdiff.mp member).2 (Finset.mem_insert_self _ _)⟩)
        omega
      next =>
        obtain ⟨new, here, -⟩ := popped waiting
        have unseen := of_decide_eq_false new
        exact Finset.mem_sdiff.mpr ⟨(later item ⟨item, here, .refl⟩).resolve_left unseen, unseen⟩

end Sweep

end Search
