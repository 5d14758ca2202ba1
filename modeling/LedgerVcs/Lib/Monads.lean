import Mathlib.Tactic

set_option autoImplicit false

/-! What a step of a computation with exceptions, or with a state and exceptions, returned. -/

namespace Monads

variable {ε σ α β : Type}

@[simp] theorem except_bind_ok {result : Except ε α} {f : α → Except ε β} {b : β} :
    (result >>= f) = .ok b ↔ ∃ a, result = .ok a ∧ f a = .ok b := by
  cases result <;> simp [bind, Except.bind]

theorem toOption_ok {result : Except ε α} {value : α} : result.toOption = some value ↔ result = .ok value := by
  cases result <;> simp [Except.toOption]

theorem bind_ok {p : StateT σ (Except ε) α} {f : α → StateT σ (Except ε) β} {before after : σ} {b : β} :
    (p >>= f) before = .ok (b, after) ↔
      ∃ a middle, p before = .ok (a, middle) ∧ f a middle = .ok (b, after) := by
  change (p before >>= fun pair => f pair.1 pair.2) = _ ↔ _
  cases p before with
  | error e => simp [bind, Except.bind]
  | ok pair => obtain ⟨a, middle⟩ := pair; simp [bind, Except.bind]

theorem pure_ok {a b : α} {before after : σ} :
    (pure a : StateT σ (Except ε) α) before = .ok (b, after) ↔ a = b ∧ before = after := by
  change Except.ok (a, before) = .ok (b, after) ↔ _
  simp

theorem liftM_ok {result : Except ε α} {a : α} {before after : σ} :
    (liftM result : StateT σ (Except ε) α) before = .ok (a, after) ↔ result = .ok a ∧ before = after := by
  change (result >>= fun a => Except.ok (a, before)) = _ ↔ _
  cases result <;> simp [bind, Except.bind]

theorem map_ok {f : α → β} {p : StateT σ (Except ε) α} {b : β} {before after : σ} :
    (f <$> p) before = .ok (b, after) ↔ ∃ a, f a = b ∧ p before = .ok (a, after) := by
  rw [map_eq_pure_bind, bind_ok]
  simp only [pure_ok]
  constructor
  next => rintro ⟨a, middle, read, same, rfl⟩; exact ⟨a, same, read⟩
  next => rintro ⟨a, same, read⟩; exact ⟨a, after, read, same, rfl⟩

theorem modify_ok {f : σ → σ} {before after : σ} {done : PUnit} :
    (modify f : StateT σ (Except ε) PUnit) before = .ok (done, after) ↔ f before = after := by
  change Except.ok (PUnit.unit, f before) = .ok (done, after) ↔ _
  simp

theorem filterM_ok {test : α → Except ε Bool} {holds : α → Bool} {items : List α}
    (tested : ∀ item ∈ items, test item = .ok (holds item)) : items.filterM test = .ok (items.filter holds) := by
  have rounds (taken : List α) : List.filterAuxM test items taken = .ok ((items.filter holds).reverse ++ taken) := by
    induction items generalizing taken with
    | nil => rfl
    | cons item items ih =>
      rw [List.filterAuxM, tested item List.mem_cons_self]
      change List.filterAuxM test items (cond (holds item) (item :: taken) taken) = _
      rw [ih fun later member => tested later (List.mem_cons_of_mem _ member)]
      cases held : holds item <;> simp [held]
  rw [List.filterM, rounds]
  change Except.ok ((items.filter holds).reverse ++ []).reverse = _
  rw [List.append_nil, List.reverse_reverse]

end Monads
