/-!
# Computations that end well

What the success of a computation says about its parts.
-/

namespace Restyle.Outcome
variable {ε α β : Type} {e : ε} {x : Except ε α} {f : α → Except ε β} {a : α} {b : β}

theorem bind_ok : (x >>= f) = .ok b ↔ ∃ a, x = .ok a ∧ f a = .ok b := by
  cases x <;> simp [bind, Except.bind]

theorem throw_ok : (throw e : Except ε α) = .ok a ↔ False := by
  simp [throw, throwThe, MonadExceptOf.throw]

theorem pure_ok {b : α} : (pure a : Except ε α) = .ok b ↔ a = b := by
  simp [pure, Except.pure]

/-- A check that fails leaves nothing of what comes after it. -/
theorem check_ok {p : Prop} [Decidable p] {rest : Except ε β} :
    (if p then (throw e : Except ε α) >>= f else rest) = .ok b ↔ ¬ p ∧ rest = .ok b := by
  by_cases h : p <;> simp [h, throw, throwThe, MonadExceptOf.throw, bind, Except.bind]

theorem last_check_ok {p : Prop} [Decidable p] :
    (if p then (throw e : Except ε α) else x) = .ok a ↔ ¬ p ∧ x = .ok a := by
  by_cases h : p <;> simp [h, throw, throwThe, MonadExceptOf.throw]

theorem map_ok {g : α → β} : x.map g = .ok b ↔ ∃ a, x = .ok a ∧ g a = b := by
  cases x <;> simp [Except.map]

theorem toOption_some : x.toOption = some a ↔ x = .ok a := by
  cases x <;> simp [Except.toOption]

theorem mapM_ok {l : List α} {r : List β} : l.mapM f = .ok r ↔ l.map f = r.map .ok := by
  induction l generalizing r with
  | nil => simp [List.mapM_nil, pure, Except.pure, eq_comm]
  | cons a l ih =>
    simp only [List.mapM_cons, bind_ok, pure_ok, ih, List.map_cons]
    constructor
    · rintro ⟨b, first, bs, rest, rfl⟩
      rw [first, rest, List.map_cons]
    · intro same
      cases r with
      | nil => simp at same
      | cons b bs =>
        obtain ⟨first, rest⟩ := List.cons.inj same
        exact ⟨b, first, bs, rest, rfl⟩

theorem mapM_error {l : List α} (failed : l.mapM f = .error e) : ∃ a ∈ l, f a = .error e := by
  induction l with
  | nil =>
    rw [List.mapM_nil] at failed
    cases failed
  | cons a l ih =>
    rw [List.mapM_cons] at failed
    cases first : f a with
    | error e₁ =>
      rw [first] at failed
      rw [← show e₁ = e from Except.error.inj failed]
      exact ⟨a, List.mem_cons_self, first⟩
    | ok b =>
      cases rest : l.mapM f with
      | error e₁ =>
        rw [first, rest] at failed
        obtain ⟨a', member, found⟩ := ih (rest.trans failed)
        exact ⟨a', List.mem_cons_of_mem _ member, found⟩
      | ok bs =>
        rw [first, rest] at failed
        cases failed

section State
variable {σ : Type} {s s' : σ}

theorem state_bind_ok {x : EStateM ε σ α} {f : α → EStateM ε σ β} :
    (x >>= f) s = .ok b s' ↔ ∃ a s₁, x s = .ok a s₁ ∧ f a s₁ = .ok b s' := by
  simp only [bind, EStateM.bind]
  cases x s with
  | ok a s₁ =>
    constructor
    · exact fun rest => ⟨a, s₁, rfl, rest⟩
    · rintro ⟨a', s₂, ⟨⟩, rest⟩
      exact rest
  | error e s₁ => simp

theorem state_pure_ok {b : α} : (pure a : EStateM ε σ α) s = .ok b s' ↔ a = b ∧ s = s' := by
  simp [pure, EStateM.pure]

end State

end Restyle.Outcome
