/-!
# Results of computations that can fail

What it takes for computations in a row, or for one over a list, to end with a value, and what it
means that they fail.
-/
namespace Pseudocode

section Results
variable {ε α β : Type} {x : Except ε α} {f : α → Except ε β}

/-- A sequence of two steps succeeds if both do. -/
theorem bind_eq_ok {b : β} : x >>= f = .ok b ↔ ∃ a, x = .ok a ∧ f a = .ok b := by
  cases x with
  | error e =>
      constructor
      · intro h
        cases h
      · rintro ⟨a, ha, -⟩
        cases ha
  | ok a =>
      constructor
      · intro h
        exact ⟨a, rfl, h⟩
      · rintro ⟨a', ha, h⟩
        obtain rfl := Except.ok.inj ha
        exact h

/-- A sequence of two steps fails if one of them does. -/
theorem bind_eq_error {e : ε} (h : x >>= f = .error e) :
    x = .error e ∨ ∃ a, x = .ok a ∧ f a = .error e := by
  cases x with
  | error e' => exact .inl (congrArg _ (Except.error.inj h))
  | ok a => exact .inr ⟨a, rfl, h⟩

/-- A change of the error does not touch a value. -/
theorem mapError_eq_ok {δ : Type} {g : ε → δ} {a : α} :
    x.mapError g = .ok a ↔ x = .ok a := by
  cases x with
  | error e =>
      constructor
      · intro h
        cases h
      · intro h
        cases h
  | ok b =>
      constructor
      · intro h
        exact congrArg _ (Except.ok.inj h)
      · intro h
        exact congrArg _ (Except.ok.inj h)

/-- A step that can be run without a failure has a result. -/
theorem eq_ok_of_isSome (h : x.toOption.isSome = true) (default : α) :
    x = .ok (x.toOption.getD default) := by
  cases x with
  | error e => cases h
  | ok a => rfl

/-- A computation over a list succeeds if it does for every member. -/
theorem mapM_eq_ok {g : α → β} {xs : List α} (h : ∀ x ∈ xs, f x = .ok (g x)) :
    xs.mapM f = .ok (xs.map g) := by
  induction xs with
  | nil => rfl
  | cons x xs ih =>
      rw [List.mapM_cons, h x List.mem_cons_self, ih fun y hy => h y (List.mem_cons_of_mem _ hy)]
      rfl

/-- Two computations stay in lockstep if their first parts do and what follows these does. -/
theorem map_bind_lockstep {α' β' : Type} {x' : Except ε α'} {f' : α' → Except ε β'}
    {g : α → α'} {g' : β → β'} (hx : x' = x.map g)
    (hf : ∀ a, x = .ok a → f' (g a) = (f a).map g') : x' >>= f' = (x >>= f).map g' := by
  subst hx
  cases x with
  | error e => rfl
  | ok a => exact hf a rfl

end Results

end Pseudocode
