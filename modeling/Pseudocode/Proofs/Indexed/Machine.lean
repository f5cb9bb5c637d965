/-!
# Programs that work on indices

A program that holds an index into its input can go wrong in two ways that a function on lists
cannot: it can look where nothing stands, and it can run for ever. Here both are possible outcomes,
so that a statement can exclude them. A look out of range stops a run at once. Every run has a
bound on the depth of its calls, where a loop counts as a call for each turn, and a run that needs
more is exhausted; a program ends if some bound is enough. A fault of the input is neither: it ends
a run in a state from which the next run can begin.
-/
namespace Pseudocode.Indexed

/-- Why a run stopped without a value. -/
inductive Halt (ε : Type) where
  /-- The input has a fault. -/
  | fault (e : ε)
  /-- The program looked at an index where nothing stands. -/
  | outOfRange
  /-- The depth of its calls went beyond the bound. -/
  | exhausted

/-- Programs that change a state and may stop without a value. What they have done to the state
until then stays. -/
abbrev Machine (ε σ : Type) := EStateM (Halt ε) σ

namespace Machine

variable {ε σ α β : Type}

/-- Stops with a fault of the input. -/
def fail (e : ε) : Machine ε σ α := throw (.fault e)

/-- What a look has found. A look that has found nothing was out of range. -/
def found : Option α → Machine ε σ α
  | some a => pure a
  | none => throw .outOfRange

/-- The value of a program, or none if the input has a fault. No other way to stop is caught. -/
def attempt (m : Machine ε σ α) : Machine ε σ (Option α) := fun s =>
  match m s with
  | .ok a s' => .ok (some a) s'
  | .error (.fault _) s' => .ok none s'
  | .error halt s' => .error halt s'

/-- The end of a run with a value or with a fault of the input. -/
def result (s : σ) : Except ε α → EStateM.Result (Halt ε) σ α
  | .ok a => .ok a s
  | .error e => .error (.fault e) s

/-- The state in which a run stops, for whatever reason. -/
def after (m : Machine ε σ α) (s : σ) : σ :=
  match m s with
  | .ok _ s' => s'
  | .error _ s' => s'

/-- The run from `s` ends in `s'` with the value or the fault `out`. In particular it is neither out
of range nor exhausted. -/
def Ends (m : Machine ε σ α) (s : σ) (out : Except ε α) (s' : σ) : Prop := m s = result s' out

section Rules
variable {m : Machine ε σ α} {f : α → Machine ε σ β} {s s' s'' : σ} {a : α} {e : ε}
  {out : Except ε α} {next : Except ε β}

theorem ends_pure (a : α) (s : σ) : Ends (pure a : Machine ε σ α) s (.ok a) s := rfl

theorem ends_fail (e : ε) (s : σ) : Ends (fail e : Machine ε σ α) s (.error e) s := rfl

theorem ends_found (a : α) (s : σ) : Ends (found (some a) : Machine ε σ α) s (.ok a) s := rfl

theorem Ends.after_eq (h : Ends m s out s') : after m s = s' := by
  rw [Ends] at h
  rw [after, h]
  cases out <;> rfl

/-- One program behind the value of another. -/
theorem Ends.bind (h : Ends m s (.ok a) s') (hf : Ends (f a) s' next s'') :
    Ends (m >>= f) s next s'' := by
  rw [Ends] at h
  show EStateM.bind m f s = _
  rw [EStateM.bind, h]
  exact hf

/-- Nothing comes behind a fault. -/
theorem Ends.bind_error (h : Ends m s (.error e) s') : Ends (m >>= f) s (.error e) s' := by
  rw [Ends] at h
  show EStateM.bind m f s = _
  rw [EStateM.bind, h]
  rfl

/-- A value that is handed on changed. -/
theorem Ends.map (h : Ends m s out s') (g : α → β) :
    Ends (do let a ← m; return g a) s (out.map g) s' := by
  cases out with
  | ok a => exact h.bind (ends_pure _ _)
  | error e => exact h.bind_error

theorem Ends.attempt_ok (h : Ends m s (.ok a) s') : Ends (attempt m) s (.ok (some a)) s' := by
  rw [Ends] at h
  rw [Ends, attempt, h]
  rfl

theorem Ends.attempt_error (h : Ends m s (.error e) s') : Ends (attempt m) s (.ok none) s' := by
  rw [Ends] at h
  rw [Ends, attempt, h]
  rfl

end Rules

end Machine

end Pseudocode.Indexed
