import Pseudocode.Proofs.OnePass.Readers

/-!
# A failed attempt leaves no trace

Going back to a checkpoint gives the state of that time only if nothing happened in between that
the checkpoint cannot undo. It can undo what was added behind the names to declare up front, but no
change among them, and no change of the open scopes at all. The readers of expressions and
conditions keep to that, whether they come to a value or to an error: they leave the open scopes
alone, and of the names to declare up front they only add some at the end.
-/
namespace Pseudocode.OnePass

variable {tape : Tape}

/-- From `s` to `s'` the open scopes stay as they are, and names to declare up front are only added
at the end. -/
structure Extends (s s' : State tape) : Prop where
  scopes : s'.names.scopes = s.names.scopes
  free : s.names.free <+: s'.names.free

namespace Extends

variable {s s' s'' : State tape}

theorem refl (s : State tape) : Extends s s := ⟨rfl, List.prefix_refl _⟩

theorem trans (h : Extends s s') (h' : Extends s' s'') : Extends s s'' :=
  ⟨h'.scopes.trans h.scopes, h.free.trans h'.free⟩

theorem advance (s : State tape) : Extends s s.advance :=
  ⟨by rw [State.names_advance], by rw [State.names_advance]⟩

theorem read (s : State tape) (x : String) : Extends s (s.withNames (s.names.read x)) := by
  constructor
  · simp only [State.withNames, Names.read, Names.reuse, Names.hoist]
    split
    · split <;> rfl
    · rfl
  · simp only [State.withNames, Names.read, Names.reuse, Names.hoist]
    split
    · split
      · exact List.prefix_append _ _
      · exact List.prefix_refl _
    · exact List.prefix_append _ _

end Extends

/-- **Back to a checkpoint is back to the state**, from every state that extends it. -/
theorem restore_checkpoint {s s' : State tape} (h : Extends s s') :
    s'.restore s.checkpoint = s := by
  have hfree : s'.names.free.take s.names.free.length = s.names.free :=
    List.prefix_iff_eq_take.1 h.free |>.symm
  simp only [State.restore, State.checkpoint, hfree, h.scopes]

/-- Whichever way it ends, the outcome extends the state. -/
def Keeps {α : Type} {n : Nat} (s : State tape) : Outcome tape α n → Prop
  | .ok p => Extends s p.state
  | .error stuck => Extends s stuck.state

section Keeps
variable {α β : Type} {n m : Nat} {s s' : State tape}

theorem keeps_fail (s : State tape) (e : SyntaxError) :
    Keeps s (s.fail e : Outcome tape α n) :=
  .refl s

theorem keeps_single (value : α) (s : State tape) (h : s.kind ≠ .eof) :
    Keeps s (.ok (.single value s h)) :=
  .advance s

/-- What is kept from a later state is kept from an earlier one. -/
theorem Keeps.after {o : Outcome tape α n} (h : Keeps s' o) (hs : Extends s s') : Keeps s o := by
  cases o with
  | error stuck => exact hs.trans h
  | ok p => exact hs.trans h

/-- Two readers in a row keep what both of them keep. -/
theorem Keeps.bind {o : Outcome tape α n} {f : Moved tape α n → Outcome tape β m}
    (h : Keeps s o) (hf : ∀ p, Keeps p.state (f p)) : Keeps s (o >>= f) := by
  cases o with
  | error stuck => exact h
  | ok p => exact (hf p).after h

/-- A result that is handed on in its state. -/
theorem Keeps.map {o : Outcome tape α n} {f : Moved tape α n → Moved tape β m}
    (h : Keeps s o) (hf : ∀ p, (f p).state = p.state) : Keeps s (o >>= fun p => pure (f p)) :=
  h.bind fun p => by
    show Extends p.state (f p).state
    rw [hf]
    exact .refl _

end Keeps

/-- An expected token changes nothing but the place. -/
theorem expect_keeps (kind : Kind) (expected : String) (s : State tape) (hkind : kind ≠ .eof) :
    Keeps s (expect kind expected s hkind) := by
  unfold expect
  split
  · exact keeps_single _ _ _
  · exact keeps_fail _ _

/-! The recursion is that of the readers, with the same measures. -/

mutual

/-- An expression adds its reads, whichever way it ends. -/
theorem expression_keeps (s : State tape) : Keeps s (expression s) := by
  rw [expression]
  refine (unary_keeps s).bind fun first => ?_
  have := first.nearer
  exact (climb_keeps 0 first.value first.state).map fun _ => rfl
termination_by 4 * s.left + 2
decreasing_by all_goals omega

theorem climb_keeps (least : Int) (left : Expr) (s : State tape) :
    Keeps s (climb least left s) := by
  rw [climb]
  split
  · exact .refl s
  · split
    · next op h =>
      have hlt := State.left_advance_lt (s := s) (by simp [h])
      refine (Keeps.bind (operand_keeps _ s.advance) fun right => ?_).after (.advance s)
      have := right.nearer
      exact (climb_keeps least _ right.state).map fun _ => rfl
    · exact keeps_fail _ _
termination_by 4 * s.left + 3
decreasing_by all_goals omega

theorem operand_keeps (bound : Int) (s : State tape) : Keeps s (operand bound s) := by
  rw [operand]
  refine (unary_keeps s).bind fun right => ?_
  have := right.nearer
  split
  · exact (climb_keeps _ right.value right.state).map fun _ => rfl
  · exact .refl _
termination_by 4 * s.left + 2
decreasing_by all_goals omega

theorem unary_keeps (s : State tape) : Keeps s (unary s) := by
  rw [unary]
  split
  · next h =>
    have := State.left_advance_lt (s := s) (by simp [h])
    refine Keeps.after ?_ (.advance s)
    exact (unary_keeps s.advance).map fun _ => rfl
  · exact primary_keeps s
termination_by 4 * s.left + 1
decreasing_by all_goals omega

theorem primary_keeps (s : State tape) : Keeps s (primary s) := by
  rw [primary]
  split
  · next x h => exact (Extends.read s x).trans (.advance _)
  · exact keeps_single _ _ _
  · next h =>
    have := State.left_advance_lt (s := s) (by simp [h])
    refine (Keeps.bind (expression_keeps s.advance) fun inner => ?_).after (.advance s)
    exact (expect_keeps _ _ inner.state _).map fun _ => rfl
  · exact keeps_fail _ _
  · exact keeps_fail _ _
termination_by 4 * s.left
decreasing_by all_goals omega

end

theorem comparison_keeps (s : State tape) : Keeps s (comparison s) := by
  rw [comparison]
  refine (expression_keeps s).bind fun left => ?_
  split
  · refine Keeps.after ?_ (.advance left.state)
    exact (expression_keeps left.state.advance).map fun _ => rfl
  · exact keeps_fail _ _
  · exact keeps_fail _ _

/-- A found value extends the state, and an undone attempt is the state. -/
def Attempt.Keeps {α : Type} {s : State tape} : Attempt s α → Prop
  | .found moved => Extends s moved.state
  | .undone back _ => back = s

mutual

/-- A condition adds its reads, whichever way it ends. -/
theorem condition_keeps (s : State tape) : Keeps s (condition s) := by
  rw [condition]
  refine (conjunction_keeps s).bind fun first => ?_
  have := first.nearer
  exact (conditionTail_keeps first.value first.state).map fun _ => rfl
termination_by 4 * s.left + 3
decreasing_by all_goals omega

theorem conditionTail_keeps (left : Condition) (s : State tape) :
    Keeps s (conditionTail left s) := by
  rw [conditionTail]
  split
  · next h =>
    have := State.left_advance_lt (s := s) (by simp [h])
    refine (Keeps.bind (conjunction_keeps s.advance) fun right => ?_).after (.advance s)
    have := right.nearer
    exact (conditionTail_keeps _ right.state).map fun _ => rfl
  · exact .refl s
termination_by 4 * s.left + 3
decreasing_by all_goals omega

theorem conjunction_keeps (s : State tape) : Keeps s (conjunction s) := by
  rw [conjunction]
  refine (negation_keeps s).bind fun first => ?_
  have := first.nearer
  exact (conjunctionTail_keeps first.value first.state).map fun _ => rfl
termination_by 4 * s.left + 2
decreasing_by all_goals omega

theorem conjunctionTail_keeps (left : Condition) (s : State tape) :
    Keeps s (conjunctionTail left s) := by
  rw [conjunctionTail]
  split
  · next h =>
    have := State.left_advance_lt (s := s) (by simp [h])
    refine (Keeps.bind (negation_keeps s.advance) fun right => ?_).after (.advance s)
    have := right.nearer
    exact (conjunctionTail_keeps _ right.state).map fun _ => rfl
  · exact .refl s
termination_by 4 * s.left + 3
decreasing_by all_goals omega

theorem negation_keeps (s : State tape) : Keeps s (negation s) := by
  rw [negation]
  split
  · next h =>
    have := State.left_advance_lt (s := s) (by simp [h])
    refine Keeps.after ?_ (.advance s)
    exact (negation_keeps s.advance).map fun _ => rfl
  · next h =>
    have hgroup := tryGroup_keeps s h
    split
    · next group heq =>
      rw [heq] at hgroup
      exact hgroup
    · next back place heq =>
      rw [heq] at hgroup
      obtain rfl : back = s := hgroup
      exact (comparison_keeps back).map fun _ => rfl
  · exact comparison_keeps s
termination_by 4 * s.left + 1
decreasing_by all_goals omega

/-- **A failed attempt leaves no trace**: its checkpoint undoes all that the attempt did, nested
attempts included. -/
theorem tryGroup_keeps (s : State tape) (h : s.kind = .leftParen) : (tryGroup s h).Keeps := by
  have := State.left_advance_lt (s := s) (by simp [h])
  have hinside := (condition_keeps s.advance).after (.advance s)
  rw [tryGroup]
  dsimp only
  split
  · next inner heq =>
    rw [heq] at hinside
    have hinner : Extends s inner.state := hinside
    have hbehind := hinner.trans (.advance inner.state)
    split
    · split
      · exact hbehind
      · -- an operator behind the closing parenthesis
        exact restore_checkpoint hbehind
    · -- no closing parenthesis
      exact restore_checkpoint hinner
  · -- no condition: the state where the error was found extends the first one too
    next stuck heq =>
    rw [heq] at hinside
    exact restore_checkpoint hinside
termination_by 4 * s.left
decreasing_by all_goals omega

end

/-- An attempt that is undone is undone to the state it started from. -/
theorem tryGroup_eq_undone {s : State tape} {h : s.kind = .leftParen}
    (hundone : ∃ back place, tryGroup s h = .undone back place) :
    tryGroup s h = .undone s rfl := by
  obtain ⟨back, place, hundone⟩ := hundone
  have hkeeps := tryGroup_keeps s h
  rw [hundone] at hkeeps
  obtain rfl : back = s := hkeeps
  exact hundone

end Pseudocode.OnePass
