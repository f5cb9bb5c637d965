import Pseudocode.Text.Lines

/-!
# Lines of generated code

Generated code is a list of lines, each with the depth at which it is indented. Only here
does a depth become blanks.
-/
namespace Pseudocode.Target

/-- A line of code and its nesting depth. -/
structure Line where
  depth : Nat
  text : String
  deriving DecidableEq

/-- The number of blanks per level of nesting. -/
def indentWidth : Nat := 4

/-- A line as text, with its ending. -/
def Line.render (line : Line) : String :=
  String.ofList (Text.spaces (indentWidth * line.depth)) ++ line.text ++ "\n"

/-- Lines as text. -/
def render : List Line → String
  | [] => ""
  | line :: rest => line.render ++ render rest

/-- Lines can be rendered in parts. -/
@[simp] theorem render_append (xs ys : List Line) : render (xs ++ ys) = render xs ++ render ys := by
  induction xs with
  | nil => simp [render]
  | cons x xs ih => rw [List.cons_append, render, render, ih, String.append_assoc]

/-- Lines in braces: the header with the opening brace, the body, and the closing brace. -/
def braced (depth : Nat) (header : String) (body : List Line) : List Line :=
  ⟨depth, header ++ " \x7b"⟩ :: body ++ [⟨depth, "\x7d"⟩]

end Pseudocode.Target
