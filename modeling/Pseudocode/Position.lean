/-!
# Positions in a text

A position is a row and a column, both counted from one and in characters. Reading a
newline starts the next row; every other character moves one column to the right, so the
position behind a text is determined by the characters of the text alone.
-/
namespace Pseudocode

/-- A place in a text. The first character stands at row one, column one. -/
structure Position where
  row : Nat := 1
  col : Nat := 1
  deriving DecidableEq

namespace Position

/-- The place where a text begins. -/
def start : Position := {}

/-- The position behind one more character. -/
def step (p : Position) (c : Char) : Position :=
  if c = '\n' then ⟨p.row + 1, 1⟩ else ⟨p.row, p.col + 1⟩

/-- The position behind a piece of text that begins at `p`. -/
def after (p : Position) (text : List Char) : Position := text.foldl step p

@[simp] theorem after_nil (p : Position) : p.after [] = p := rfl

@[simp] theorem after_cons (p : Position) (c : Char) (cs : List Char) :
    p.after (c :: cs) = (p.step c).after cs := rfl

/-- Moving over two texts is moving over one and then over the other. -/
@[simp] theorem after_append (p : Position) (xs ys : List Char) :
    p.after (xs ++ ys) = (p.after xs).after ys := by
  simp [after, List.foldl_append]

end Position

end Pseudocode
