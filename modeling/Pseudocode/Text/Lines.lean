/-!
# Lines of a text

A line ends at a newline, and a carriage return right before the newline belongs to the
line ending. The text after the last newline is a line only if it is not empty, and there a
final carriage return is an ordinary character.
-/
namespace Pseudocode.Text

/-- The lines of a text, without their endings. -/
def lines : List Char → List (List Char)
  | [] => []
  | '\n' :: rest => [] :: lines rest
  | '\r' :: '\n' :: rest => [] :: lines rest
  | c :: rest =>
    match lines rest with
    | [] => [[c]]
    | line :: later => (c :: line) :: later

/-- A row of `n` blanks. -/
def spaces (n : Nat) : List Char := List.replicate n ' '

/-- Pads on the left to a width; a longer text stays as it is. -/
def padLeft (width : Nat) (text : List Char) : List Char :=
  spaces (width - text.length) ++ text

/-- Pads on both sides to a width. An odd blank goes to the right. -/
def centre (width : Nat) (text : List Char) : List Char :=
  let missing := width - text.length
  spaces (missing / 2) ++ text ++ spaces (missing - missing / 2)

@[simp] theorem length_spaces (n : Nat) : (spaces n).length = n := by simp [spaces]

/-- A padded text is as long as the width asks for, or as it was. -/
theorem length_padLeft (width : Nat) (text : List Char) :
    (padLeft width text).length = max width text.length := by
  rw [padLeft, List.length_append, length_spaces]
  omega

end Pseudocode.Text
