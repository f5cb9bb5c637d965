import Pseudocode.Failure
import Pseudocode.Text.Control
import Pseudocode.Text.Lines

/-!
# Failures on a terminal

A failure is shown in red. If it points into the source, the line follows, and below it a
caret under the column. The row number is padded to four places, which is also the width of
the blank gutter in front of the caret. How a text is coloured is left open: a report is made
with any way of painting, of which the control sequences of a terminal are one.
-/
namespace Pseudocode

open Text (Colour)

namespace Report

/-- The offending line behind its number. -/
def sourceLine (row : Nat) (line : List Char) : List Char :=
  Text.padLeft 4 (Number.digits row) ++ [' ', '|', ' '] ++ line

/-- The caret under a column, counted from one. -/
def caretLine (paint : Colour → List Char → List Char) (col : Nat) : List Char :=
  Text.spaces 5 ++ ['|', ' '] ++ Text.spaces (col - 1) ++ paint .boldRed ['^']

/-- The excerpt of the source that a position points into; nothing if there is no such line. -/
def excerpt (paint : Colour → List Char → List Char) (source : String) (pos : Position) :
    List Char :=
  match (Text.lines source.toList)[pos.row - 1]? with
  | some line => '\n' :: sourceLine pos.row line ++ '\n' :: caretLine paint pos.col
  | none => []

end Report

/-- A failure with an excerpt of the source it is about, painted in a given way. -/
def Failure.reportWith (paint : Colour → List Char → List Char) (f : Failure) (source : String) :
    String :=
  String.ofList (paint .red f.message.toList ++
    (f.position?.map (Report.excerpt paint source)).getD [])

/-- A failure as it is shown on a terminal. -/
def Failure.report (f : Failure) (source : String) : String := f.reportWith Colour.paint source

end Pseudocode
