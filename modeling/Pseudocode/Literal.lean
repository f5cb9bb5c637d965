import Pseudocode.DataType
import Pseudocode.Number.Shortest

/-!
# Literals

The values that can be written down in a program. The inside of a string or character
literal is kept as it was written, escapes included.
-/
namespace Pseudocode

open Number

/-- A literal value. -/
inductive Literal where
  | int (value : Int)
  | float (value : Binary64)
  | str (inside : String)
  | char (inside : String)
  | bool (value : Bool)
  deriving DecidableEq

namespace Literal

/-- Floats are written without an exponent from 0.0001 up to below 10¹⁶. -/
def floatStyle : Style := ⟨-3, 16⟩

/-- The text of a floating-point value. -/
def floatText (x : Binary64) : String := x.text floatStyle

example : (Binary64.ofText? "1e16").map floatText = some "1e16" := by decide +kernel

example : (Binary64.ofText? "0.00009999").map floatText = some "9.999e-5" := by decide +kernel

example : (Binary64.ofText? "-0").map floatText = some "-0.0" := by decide +kernel

/-- The text of a truth value. -/
def boolText (b : Bool) : String := if b then "true" else "false"

/-- The literal as program text. -/
def text : Literal → String
  | .int n => integerText n
  | .float x => floatText x
  | .str s => "\"" ++ s ++ "\""
  | .char s => "'" ++ s ++ "'"
  | .bool b => boolText b

/-- The type of a literal. Truth values count as integers. -/
def dataType : Literal → DataType
  | .int _ | .bool _ => .int
  | .float _ => .float
  | .str _ => .string
  | .char _ => .char

end Literal

end Pseudocode
