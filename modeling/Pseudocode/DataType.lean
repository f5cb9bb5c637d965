import Pseudocode.Text.Blank

/-!
# Data types

The types a variable can have, their names, and the type of an arithmetic operation in terms
of the types of its operands.
-/
namespace Pseudocode

/-- The type of a variable or of a returned value. -/
inductive DataType where
  | int
  | float
  | string
  | char
  | long
  | array
  | vector
  deriving DecidableEq

namespace DataType

/-- Every type, in the order in which types are offered to a user. -/
def all : List DataType := [.int, .float, .string, .char, .long, .array, .vector]

/-- The name by which callers refer to a type. -/
def name : DataType → String
  | .int => "int"
  | .float => "float"
  | .string => "string"
  | .char => "char"
  | .long => "long"
  | .array => "array"
  | .vector => "vector"

/-- The names of all types, separated by commas. -/
def choices : String := ", ".intercalate (all.map name)

/-- The place of a type in `all`. -/
def index (t : DataType) : Nat := all.idxOf t

/-- Whether a value of this type can be written to an output stream as it is. -/
def isPrintable : DataType → Bool
  | .array | .vector => false
  | _ => true

/-- The type of an arithmetic operation: a string wins, then a float, then a long; integers
and characters give an integer; otherwise the left operand decides. -/
def join (s t : DataType) : DataType :=
  if s = t then s
  else if s = .string ∨ t = .string then .string
  else if s = .float ∨ t = .float then .float
  else if s = .long ∨ t = .long then .long
  else match s, t with
    | .int, .char | .char, .int => .int
    | _, _ => s

/-- A name that denotes no type, without the blanks around it. -/
structure Unknown where
  name : String
  deriving DecidableEq

/-- What is said about an unknown name. -/
def Unknown.message (u : Unknown) : String :=
  "Unknown type '" ++ u.name ++ "', expected one of: " ++ choices

/-- The type with a given name. Blanks around the name do not count. -/
def ofName (text : String) : Except Unknown DataType :=
  let key := Text.trimmed text
  match all.find? (·.name = key) with
  | some t => .ok t
  | none => .error ⟨key⟩

end DataType

end Pseudocode
