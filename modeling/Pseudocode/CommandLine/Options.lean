import Pseudocode.TypeMap

/-!
# Options of a run

What a run of the program can be asked for, and how a text names the type of a variable. How the
options are picked out of the arguments of the command line is not settled here.
-/
namespace Pseudocode.CommandLine

/-- What a run is asked to do. -/
structure Options where
  input : String
  /-- The file that the code goes to; the standard output if there is none. -/
  output : Option String := none
  /-- The types named on the command line; a later one for the same name counts. -/
  types : List (String × DataType) := []
  noPrompt : Bool := false
  verbose : Bool := false
  quiet : Bool := false
  timings : Bool := false

/-- Why a text does not name the type of a variable. -/
inductive HintFault where
  | noSeparator (text : String)
  | unknownType (unknown : DataType.Unknown)

/-- The wording of a fault in a hint. -/
def HintFault.message : HintFault → String
  | .noSeparator text => "expected NAME=TYPE, got '" ++ text ++ "'"
  | .unknownType unknown => unknown.message

/-- The type of a variable as it is named on the command line: a name, an equals sign, and
the name of a type. Blanks around either do not count. -/
def hintOf (text : String) : Except HintFault (String × DataType) :=
  let cs := text.toList
  match cs.dropWhile (· ≠ '=') with
  | [] => .error (.noSeparator text)
  | _ :: type =>
    match DataType.ofName (String.ofList type) with
    | .ok t => .ok (String.ofList (Text.trim (cs.takeWhile (· ≠ '='))), t)
    | .error unknown => .error (.unknownType unknown)

end Pseudocode.CommandLine
