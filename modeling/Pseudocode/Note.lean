import Pseudocode.Target.Code
import Pseudocode.Token

/-!
# Notes

What the stages of a conversion tell a user about their progress. Details are for a user who
asked to see everything.
-/
namespace Pseudocode

/-- An event of a conversion that can be shown to a user. -/
inductive Note where
  | skippedComment (text : String) (pos : Position)
  | readToken (kind : Kind) (pos : Position)
  | producedTokens (count : Nat)
  | parsedFunction (name : String) (statements : Nat)
  | startedResolution
  | boundVariable (name : String) (type : DataType) (pos : Position)
  | resolvedVariables (count : Nat)
  | generatedFunction (name : String) (returnType : Option DataType)
  | retrying (name : String) (type : DataType)
  | wroteFile (path : String)

namespace Note

/-- Whether a note is a detail. -/
def isDetail : Note → Bool
  | .skippedComment _ _ => true
  | .readToken _ _ => true
  | .boundVariable _ _ _ => true
  | _ => false

/-- A place as it is shown in a note. -/
def place (pos : Position) : String :=
  " at:(" ++ Number.naturalText pos.row ++ ":" ++ Number.naturalText pos.col ++ ")"

/-- The wording of a note. -/
def message : Note → String
  | .skippedComment text pos => "[Lexer] Skipped comment: " ++ text ++ place pos
  | .readToken kind pos => "[Lexer] Parsed token: " ++ kind.describe ++ place pos
  | .producedTokens count => "[Lexer] Produced " ++ Number.naturalText count ++ " tokens"
  | .parsedFunction name statements =>
    "[Parser] Parsed function '" ++ name ++ "' with " ++ Number.naturalText statements ++
      " top-level statements"
  | .startedResolution => "[Type Checker] Starting Type Resolution Process"
  | .boundVariable name type pos =>
    "[Type Checker] '" ++ name ++ "' is " ++ type.name ++ place pos
  | .resolvedVariables count =>
    "[Type Checker] Resolved " ++ Number.naturalText count ++ " variables"
  | .generatedFunction name returnType =>
    "[Compiler] Generated function '" ++ name ++ "' returning " ++
      Target.returnSpelling returnType
  | .retrying name type => "[Main] Retrying with '" ++ name ++ "' as " ++ type.name
  | .wroteFile path => "[Main] Wrote " ++ path

end Note

end Pseudocode
