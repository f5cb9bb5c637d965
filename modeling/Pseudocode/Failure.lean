import Pseudocode.Position
import Pseudocode.Number.Digits

/-!
# Failures

Everything a conversion can end with besides generated code. A failure is a cause; its
wording is in `message` and nowhere else.
-/
namespace Pseudocode

/-- Why a text has no next lexeme. -/
inductive LexFault where
  | unexpectedCharacter (c : Char)
  | unknownKeyword (word : String)
  | unterminatedString
  | malformedChar
  | unterminatedComment
  | integerOutOfRange (digits : String)
  deriving DecidableEq

/-- Why a row of tokens is no program. -/
inductive SyntaxFault where
  | unexpectedToken (expected found : String)
  | missingSemicolon (after : String)
  | noPrimaryExpression (found : String)
  | missingRelationalOperator (found : String)
  | parametersNotSupported (found : String)
  | unclosedBlock
  | trailingInput (found : String)
  | reservedName (name : String)
  | unexpectedEnd
  deriving DecidableEq

/-- A lexical fault and where its construct begins. -/
structure LexError where
  fault : LexFault
  pos : Position
  deriving DecidableEq

/-- A syntactic fault and the place it is reported at. -/
structure SyntaxError where
  fault : SyntaxFault
  pos : Position
  deriving DecidableEq

/-- The wording of a lexical fault. -/
def LexFault.message : LexFault → String
  | .unexpectedCharacter c => "Unexpected character: '" ++ String.singleton c ++ "'"
  | .unknownKeyword word => "Unknown keyword: '\\" ++ word ++ "'"
  | .unterminatedString => "Unterminated string literal"
  | .malformedChar => "Malformed character literal"
  | .unterminatedComment => "Unterminated block comment"
  | .integerOutOfRange digits => "Integer literal out of range: " ++ digits

/-- The wording of a syntactic fault. -/
def SyntaxFault.message : SyntaxFault → String
  | .unexpectedToken expected found => "Expected " ++ expected ++ ", found '" ++ found ++ "'"
  | .missingSemicolon after => "Missing ';' after '" ++ after ++ "'"
  | .noPrimaryExpression found => "Not a primary expression: '" ++ found ++ "'"
  | .missingRelationalOperator found =>
    "Expected a relational operator, found '" ++ found ++ "'"
  | .parametersNotSupported found =>
    "Function parameters are not supported, found '" ++ found ++ "'"
  | .unclosedBlock => "Block opened here is never closed"
  | .trailingInput found =>
    "Only one function is allowed per program, found '" ++ found ++ "' after it"
  | .reservedName name => "Function name '" ++ name ++ "' is reserved"
  | .unexpectedEnd => "Unexpected end of file"

/-- An invariant between the stages that does not hold. -/
inductive InternalFault where
  /-- The function returns a value of no known type. -/
  | noReturnType (function : String)
  /-- A variable without a type reached code generation. -/
  | untypedVariable (name : String)
  | noFunction
  | noEntryPoint
  /-- Any other invariant, in the words of the one who found it broken. -/
  | stated (text : String)
  deriving DecidableEq

/-- The wording of a broken invariant. -/
def InternalFault.message : InternalFault → String
  | .noReturnType function => "function '" ++ function ++ "' returns but has no return type"
  | .untypedVariable name =>
    "variable '" ++ name ++ "' reached code generation without a type"
  | .noFunction => "program has no function"
  | .noEntryPoint => "program has no entry point"
  | .stated text => text

/-- What a conversion can end with besides code. -/
inductive Failure where
  | lexical (error : LexError)
  | syntactic (error : SyntaxError)
  /-- Not a fault: the caller has to name a type for the variable and try again. -/
  | missingType (name : String)
  | internal (fault : InternalFault)
  deriving DecidableEq

namespace Failure

/-- The full message, with the kind of the failure and its line in front. -/
def message : Failure → String
  | .lexical e =>
    "LexError at line " ++ Number.naturalText e.pos.row ++ ": " ++ e.fault.message
  | .syntactic e =>
    "SyntaxError at line " ++ Number.naturalText e.pos.row ++ ": " ++ e.fault.message
  | .missingType x => "MissingType: no type known for variable '" ++ x ++ "'"
  | .internal f =>
    "Internal invariant violated: [CRITICAL ERROR] Internal Compiler Error: " ++ f.message

/-- The message without the kind and the line of a fault of the source. -/
def detail : Failure → String
  | .lexical e => e.fault.message
  | .syntactic e => e.fault.message
  | f => f.message

/-- The position a failure points at. Only faults of the source have one. -/
def position? : Failure → Option Position
  | .lexical e => some e.pos
  | .syntactic e => some e.pos
  | _ => none

/-- The line a failure points at. -/
def line? (f : Failure) : Option Nat := f.position?.map Position.row

/-- The variable that a further attempt needs a type for. -/
def missingVariable? : Failure → Option String
  | .missingType x => some x
  | _ => none

end Failure

end Pseudocode
