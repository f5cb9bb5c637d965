import Pseudocode.Failure
import Pseudocode.Target.Line
import Pseudocode.Tree
import Pseudocode.TypeMap

/-!
# Code of a function

The text of expressions, conditions, statements and functions in the target language, C++.
Every name that is mentioned has to have a type, also where the text does not show it; the
first one without a type, in evaluation order, is reported.
-/
namespace Pseudocode

open Target

/-- The name of a type in the target language. Arrays are vectors of integers. -/
def DataType.spelling : DataType → String
  | .int => "int"
  | .float => "float"
  | .string => "string"
  | .char => "char"
  | .long => "long"
  | .array => "vector<int>"
  | .vector => "vector<int>"

/-- The type of what a function gives back; nothing is `void`. -/
def Target.returnSpelling (t : Option DataType) : String := (t.map DataType.spelling).getD "void"

/-- The type of a variable that reached code generation. -/
def TypeMap.demand (types : TypeMap) (x : String) : Except InternalFault DataType :=
  match types.get? x with
  | some t => .ok t
  | none => .error (.untypedVariable x)

/-- Puts a text in parentheses. -/
def Target.parens (text : String) : String := "(" ++ text ++ ")"

namespace Expr

/-- The text of the operand of a minus sign. A negation keeps parentheses, because two minus
signs in a row are another operator. -/
def negatedText (e : Expr) (text : String) : String :=
  match e with
  | .neg _ => parens text
  | _ => text

/-- The text of an operand of an arithmetic operator. A string literal is not yet a string
there and has to be made one. -/
def operandText (e : Expr) (text : String) : String :=
  match e with
  | .lit (.str _) => "string" ++ parens text
  | _ => text

/-- The text of an expression. -/
def code (types : TypeMap) : Expr → Except InternalFault String
  | .var x => do
    let _ ← types.demand x
    return x
  | .lit value => return value.text
  | .neg e => do
    let text ← e.code types
    return "-" ++ e.negatedText text
  | .group e => do
    let text ← e.code types
    return parens text
  | .bin op l r => do
    let left ← l.code types
    let right ← r.code types
    return l.operandText left ++ " " ++ op.symbol ++ " " ++ r.operandText right

end Expr

namespace Condition

/-- The text of the operand of a negation sign, which binds more tightly than any comparison. -/
def negatedText (c : Condition) (text : String) : String :=
  match c with
  | .group _ => text
  | .not _ => text
  | _ => parens text

/-- The text of a condition. -/
def code (types : TypeMap) : Condition → Except InternalFault String
  | .cmp op l r => do
    let left ← l.code types
    let right ← r.code types
    return left ++ " " ++ op.symbol ++ " " ++ right
  | .logic op l r => do
    let left ← l.code types
    let right ← r.code types
    return left ++ " " ++ op.symbol ++ " " ++ right
  | .not c => do
    let text ← c.code types
    return "!" ++ c.negatedText text
  | .group c => do
    let text ← c.code types
    return parens text

end Condition

/-- The text of an assignment, with the type in front if it declares its target. -/
def Assignment.code (types : TypeMap) (a : Assignment) : Except InternalFault String := do
  let value ← a.value.code types
  let type ← types.demand a.target
  let declaration := if a.declares then type.spelling ++ " " else ""
  return declaration ++ a.target ++ " = " ++ value

/-- The text of a header. The update of a counting loop never declares. -/
def Header.code (types : TypeMap) : Header → Except InternalFault String
  | .ifThen c => do
    let test ← c.code types
    return "if " ++ parens test
  | .whileDo c => do
    let test ← c.code types
    return "while " ++ parens test
  | .forDo init c update => do
    let first ← init.code types
    let test ← c.code types
    let next ← { update with declares := false : Assignment }.code types
    return "for " ++ parens (first ++ "; " ++ test ++ "; " ++ next)

mutual

/-- The lines of a statement at a depth. -/
def Stmt.code (types : TypeMap) (depth : Nat) : Stmt → Except InternalFault (List Line)
  | .assign a => do
    let text ← a.code types
    return [⟨depth, text ++ ";"⟩]
  | .block header body _ => do
    let text ← header.code types
    let lines ← Stmt.allCode types (depth + 1) body
    return braced depth text lines
  | .ret value _ => do
    let text ← value.code types
    return [⟨depth, "return " ++ text ++ ";"⟩]

/-- The lines of a list of statements at a depth. -/
def Stmt.allCode (types : TypeMap) (depth : Nat) : List Stmt → Except InternalFault (List Line)
  | [] => return []
  | s :: rest => do
    let first ← s.code types depth
    let later ← Stmt.allCode types depth rest
    return first ++ later

end

namespace Function

/-- The declarations of variables up front, each with the default value of its type. -/
def declarations (types : TypeMap) : List String → Except InternalFault (List Line)
  | [] => return []
  | x :: rest => do
    let type ← types.demand x
    let later ← declarations types rest
    return ⟨1, type.spelling ++ " " ++ x ++ "\x7b\x7d;"⟩ :: later

/-- The lines of a function. -/
def code (types : TypeMap) (returnType : Option DataType) (f : Function) :
    Except InternalFault (List Line) := do
  let front ← declarations types f.free
  let body ← Stmt.allCode types 1 f.body
  return braced 0 (returnSpelling returnType ++ " " ++ f.name ++ "()") (front ++ body)

end Function

end Pseudocode
