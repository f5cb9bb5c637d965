import Pseudocode.Token

/-!
# Program trees

The abstract form of a program: one function whose body is a list of statements. The three
statements with a body differ only in what stands in front of it, so they share one
constructor and carry a `Header`.

## Main definitions

* `Expr`, `Condition`, `Assignment`, `Header`, `Stmt`, `Function` — the trees.
* `Expr.reads`, `Condition.reads` — the names that are read, from left to right.
* `Expr.literalType?` — the type of an expression that is a literal in disguise.
-/
namespace Pseudocode

/-- An arithmetic expression. Parentheses are part of the tree. -/
inductive Expr where
  | var (name : String)
  | lit (value : Literal)
  | neg (operand : Expr)
  | group (inner : Expr)
  | bin (op : ArithOp) (left right : Expr)
  deriving DecidableEq

namespace Expr

/-- The names an expression reads, from left to right and with repetitions. -/
def reads : Expr → List String
  | .var x => [x]
  | .lit _ => []
  | .neg e => e.reads
  | .group e => e.reads
  | .bin _ l r => l.reads ++ r.reads

/-- The type of a literal, seen through negation and parentheses. -/
def literalType? : Expr → Option DataType
  | .lit value => some value.dataType
  | .neg e => e.literalType?
  | .group e => e.literalType?
  | .var _ => none
  | .bin _ _ _ => none

end Expr

/-- A condition of a branch or a loop. -/
inductive Condition where
  | cmp (op : RelOp) (left right : Expr)
  | logic (op : LogicOp) (left right : Condition)
  | not (operand : Condition)
  | group (inner : Condition)
  deriving DecidableEq

/-- The names a condition reads, from left to right and with repetitions. -/
def Condition.reads : Condition → List String
  | .cmp _ l r => l.reads ++ r.reads
  | .logic _ l r => l.reads ++ r.reads
  | .not c => c.reads
  | .group c => c.reads

/-- An assignment. `declares` says whether it also declares its target. -/
structure Assignment where
  target : String
  value : Expr
  declares : Bool := false
  pos : Position := .start
  deriving DecidableEq

/-- What stands in front of the body of a compound statement. -/
inductive Header where
  | ifThen (condition : Condition)
  | whileDo (condition : Condition)
  | forDo (init : Assignment) (condition : Condition) (update : Assignment)
  deriving DecidableEq

/-- A statement. -/
inductive Stmt where
  | assign (assignment : Assignment)
  | block (header : Header) (body : List Stmt) (pos : Position)
  | ret (value : Expr) (pos : Position)

mutual

/-- Whether a statement is or contains a return. -/
def Stmt.returns : Stmt → Bool
  | .assign _ => false
  | .block _ body _ => Stmt.anyReturns body
  | .ret _ _ => true

/-- Whether a return stands somewhere in a list of statements. -/
def Stmt.anyReturns : List Stmt → Bool
  | [] => false
  | s :: rest => s.returns || Stmt.anyReturns rest

end

/-- A function without parameters. -/
structure Function where
  name : String
  body : List Stmt
  /-- Whether the function gives back a value. -/
  returns : Bool
  /-- The variables that are declared up front, in this order. -/
  free : List String
  pos : Position

/-- A function that gives back a value exactly if a return stands in its body. -/
def Function.ofBody (name : String) (body : List Stmt) (free : List String) (pos : Position) :
    Function :=
  ⟨name, body, Stmt.anyReturns body, free, pos⟩

end Pseudocode
