/-!
# Operators

The operators of expressions and conditions, with the symbols that stand for them both in
the source and in the generated code.
-/
namespace Pseudocode

/-- The arithmetic operators. -/
inductive ArithOp where
  | add
  | sub
  | mul
  | div
  | mod
  deriving DecidableEq

/-- The comparisons. -/
inductive RelOp where
  | less
  | greater
  | lessEqual
  | greaterEqual
  | equal
  | notEqual
  deriving DecidableEq

/-- The connectives that join two conditions. -/
inductive LogicOp where
  | and
  | or
  deriving DecidableEq

namespace ArithOp

/-- The symbol of an arithmetic operator. -/
def symbol : ArithOp → String
  | .add => "+"
  | .sub => "-"
  | .mul => "*"
  | .div => "/"
  | .mod => "%"

/-- How tightly an operator binds: multiplication, division and remainder bind before
addition and subtraction. -/
def precedence : ArithOp → Nat
  | .add | .sub => 20
  | .mul | .div | .mod => 40

end ArithOp

/-- The symbol of a comparison. -/
def RelOp.symbol : RelOp → String
  | .less => "<"
  | .greater => ">"
  | .lessEqual => "<="
  | .greaterEqual => ">="
  | .equal => "=="
  | .notEqual => "!="

/-- The symbol of a connective. -/
def LogicOp.symbol : LogicOp → String
  | .and => "&&"
  | .or => "||"

end Pseudocode
