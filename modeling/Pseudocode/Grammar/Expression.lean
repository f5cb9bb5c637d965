import Pseudocode.Grammar.Basic

/-!
# Reading expressions

The grammar of expressions, one function per level:

    sum      ::= product (('+' | '-') product)*
    product  ::= unary (('*' | '/' | '%') unary)*
    unary    ::= '-' unary | primary
    primary  ::= name | literal | '(' sum ')'

Chains of operators on one level group to the left.
-/
namespace Pseudocode.Grammar

variable (finish : Position)

mutual

/-- A chain of additions and subtractions. -/
def sum (ts : List Token) : Answer Expr ts.length := do
  let first ← product ts
  let whole ← sumTail first.value first.rest
  return whole.widen first.shorter
termination_by 4 * ts.length + 3
decreasing_by
  · omega
  · have := first.shorter; omega

/-- The rest of a chain of additions and subtractions whose front is `left`. -/
def sumTail (left : Expr) (ts : List Token) : Answer Expr (ts.length + 1) :=
  match ts with
  | ⟨.arith op, lexeme, pos⟩ :: rest =>
    if op.precedence = ArithOp.add.precedence then do
      let right ← product rest
      let whole ← sumTail (.bin op left right.value) right.rest
      return whole.widen (by have := right.shorter; simp only [List.length_cons]; omega)
    else .ok (.stay left (⟨.arith op, lexeme, pos⟩ :: rest))
  | ts => .ok (.stay left ts)
termination_by 4 * ts.length + 3
decreasing_by
  · simp only [List.length_cons]; omega
  · have := right.shorter; simp only [List.length_cons]; omega

/-- A chain of multiplications, divisions and remainders. -/
def product (ts : List Token) : Answer Expr ts.length := do
  let first ← unary ts
  let whole ← productTail first.value first.rest
  return whole.widen first.shorter
termination_by 4 * ts.length + 2
decreasing_by
  · omega
  · have := first.shorter; omega

/-- The rest of a chain of multiplications whose front is `left`. -/
def productTail (left : Expr) (ts : List Token) : Answer Expr (ts.length + 1) :=
  match ts with
  | ⟨.arith op, lexeme, pos⟩ :: rest =>
    if op.precedence = ArithOp.mul.precedence then do
      let right ← unary rest
      let whole ← productTail (.bin op left right.value) right.rest
      return whole.widen (by have := right.shorter; simp only [List.length_cons]; omega)
    else .ok (.stay left (⟨.arith op, lexeme, pos⟩ :: rest))
  | ts => .ok (.stay left ts)
termination_by 4 * ts.length + 3
decreasing_by
  · simp only [List.length_cons]; omega
  · have := right.shorter; simp only [List.length_cons]; omega

/-- A primary expression behind any number of minus signs. -/
def unary (ts : List Token) : Answer Expr ts.length :=
  match ts with
  | ⟨.arith .sub, _, _⟩ :: rest => do
    let operand ← unary rest
    return (operand.map .neg).widen (Nat.le_succ _)
  | ts => primary ts
termination_by 4 * ts.length + 1
decreasing_by
  · simp only [List.length_cons]; omega
  · omega

/-- A name, a literal, or an expression in parentheses. -/
def primary (ts : List Token) : Answer Expr ts.length :=
  match ts with
  | ⟨.name x, lexeme, pos⟩ :: rest => .ok (.single (.var x) ⟨.name x, lexeme, pos⟩ rest)
  | ⟨.literal value, lexeme, pos⟩ :: rest =>
    .ok (.single (.lit value) ⟨.literal value, lexeme, pos⟩ rest)
  | ⟨.leftParen, _, _⟩ :: rest => do
    let inner ← sum rest
    let close ← expect finish .rightParen "')'" inner.rest
    return ⟨.group inner.value, close.rest,
      by have := inner.shorter; have := close.shorter; simp only [List.length_cons]; omega⟩
  | t :: _ => .error ⟨.noPrimaryExpression t.lexeme, t.pos⟩
  | [] => .error ⟨.unexpectedEnd, finish⟩
termination_by 4 * ts.length
decreasing_by simp only [List.length_cons]; omega

end

/-- An expression. -/
abbrev expression (ts : List Token) : Answer Expr ts.length := sum finish ts

end Pseudocode.Grammar
