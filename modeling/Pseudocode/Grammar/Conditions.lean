import Pseudocode.Grammar.Expression

/-!
# Reading conditions

The grammar of conditions, one function per level:

    disjunction  ::= conjunction ('||' conjunction)*
    conjunction  ::= negation ('&&' negation)*
    negation     ::= '!' negation | '(' disjunction ')' | comparison
    comparison   ::= sum relation sum

A parenthesis at the front of a negation may open a condition or an expression. It opens a
condition if one can be read there up to a closing parenthesis behind which no operator
follows that would make the parenthesis an operand; otherwise a comparison is read from the
same place.
-/
namespace Pseudocode.Grammar

variable (finish : Position)

/-- Two expressions with a relation between them. -/
def comparison (ts : List Token) : Answer Condition ts.length := do
  let left ← expression finish ts
  match h : left.rest with
  | ⟨.rel op, _, _⟩ :: rest =>
    let right ← expression finish rest
    return (right.map (.cmp op left.value)).widen (by
      have := left.shorter
      rw [h] at this
      exact Nat.le_of_lt (Nat.lt_of_succ_lt this))
  | t :: _ => .error ⟨.missingRelationalOperator t.lexeme, t.pos⟩
  | [] => .error ⟨.unexpectedEnd, finish⟩

/-- Whether the tokens behind a closing parenthesis make the parenthesis an operand. -/
def continuesOperand : List Token → Bool
  | t :: _ => t.kind.isRelational || t.kind.isArithmetic
  | [] => false

mutual

/-- A chain of alternatives. -/
def disjunction (ts : List Token) : Answer Condition ts.length := do
  let first ← conjunction ts
  let whole ← disjunctionTail first.value first.rest
  return whole.widen first.shorter
termination_by 4 * ts.length + 3
decreasing_by
  · omega
  · have := first.shorter; omega

/-- The rest of a chain of alternatives whose front is `left`. -/
def disjunctionTail (left : Condition) (ts : List Token) : Answer Condition (ts.length + 1) :=
  match ts with
  | ⟨.logic .or, _, _⟩ :: rest => do
    let right ← conjunction rest
    let whole ← disjunctionTail (.logic .or left right.value) right.rest
    return whole.widen (by have := right.shorter; simp only [List.length_cons]; omega)
  | ts => .ok (.stay left ts)
termination_by 4 * ts.length + 3
decreasing_by
  · simp only [List.length_cons]; omega
  · have := right.shorter; simp only [List.length_cons]; omega

/-- A chain of conditions that have to hold together. -/
def conjunction (ts : List Token) : Answer Condition ts.length := do
  let first ← negation ts
  let whole ← conjunctionTail first.value first.rest
  return whole.widen first.shorter
termination_by 4 * ts.length + 2
decreasing_by
  · omega
  · have := first.shorter; omega

/-- The rest of a chain of joint conditions whose front is `left`. -/
def conjunctionTail (left : Condition) (ts : List Token) : Answer Condition (ts.length + 1) :=
  match ts with
  | ⟨.logic .and, _, _⟩ :: rest => do
    let right ← negation rest
    let whole ← conjunctionTail (.logic .and left right.value) right.rest
    return whole.widen (by have := right.shorter; simp only [List.length_cons]; omega)
  | ts => .ok (.stay left ts)
termination_by 4 * ts.length + 3
decreasing_by
  · simp only [List.length_cons]; omega
  · have := right.shorter; simp only [List.length_cons]; omega

/-- A comparison or a condition in parentheses, behind any number of negation signs. -/
def negation (ts : List Token) : Answer Condition ts.length :=
  match ts with
  | ⟨.bang, _, _⟩ :: rest => do
    let operand ← negation rest
    return (operand.map .not).widen (Nat.le_succ _)
  | ⟨.leftParen, lexeme, pos⟩ :: rest =>
    match group? rest with
    | some group => .ok (group.widen (Nat.le_succ _))
    | none => comparison finish (⟨.leftParen, lexeme, pos⟩ :: rest)
  | ts => comparison finish ts
termination_by 4 * ts.length + 1
decreasing_by
  · simp only [List.length_cons]; omega
  · simp only [List.length_cons]; omega

/-- A condition whose opening parenthesis has been read, if one stands here. -/
def group? (ts : List Token) : Option (Parsed Condition ts.length) :=
  match disjunction ts with
  | .ok inner =>
    match h : inner.rest with
    | ⟨.rightParen, _, _⟩ :: rest =>
      if continuesOperand rest then none
      else some ⟨.group inner.value, rest, by
        have := inner.shorter
        rw [h] at this
        exact Nat.lt_of_succ_lt this⟩
    | _ => none
  | .error _ => none
termination_by 4 * ts.length + 4

end

/-- A condition. -/
abbrev condition (ts : List Token) : Answer Condition ts.length := disjunction finish ts

end Pseudocode.Grammar
