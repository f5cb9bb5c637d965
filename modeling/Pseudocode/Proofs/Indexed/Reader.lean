import Pseudocode.Proofs.Indexed.Machine
import Pseudocode.Proofs.OnePass.Readers

/-!
# A reader on indices

The reader of programs that holds an index into its tokens, with nothing that keeps the index in
range and nothing that keeps a call from going on for ever. At the last token it cannot move: there
an advance leaves it where it is. It moves back when an attempt to read a condition in parentheses
is undone.

A diary is kept of where the reader has been and of the tokens that it has moved over, those of
attempts that were undone included. No program looks at it. The number `depth` bounds the depth of
the calls of one program, where every turn of a loop counts as a call.
-/
namespace Pseudocode.Indexed

open Machine OnePass

/-- The state of a reader. -/
structure Reader where
  /-- The index of the token that it looks at. -/
  idx : Nat
  names : Names
  /-- The indices at which it has been, the latest first. -/
  visited : List Nat
  /-- The tokens that it has moved over, the latest first. -/
  consumed : List Token

/-- What is recorded of a reader before an attempt. -/
structure Reader.Record where
  idx : Nat
  mentioned : Finset String
  freeCount : Nat
  expired : Finset String
  hoisted : Finset String

/-- Programs of a reader. -/
abbrev Parsing := Machine SyntaxError Reader

namespace Reader

/-- The beginning of a list of tokens. -/
def start : Reader := ⟨0, .start, [0], []⟩

section Tokens
variable (tokens : List Token)

/-- The token at the index, which has to be there. -/
def current : Parsing Token := fun r => found tokens[r.idx]? r

/-- The token before. -/
def previous : Parsing Token := fun r => found tokens[r.idx - 1]? r

/-- Moves over the token, unless it is the last one. -/
def advance : Parsing Unit := fun r =>
  let idx := if r.idx + 1 < tokens.length then r.idx + 1 else r.idx
  .ok () { r with
    idx
    visited := idx :: r.visited
    consumed := tokens[r.idx]?.toList ++ r.consumed }

/-- Changes what is known about names. -/
def change (f : Names → Names) : Parsing Unit := fun r => .ok () { r with names := f r.names }

/-- An assignment to a name, and whether it declares the name. -/
def assign (x : String) : Parsing Bool := fun r =>
  .ok (r.names.assign x).1 { r with names := (r.names.assign x).2 }

/-- What is known about names. -/
def known : Parsing Names := fun r => .ok r.names r

/-- A record of the reader. -/
def record (r : Reader) : Record :=
  ⟨r.idx, r.names.mentioned, r.names.free.length, r.names.expired, r.names.hoisted⟩

/-- Takes a record. -/
def checkpoint : Parsing Record := fun r => .ok r.record r

/-- Back to a record. -/
def restore (saved : Record) : Parsing Unit := fun r =>
  .ok () { r with
    idx := saved.idx
    names := { r.names with
      mentioned := saved.mentioned
      free := r.names.free.take saved.freeCount
      expired := saved.expired
      hoisted := saved.hoisted }
    visited := saved.idx :: r.visited }

/-- Stops because the token is not what is expected. -/
def unexpected {α : Type} (expected : String) : Parsing α := do
  let t ← current tokens
  if t.kind = .eof then fail ⟨.unexpectedEnd, t.pos⟩
  else fail ⟨.unexpectedToken expected t.lexeme, t.pos⟩

/-- A token of a given kind, which has to stand here. -/
def expect (kind : Kind) (expected : String) : Parsing Unit := do
  let t ← current tokens
  if t.kind = kind then advance tokens else unexpected tokens expected

/-- A name, which has to stand here. -/
def expectName (expected : String) : Parsing String := do
  let t ← current tokens
  match t.kind with
  | .name x =>
    advance tokens
    return x
  | _ => unexpected tokens expected

/-- A semicolon. If it is missing, the token before is reported. -/
def expectSemicolon : Parsing Unit := do
  let t ← current tokens
  if t.kind = .semicolon then advance tokens
  else
    let last ← previous tokens
    fail ⟨.missingSemicolon last.lexeme, last.pos⟩

mutual

/-- An expression. -/
def expression : (depth : Nat) → Parsing Expr
  | 0 => throw .exhausted
  | depth + 1 => do
    let first ← unary depth
    climb 0 first depth

/-- The operators behind a left operand that bind at least as tightly as `least`, with their right
operands. -/
def climb (least : Int) (left : Expr) : (depth : Nat) → Parsing Expr
  | 0 => throw .exhausted
  | depth + 1 => do
    let t ← current tokens
    if t.kind.precedence < 0 ∨ t.kind.precedence < least then return left
    else match t.kind with
      | .arith op =>
        advance tokens
        let right ← operand t.kind.precedence depth
        climb least (.bin op left right) depth
      | _ => unexpected tokens "binary operator"

/-- The right operand of an operator that binds as tightly as `bound`. -/
def operand (bound : Int) : (depth : Nat) → Parsing Expr
  | 0 => throw .exhausted
  | depth + 1 => do
    let right ← unary depth
    let t ← current tokens
    if bound < t.kind.precedence then climb (bound + 1) right depth else return right

/-- A primary expression behind any number of minus signs. -/
def unary : (depth : Nat) → Parsing Expr
  | 0 => throw .exhausted
  | depth + 1 => do
    let t ← current tokens
    if t.kind = .arith .sub then
      advance tokens
      let inner ← unary depth
      return .neg inner
    else primary depth

/-- A name, a literal, or an expression in parentheses. -/
def primary : (depth : Nat) → Parsing Expr
  | 0 => throw .exhausted
  | depth + 1 => do
    let t ← current tokens
    match t.kind with
    | .name x =>
      change (·.read x)
      advance tokens
      return .var x
    | .literal value =>
      advance tokens
      return .lit value
    | .leftParen =>
      advance tokens
      let inner ← expression depth
      expect tokens .rightParen "')'"
      return .group inner
    | .eof => unexpected tokens "expression"
    | _ => fail ⟨.noPrimaryExpression t.lexeme, t.pos⟩

end

/-- Two expressions with a relation between them. -/
def comparison (depth : Nat) : Parsing Condition := do
  let left ← expression tokens depth
  let t ← current tokens
  match t.kind with
  | .rel op =>
    advance tokens
    let right ← expression tokens depth
    return .cmp op left right
  | .eof => unexpected tokens "relational operator"
  | _ => fail ⟨.missingRelationalOperator t.lexeme, t.pos⟩

mutual

/-- A chain of alternatives. -/
def condition : (depth : Nat) → Parsing Condition
  | 0 => throw .exhausted
  | depth + 1 => do
    let first ← conjunction depth
    conditionTail first depth

/-- The rest of a chain of alternatives whose front is `left`. -/
def conditionTail (left : Condition) : (depth : Nat) → Parsing Condition
  | 0 => throw .exhausted
  | depth + 1 => do
    let t ← current tokens
    if t.kind = .logic .or then
      advance tokens
      let right ← conjunction depth
      conditionTail (.logic .or left right) depth
    else return left

/-- A chain of conditions that have to hold together. -/
def conjunction : (depth : Nat) → Parsing Condition
  | 0 => throw .exhausted
  | depth + 1 => do
    let first ← negation depth
    conjunctionTail first depth

/-- The rest of a chain of joint conditions whose front is `left`. -/
def conjunctionTail (left : Condition) : (depth : Nat) → Parsing Condition
  | 0 => throw .exhausted
  | depth + 1 => do
    let t ← current tokens
    if t.kind = .logic .and then
      advance tokens
      let right ← negation depth
      conjunctionTail (.logic .and left right) depth
    else return left

/-- A comparison or a condition in parentheses, behind any number of negation signs. -/
def negation : (depth : Nat) → Parsing Condition
  | 0 => throw .exhausted
  | depth + 1 => do
    let t ← current tokens
    match t.kind with
    | .bang =>
      advance tokens
      let inner ← negation depth
      return .not inner
    | .leftParen =>
      match ← tryGroup depth with
      | some group => return group
      | none => comparison tokens depth
    | _ => comparison tokens depth

/-- A condition in parentheses, unless the parenthesis opens an operand of a comparison. -/
def tryGroup : (depth : Nat) → Parsing (Option Condition)
  | 0 => throw .exhausted
  | depth + 1 => do
    let saved ← checkpoint
    advance tokens
    match ← attempt (condition depth) with
    | some inner =>
      let close ← current tokens
      if close.kind = .rightParen then
        advance tokens
        let behind ← current tokens
        if behind.kind.isRelational = false ∧ behind.kind.precedence < 0 then
          return some (.group inner)
        else
          restore saved
          return none
      else
        restore saved
        return none
    | none =>
      restore saved
      return none

end

/-- An assignment, at the position of its target. The value is read before the target exists. -/
def assignment (depth : Nat) : Parsing Assignment := do
  let first ← current tokens
  let target ← expectName tokens "assignment target"
  expect tokens .gets "'gets'"
  let value ← expression tokens depth
  let declares ← assign target
  return { target, value, declares, pos := first.pos }

/-- An assignment in a clause that cannot declare. -/
def update (depth : Nat) : Parsing Assignment := do
  let a ← assignment tokens depth
  if a.declares then
    change (·.withdraw a.target)
    return { a with declares := false }
  else return a

/-- A condition in parentheses. -/
def parenthesised (depth : Nat) : Parsing Condition := do
  expect tokens .leftParen "'('"
  let inner ← condition tokens depth
  expect tokens .rightParen "')'"
  return inner

/-- The three clauses of a counting loop, in parentheses. They stand in a scope of their own, which
stays open. -/
def forClauses (depth : Nat) : Parsing Header := do
  expect tokens .leftParen "'('"
  change Names.enter
  let init ← assignment tokens depth
  expectSemicolon tokens
  let test ← condition tokens depth
  expectSemicolon tokens
  let step ← update tokens depth
  expect tokens .rightParen "')'"
  return .forDo init test step

mutual

/-- A statement. -/
def statement : (depth : Nat) → Parsing Stmt
  | 0 => throw .exhausted
  | depth + 1 => do
    let first ← current tokens
    match first.kind with
    | .name _ =>
      let a ← assignment tokens depth
      expectSemicolon tokens
      return .assign a
    | .keyword .ifKw =>
      advance tokens
      let test ← parenthesised tokens depth
      let body ← block depth
      return .block (.ifThen test) body first.pos
    | .keyword .whileKw =>
      advance tokens
      let test ← parenthesised tokens depth
      let body ← block depth
      return .block (.whileDo test) body first.pos
    | .keyword .forKw =>
      advance tokens
      let clauses ← forClauses tokens depth
      let body ← block depth
      change Names.leave
      return .block clauses body first.pos
    | .keyword .returnKw =>
      advance tokens
      let value ← expression tokens depth
      expectSemicolon tokens
      return .ret value first.pos
    | _ => unexpected tokens "statement"

/-- Statements in braces, in a scope of their own. -/
def block : (depth : Nat) → Parsing (List Stmt)
  | 0 => throw .exhausted
  | depth + 1 => do
    let opening ← current tokens
    expect tokens .leftCurly "'\x7b'"
    change Names.enter
    blockTail opening.pos depth

/-- The statements up to a closing brace, and the brace, which closes the scope. -/
def blockTail (opened : Position) : (depth : Nat) → Parsing (List Stmt)
  | 0 => throw .exhausted
  | depth + 1 => do
    let t ← current tokens
    if t.kind = .rightCurly then
      advance tokens
      change Names.leave
      return []
    else if t.kind = .eof then fail ⟨.unclosedBlock, opened⟩
    else
      let first ← statement depth
      let later ← blockTail opened depth
      return first :: later

end

/-- The statements up to an end token. -/
def statements : (depth : Nat) → Parsing (List Stmt)
  | 0 => throw .exhausted
  | depth + 1 => do
    let t ← current tokens
    if t.kind = .eof then return []
    else
      let first ← statement tokens depth
      let later ← statements depth
      return first :: later

/-- A function. -/
def function (depth : Nat) : Parsing Function := do
  let first ← current tokens
  expect tokens (.keyword .fn) "'\\Fn'"
  let name ← expectName tokens "function name"
  if name = Grammar.reservedName then fail ⟨.reservedName name, first.pos⟩
  else
    expect tokens .leftParen "'('"
    let t ← current tokens
    if t.kind.name?.isSome then fail ⟨.parametersNotSupported t.lexeme, t.pos⟩
    else
      expect tokens .rightParen "')'"
      let body ← block tokens depth
      let names ← known
      return finish name body first.pos names

/-- A function that is given as bare statements. -/
def implicitFunction (depth : Nat) : Parsing Function := do
  let first ← current tokens
  let body ← statements tokens depth
  let names ← known
  return finish Grammar.implicitName body first.pos names

/-- A program. -/
def program (depth : Nat) : Parsing Function := do
  let first ← current tokens
  let f ← if first.kind = .keyword .fn then function tokens depth
    else implicitFunction tokens depth
  let last ← current tokens
  if last.kind ≠ .eof then fail ⟨.trailingInput last.lexeme, last.pos⟩
  else return f

end Tokens

end Reader

end Pseudocode.Indexed
