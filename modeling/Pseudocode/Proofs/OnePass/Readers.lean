import Pseudocode.Proofs.OnePass.State

/-!
# Reading a program in one pass

The readers that work on a state. Expressions are read by precedence climbing: behind an operand,
operators are taken as long as they bind tightly enough, and a tighter operator behind the right
operand claims that operand first. A parenthesis at the front of a condition is tried as a group:
the reader sets a checkpoint, reads a condition, and goes back if that fails or if what follows the
closing parenthesis makes it an operand.
-/
namespace Pseudocode.OnePass

variable {tape : Tape}

/-- A token of a given kind, which has to stand here. -/
def expect (kind : Kind) (expected : String) (s : State tape) (hkind : kind ≠ .eof := by decide) :
    Outcome tape Unit s.left :=
  if h : s.kind = kind then .ok (.single () s (h ▸ hkind)) else s.fail (s.unexpected expected)

/-- A name, which has to stand here. -/
def expectName (expected : String) (s : State tape) : Outcome tape String s.left :=
  match h : s.kind with
  | .name x => .ok (.single x s (by simp [h]))
  | _ => s.fail (s.unexpected expected)

/-- A semicolon. If it is missing, the token before is reported. -/
def expectSemicolon (s : State tape) : Outcome tape Unit s.left :=
  if h : s.kind = .semicolon then .ok (.single () s (by simp [h]))
  else s.fail ⟨.missingSemicolon s.previous.lexeme, s.previous.pos⟩

mutual

/-- An expression. -/
def expression (s : State tape) : Outcome tape Expr s.left := do
  let first ← unary s
  let whole ← climb 0 first.value first.state
  return whole.widen first.nearer
termination_by 4 * s.left + 2
decreasing_by
  · omega
  · have := first.nearer; omega

/-- The operators behind a left operand that bind at least as tightly as `least`, with their right
operands. -/
def climb (least : Int) (left : Expr) (s : State tape) : Outcome tape Expr (s.left + 1) :=
  if s.kind.precedence < 0 ∨ s.kind.precedence < least then .ok (.stay left s)
  else
    match h : s.kind with
    | .arith op => do
      let right ← operand s.kind.precedence s.advance
      let whole ← climb least (.bin op left right.value) right.state
      return whole.widen (by
        have := right.nearer
        have := State.left_advance_lt (s := s) (by simp [h])
        omega)
    | _ => s.fail (s.unexpected "binary operator")
termination_by 4 * s.left + 3
decreasing_by
  all_goals have := State.left_advance_lt (s := s) (by simp [h])
  · omega
  · have := right.nearer; omega

/-- The right operand of an operator that binds as tightly as `bound`. Operators behind it that
bind more tightly belong to it. -/
def operand (bound : Int) (s : State tape) : Outcome tape Expr s.left := do
  let right ← unary s
  if bound < right.state.kind.precedence then
    let whole ← climb (bound + 1) right.value right.state
    return whole.widen right.nearer
  else return right
termination_by 4 * s.left + 2
decreasing_by
  · omega
  · have := right.nearer; omega

/-- A primary expression behind any number of minus signs. -/
def unary (s : State tape) : Outcome tape Expr s.left :=
  if h : s.kind = .arith .sub then do
    let operand ← unary s.advance
    return (operand.map .neg).widen (Nat.le_of_lt (State.left_advance_lt (by simp [h])))
  else primary s
termination_by 4 * s.left + 1
decreasing_by
  · have := State.left_advance_lt (s := s) (by simp [h]); omega
  · omega

/-- A name, a literal, or an expression in parentheses. -/
def primary (s : State tape) : Outcome tape Expr s.left :=
  match h : s.kind with
  | .name x => .ok (.single (.var x) (s.withNames (s.names.read x)) (by simp [h]))
  | .literal value => .ok (.single (.lit value) s (by simp [h]))
  | .leftParen => do
    let inner ← expression s.advance
    let close ← expect .rightParen "')'" inner.state
    return ⟨.group inner.value, close.state, by
      have := State.left_advance_lt (s := s) (by simp [h])
      have := inner.nearer
      have := close.nearer
      omega⟩
  | .eof => s.fail (s.unexpected "expression")
  | _ => s.fail ⟨.noPrimaryExpression s.token.lexeme, s.token.pos⟩
termination_by 4 * s.left
decreasing_by have := State.left_advance_lt (s := s) (by simp [h]); omega

end

/-- Two expressions with a relation between them. -/
def comparison (s : State tape) : Outcome tape Condition s.left := do
  let left ← expression s
  match h : left.state.kind with
  | .rel op =>
    let right ← expression left.state.advance
    return (right.map (.cmp op left.value)).widen (by
      have := left.nearer
      have := State.left_advance_lt (s := left.state) (by simp [h])
      omega)
  | .eof => left.state.fail (left.state.unexpected "relational operator")
  | _ =>
    left.state.fail
      ⟨.missingRelationalOperator left.state.token.lexeme, left.state.token.pos⟩

/-- What an attempt from the state `s` comes to: a value, or a state at the same place again. -/
inductive Attempt (s : State tape) (α : Type) where
  | found (moved : Moved tape α s.left)
  | undone (back : State tape) (place : back.idx = s.idx)

mutual

/-- A chain of alternatives. -/
def condition (s : State tape) : Outcome tape Condition s.left := do
  let first ← conjunction s
  let whole ← conditionTail first.value first.state
  return whole.widen first.nearer
termination_by 4 * s.left + 3
decreasing_by
  · omega
  · have := first.nearer; omega

/-- The rest of a chain of alternatives whose front is `left`. -/
def conditionTail (left : Condition) (s : State tape) : Outcome tape Condition (s.left + 1) :=
  if h : s.kind = .logic .or then do
    let right ← conjunction s.advance
    let whole ← conditionTail (.logic .or left right.value) right.state
    return whole.widen (by
      have := right.nearer
      have := State.left_advance_lt (s := s) (by simp [h])
      omega)
  else .ok (.stay left s)
termination_by 4 * s.left + 3
decreasing_by
  all_goals have := State.left_advance_lt (s := s) (by simp [h])
  · omega
  · have := right.nearer; omega

/-- A chain of conditions that have to hold together. -/
def conjunction (s : State tape) : Outcome tape Condition s.left := do
  let first ← negation s
  let whole ← conjunctionTail first.value first.state
  return whole.widen first.nearer
termination_by 4 * s.left + 2
decreasing_by
  · omega
  · have := first.nearer; omega

/-- The rest of a chain of joint conditions whose front is `left`. -/
def conjunctionTail (left : Condition) (s : State tape) : Outcome tape Condition (s.left + 1) :=
  if h : s.kind = .logic .and then do
    let right ← negation s.advance
    let whole ← conjunctionTail (.logic .and left right.value) right.state
    return whole.widen (by
      have := right.nearer
      have := State.left_advance_lt (s := s) (by simp [h])
      omega)
  else .ok (.stay left s)
termination_by 4 * s.left + 3
decreasing_by
  all_goals have := State.left_advance_lt (s := s) (by simp [h])
  · omega
  · have := right.nearer; omega

/-- A comparison or a condition in parentheses, behind any number of negation signs. -/
def negation (s : State tape) : Outcome tape Condition s.left :=
  match h : s.kind with
  | .bang => do
    let operand ← negation s.advance
    return (operand.map .not).widen (Nat.le_of_lt (State.left_advance_lt (by simp [h])))
  | .leftParen =>
    match tryGroup s h with
    | .found group => .ok group
    | .undone back place => do
      let whole ← comparison back
      return whole.widen (State.left_le_of_idx_eq place)
  | _ => comparison s
termination_by 4 * s.left + 1
decreasing_by
  · have := State.left_advance_lt (s := s) (by simp [h]); omega
  · omega

/-- A condition in parentheses, unless the parenthesis opens an operand of a comparison. -/
def tryGroup (s : State tape) (h : s.kind = .leftParen) : Attempt s Condition :=
  let saved := s.checkpoint
  match condition s.advance with
  | .ok inner =>
    if hclose : inner.state.kind = .rightParen then
      let behind := inner.state.advance
      if behind.kind.isRelational = false ∧ behind.kind.precedence < 0 then
        .found ⟨.group inner.value, behind, by
          have : behind.left = inner.state.advance.left := rfl
          have := State.left_advance_lt (s := s) (by simp [h])
          have := State.left_advance_lt (s := inner.state) (by simp [hclose])
          have := inner.nearer
          omega⟩
      else .undone (behind.restore saved) rfl
    else .undone (inner.state.restore saved) rfl
  | .error stuck => .undone (stuck.state.restore saved) rfl
termination_by 4 * s.left
decreasing_by have := State.left_advance_lt (s := s) (by simp [h]); omega

end

/-- An assignment, at the position of its target. The value is read before the target exists. -/
def assignment (s : State tape) : Outcome tape Assignment s.left := do
  let target ← expectName "assignment target" s
  let sign ← expect .gets "'gets'" target.state
  let value ← expression sign.state
  let assigned := value.state.names.assign target.value
  return ⟨{ target := target.value, value := value.value, declares := assigned.1,
            pos := s.token.pos },
    value.state.withNames assigned.2, by
      have := target.nearer
      have := sign.nearer
      have := value.nearer
      simp only [State.left_withNames]
      omega⟩

/-- An assignment in a clause that cannot declare. -/
def update (s : State tape) : Outcome tape Assignment s.left := do
  let a ← assignment s
  if a.value.declares then
    return ⟨{ a.value with declares := false },
      a.state.withNames (a.state.names.withdraw a.value.target), a.nearer⟩
  else return a

/-- A condition in parentheses. -/
def parenthesised (s : State tape) : Outcome tape Condition s.left := do
  let opening ← expect .leftParen "'('" s
  let inner ← condition opening.state
  let close ← expect .rightParen "')'" inner.state
  return ⟨inner.value, close.state, by
    have := opening.nearer
    have := inner.nearer
    have := close.nearer
    omega⟩

/-- The three clauses of a counting loop, in parentheses. They stand in a scope of their own, which
stays open. -/
def forClauses (s : State tape) : Outcome tape Header s.left := do
  let opening ← expect .leftParen "'('" s
  let inside := opening.state.withNames opening.state.names.enter
  let init ← assignment inside
  let first ← expectSemicolon init.state
  let test ← condition first.state
  let second ← expectSemicolon test.state
  let update ← update second.state
  let close ← expect .rightParen "')'" update.state
  return ⟨.forDo init.value test.value update.value, close.state, by
    have := opening.nearer
    have : inside.left = opening.state.left := rfl
    have := init.nearer
    have := first.nearer
    have := test.nearer
    have := second.nearer
    have := update.nearer
    have := close.nearer
    omega⟩

mutual

/-- A statement. -/
def statement (s : State tape) : Outcome tape Stmt s.left :=
  match h : s.kind with
  | .name _ => do
    let a ← assignment s
    let close ← expectSemicolon a.state
    return ⟨.assign a.value, close.state, Nat.lt_trans close.nearer a.nearer⟩
  | .keyword .ifKw => do
    let test ← parenthesised s.advance
    let body ← block test.state
    return ⟨.block (.ifThen test.value) body.value s.token.pos, body.state,
      State.lt_left_of_lt_advance (by simp [h]) (Nat.lt_trans body.nearer test.nearer)⟩
  | .keyword .whileKw => do
    let test ← parenthesised s.advance
    let body ← block test.state
    return ⟨.block (.whileDo test.value) body.value s.token.pos, body.state,
      State.lt_left_of_lt_advance (by simp [h]) (Nat.lt_trans body.nearer test.nearer)⟩
  | .keyword .forKw => do
    let clauses ← forClauses s.advance
    let body ← block clauses.state
    return ⟨.block clauses.value body.value s.token.pos,
      body.state.withNames body.state.names.leave,
      State.lt_left_of_lt_advance (by simp [h]) (Nat.lt_trans body.nearer clauses.nearer)⟩
  | .keyword .returnKw => do
    let value ← expression s.advance
    let close ← expectSemicolon value.state
    return ⟨.ret value.value s.token.pos, close.state,
      State.lt_left_of_lt_advance (by simp [h]) (Nat.lt_trans close.nearer value.nearer)⟩
  | _ => s.fail (s.unexpected "statement")
termination_by 3 * s.left
decreasing_by
  all_goals have := State.left_advance_lt (s := s) (by simp [h])
  · have := test.nearer; omega
  · have := test.nearer; omega
  · have := clauses.nearer; omega

/-- Statements in braces, in a scope of their own. -/
def block (s : State tape) : Outcome tape (List Stmt) s.left := do
  let opening ← expect .leftCurly "'\x7b'" s
  let body ← blockTail s.token.pos (opening.state.withNames opening.state.names.enter)
  return body.widen (Nat.le_of_lt opening.nearer)
termination_by 3 * s.left + 1
decreasing_by have := opening.nearer; simp only [State.left_withNames]; omega

/-- The statements up to a closing brace, and the brace, which closes the scope. -/
def blockTail (opened : Position) (s : State tape) : Outcome tape (List Stmt) s.left :=
  if h : s.kind = .rightCurly then
    .ok ⟨[], s.advance.withNames s.names.leave, State.left_advance_lt (by simp [h])⟩
  else if s.kind = .eof then s.fail ⟨.unclosedBlock, opened⟩
  else do
    let first ← statement s
    let later ← blockTail opened first.state
    return ⟨first.value :: later.value, later.state, Nat.lt_trans later.nearer first.nearer⟩
termination_by 3 * s.left + 2
decreasing_by
  · omega
  · have := first.nearer; omega

end

/-- The statements up to an end token, and the state there. -/
def statements (s : State tape) : Except (Stuck tape) (List Stmt × State tape) :=
  if s.kind = .eof then .ok ([], s)
  else do
    let first ← statement s
    let later ← statements first.state
    return (first.value :: later.1, later.2)
termination_by s.left
decreasing_by exact first.nearer

/-- The function with a given name and body. Assignments to hoisted names stop declaring them. -/
def finish (name : String) (body : List Stmt) (pos : Position) (names : Names) : Function :=
  .ofBody name (Stmt.settleAll (names.hoisted.sort (· ≤ ·)) body) names.free pos

/-- A function, and the state behind it. -/
def function (s : State tape) : Except (Stuck tape) (Function × State tape) := do
  let keyword ← expect (.keyword .fn) "'\\Fn'" s
  let name ← expectName "function name" keyword.state
  if name.value = Grammar.reservedName then
    .error ⟨⟨.reservedName name.value, s.token.pos⟩, name.state⟩
  else
    let opening ← expect .leftParen "'('" name.state
    if opening.state.kind.name?.isSome then
      .error ⟨⟨.parametersNotSupported opening.state.token.lexeme, opening.state.token.pos⟩,
        opening.state⟩
    else
      let close ← expect .rightParen "')'" opening.state
      let body ← block close.state
      return (finish name.value body.value s.token.pos body.state.names, body.state)

/-- A function that is given as bare statements, and the state behind it. -/
def implicitFunction (s : State tape) : Except (Stuck tape) (Function × State tape) := do
  let body ← statements s
  return (finish Grammar.implicitName body.1 s.token.pos body.2.names, body.2)

/-- A program, and the state behind it. -/
def program (s : State tape) : Except (Stuck tape) (Function × State tape) := do
  let f ← if s.kind = .keyword .fn then function s else implicitFunction s
  if f.2.kind ≠ .eof then
    .error ⟨⟨.trailingInput f.2.token.lexeme, f.2.token.pos⟩, f.2⟩
  else return f

/-- The function that a list of tokens denotes, read in one pass. -/
def parse (ts : List Token) : Except SyntaxError Function :=
  match program (State.start (.ofTokens ts)) with
  | .ok (f, _) => .ok f
  | .error stuck => .error stuck.error

end Pseudocode.OnePass
