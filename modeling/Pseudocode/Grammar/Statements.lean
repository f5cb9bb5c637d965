import Pseudocode.Grammar.Conditions

/-!
# Reading statements and functions

    statement   ::= assignment ';'
                  | 'if' '(' condition ')' block
                  | 'while' '(' condition ')' block
                  | 'for' '(' assignment ';' condition ';' assignment ')' block
                  | 'return' expression ';'
    assignment  ::= name 'gets' expression
    block       ::= '{' statement* '}'
    program     ::= 'fn' name '(' ')' block | statement*

No assignment is marked as a declaration here: which ones declare their target depends on the
whole function and is decided in `Pseudocode.Scope`.
-/
namespace Pseudocode.Grammar

variable (finish : Position)

/-- An assignment, at the position of its target. -/
def assignment (ts : List Token) : Answer Assignment ts.length := do
  let target ← expectName finish "assignment target" ts
  let sign ← expect finish .gets "'gets'" target.rest
  let value ← expression finish sign.rest
  return ⟨{ target := target.value, value := value.value, pos := here finish ts }, value.rest, by
    have := target.shorter; have := sign.shorter; have := value.shorter; omega⟩

/-- A condition in parentheses. -/
def parenthesised (ts : List Token) : Answer Condition ts.length := do
  let opening ← expect finish .leftParen "'('" ts
  let inner ← condition finish opening.rest
  let close ← expect finish .rightParen "')'" inner.rest
  return ⟨inner.value, close.rest,
    by have := opening.shorter; have := inner.shorter; have := close.shorter; omega⟩

/-- The three clauses of a counting loop, in parentheses. -/
def forClauses (ts : List Token) : Answer Header ts.length := do
  let opening ← expect finish .leftParen "'('" ts
  let init ← assignment finish opening.rest
  let init ← terminated opening.rest init
  let test ← condition finish init.rest
  let test ← terminated init.rest test
  let update ← assignment finish test.rest
  let close ← expect finish .rightParen "')'" update.rest
  return ⟨.forDo init.value test.value update.value, close.rest, by
    have := opening.shorter; have := init.shorter; have := test.shorter
    have := update.shorter; have := close.shorter; omega⟩

mutual

/-- A statement. -/
def statement (ts : List Token) : Answer Stmt ts.length :=
  match ts with
  | ⟨.name x, lexeme, pos⟩ :: rest => do
    let a ← assignment finish (⟨.name x, lexeme, pos⟩ :: rest)
    let a ← terminated (⟨.name x, lexeme, pos⟩ :: rest) a
    return a.map .assign
  | ⟨.keyword .returnKw, _, pos⟩ :: rest => do
    let value ← expression finish rest
    let value ← terminated rest value
    return (value.map (Stmt.ret · pos)).widen (Nat.le_succ _)
  | ⟨.keyword .ifKw, _, pos⟩ :: rest => do
    let test ← parenthesised finish rest
    let body ← block test.rest
    return ⟨.block (.ifThen test.value) body.value pos, body.rest,
      by have := test.shorter; have := body.shorter; simp only [List.length_cons]; omega⟩
  | ⟨.keyword .whileKw, _, pos⟩ :: rest => do
    let test ← parenthesised finish rest
    let body ← block test.rest
    return ⟨.block (.whileDo test.value) body.value pos, body.rest,
      by have := test.shorter; have := body.shorter; simp only [List.length_cons]; omega⟩
  | ⟨.keyword .forKw, _, pos⟩ :: rest => do
    let clauses ← forClauses finish rest
    let body ← block clauses.rest
    return ⟨.block clauses.value body.value pos, body.rest,
      by have := clauses.shorter; have := body.shorter; simp only [List.length_cons]; omega⟩
  | ts => .error (unexpected finish "statement" ts)
termination_by 3 * ts.length
decreasing_by
  · have := test.shorter; simp only [List.length_cons]; omega
  · have := test.shorter; simp only [List.length_cons]; omega
  · have := clauses.shorter; simp only [List.length_cons]; omega

/-- Statements in braces. -/
def block (ts : List Token) : Answer (List Stmt) ts.length := do
  let opening ← expect finish .leftCurly "'\x7b'" ts
  let body ← blockTail (here finish ts) opening.rest
  return body.widen (Nat.le_of_lt opening.shorter)
termination_by 3 * ts.length + 1
decreasing_by have := opening.shorter; omega

/-- The statements up to a closing brace, and the brace. `opened` is where the opening brace
stands: a block that is never closed is reported there. -/
def blockTail (opened : Position) (ts : List Token) : Answer (List Stmt) ts.length :=
  match ts with
  | [] => .error ⟨.unclosedBlock, opened⟩
  | ⟨.rightCurly, lexeme, pos⟩ :: rest => .ok (.single [] ⟨.rightCurly, lexeme, pos⟩ rest)
  | ts => do
    let first ← statement ts
    let later ← blockTail opened first.rest
    return ⟨first.value :: later.value, later.rest, Nat.lt_trans later.shorter first.shorter⟩
termination_by 3 * ts.length + 2
decreasing_by
  · omega
  · have := first.shorter; omega

end

/-- The statements up to the end of the input. -/
def statements (ts : List Token) : Except SyntaxError (List Stmt) :=
  match ts with
  | [] => .ok []
  | t :: rest => do
    let first ← statement finish (t :: rest)
    let later ← statements first.rest
    return first.value :: later
termination_by ts.length
decreasing_by exact first.shorter

/-- A function as it is written: its name, its statements, and where it begins. -/
structure Source where
  name : String
  body : List Stmt
  pos : Position

/-- The name of a function that is given as bare statements. -/
def implicitName : String := "program"

/-- The name of the generated entry point, which no function may have. -/
def reservedName : String := "main"

/-- The name of a function whose keyword stands at `pos`. -/
def functionName (pos : Position) (ts : List Token) : Answer String ts.length := do
  let name ← expectName finish "function name" ts
  if name.value = reservedName then .error ⟨.reservedName name.value, pos⟩ else return name

/-- Refuses a parameter where a closing parenthesis has to stand. -/
def refuseParameter : List Token → Except SyntaxError Unit
  | ⟨.name _, lexeme, pos⟩ :: _ => .error ⟨.parametersNotSupported lexeme, pos⟩
  | _ => .ok ()

/-- A function behind its keyword, which stands at `pos`. -/
def function (pos : Position) (ts : List Token) : Answer Source ts.length := do
  let name ← functionName finish pos ts
  let opening ← expect finish .leftParen "'('" name.rest
  refuseParameter opening.rest
  let close ← expect finish .rightParen "')'" opening.rest
  let body ← block finish close.rest
  return ⟨⟨name.value, body.value, pos⟩, body.rest, by
    have := name.shorter; have := opening.shorter; have := close.shorter
    have := body.shorter; omega⟩

/-- A program: a function and nothing behind it, or bare statements. -/
def program (ts : List Token) : Except SyntaxError Source :=
  match ts with
  | ⟨.keyword .fn, _, pos⟩ :: rest => do
    let f ← function finish pos rest
    match f.rest with
    | [] => return f.value
    | t :: _ => .error ⟨.trailingInput t.lexeme, t.pos⟩
  | ts => do
    let body ← statements finish ts
    return ⟨implicitName, body, here finish ts⟩

end Pseudocode.Grammar
