import Pseudocode.Failure
import Pseudocode.Tree

/-!
# Reading trees from tokens

What all readers of the grammar share. A reader looks at the tokens that are left and at
nothing else; it answers with a tree and the tokens behind it, or with a syntax error. The
end of the input is not a token but the end of the list, with a position of its own.
-/
namespace Pseudocode.Grammar

/-- The tokens before the end of the input, and the position of that end. -/
structure TokenRow where
  tokens : List Token
  finish : Position

/-- The row that a list of tokens stands for. The first end token ends it; without one, the
input ends where its last token is. -/
def TokenRow.ofTokens (ts : List Token) : TokenRow where
  tokens := ts.takeWhile (·.kind ≠ .eof)
  finish := match ts.find? (·.kind = .eof) with
    | some t => t.pos
    | none => (ts.getLast?.map Token.pos).getD .start

/-- A value that was read, and the tokens behind it, of which there are fewer than `n`. -/
structure Parsed (α : Type) (n : Nat) where
  value : α
  rest : List Token
  shorter : rest.length < n

namespace Parsed

/-- A value for which nothing was read. -/
def stay {α : Type} (value : α) (ts : List Token) : Parsed α (ts.length + 1) :=
  ⟨value, ts, Nat.lt_succ_self _⟩

/-- A value for which one token was read. -/
def single {α : Type} (value : α) (t : Token) (rest : List Token) : Parsed α (t :: rest).length :=
  ⟨value, rest, Nat.lt_succ_self _⟩

/-- The same result under a weaker bound. -/
def widen {α : Type} {n m : Nat} (p : Parsed α n) (h : n ≤ m) : Parsed α m :=
  ⟨p.value, p.rest, Nat.lt_of_lt_of_le p.shorter h⟩

/-- The result with its value changed. -/
def map {α β : Type} {n : Nat} (f : α → β) (p : Parsed α n) : Parsed β n :=
  ⟨f p.value, p.rest, p.shorter⟩

end Parsed

/-- A tree and fewer than `n` tokens behind it, or a syntax error. -/
abbrev Answer (α : Type) (n : Nat) := Except SyntaxError (Parsed α n)

/-- The position of what stands here. -/
def here (finish : Position) : List Token → Position
  | [] => finish
  | t :: _ => t.pos

/-- The error that what stands here is not what is expected. -/
def unexpected (finish : Position) (expected : String) : List Token → SyntaxError
  | [] => ⟨.unexpectedEnd, finish⟩
  | t :: _ => ⟨.unexpectedToken expected t.lexeme, t.pos⟩

/-- A token of a given kind, which has to stand here. -/
def expect (finish : Position) (kind : Kind) (expected : String) (ts : List Token) :
    Answer Unit ts.length :=
  match ts with
  | t :: rest =>
    if t.kind = kind then .ok (.single () t rest)
    else .error (unexpected finish expected (t :: rest))
  | [] => .error (unexpected finish expected [])

/-- A name, which has to stand here. -/
def expectName (finish : Position) (expected : String) (ts : List Token) :
    Answer String ts.length :=
  match ts with
  | ⟨.name x, lexeme, pos⟩ :: rest => .ok (.single x ⟨.name x, lexeme, pos⟩ rest)
  | ts => .error (unexpected finish expected ts)

/-- The last token of `ts` before its remainder `rest`. -/
def lastBefore (ts rest : List Token) (h : rest.length < ts.length) : Token :=
  ts.get ⟨ts.length - rest.length - 1, by omega⟩

/-- A value with a semicolon behind it. A missing semicolon is reported at the last token of
the value, because that is the line it belongs to. -/
def terminated {α : Type} (ts : List Token) (p : Parsed α ts.length) : Answer α ts.length :=
  match h : p.rest with
  | ⟨.semicolon, _, _⟩ :: rest =>
    .ok ⟨p.value, rest, by have := p.shorter; rw [h] at this; exact Nat.lt_of_succ_lt this⟩
  | _ =>
    let last := lastBefore ts p.rest p.shorter
    .error ⟨.missingSemicolon last.lexeme, last.pos⟩

end Pseudocode.Grammar
