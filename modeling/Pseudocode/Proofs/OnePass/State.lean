import Pseudocode.Function
import Mathlib.Data.Finset.Sort
import Mathlib.Data.String.Basic

/-!
# The state of a reader in one pass

A program can be read in one pass: a reader moves over its tokens, and whenever it meets a name it
writes down at once what the mention means for the declarations. Such a reader has a state, an
index into the tokens and what is known about the names so far, and every step that it takes
changes the state for good. The only way back is a checkpoint, and a checkpoint does not hold
everything.

## Main definitions

* `Tape` — tokens with an end token behind them.
* `Names` — what is known about names: `read`, `assign`, `enter`, `leave`, `withdraw`.
* `State` — an index and what is known about names; `advance` moves to the next token.
* `State.checkpoint`, `State.restore` — a record of a state, and the way back to it.
* `Outcome` — a value and a state nearer to the end, or an error and the state it leaves.
-/
namespace Pseudocode.OnePass

/-- Tokens, the last of which is an end token. -/
structure Tape where
  tokens : List Token
  ended : tokens.getLast?.map Token.kind = some .eof

/-- The tape of a list of tokens. Without an end token at the end it gets one, at the position of
its last token. -/
def Tape.ofTokens (ts : List Token) : Tape :=
  if h : ts.getLast?.map Token.kind = some .eof then ⟨ts, h⟩
  else ⟨ts ++ [⟨.eof, "", (ts.getLast?.map Token.pos).getD .start⟩], by simp⟩

theorem Tape.length_pos (tape : Tape) : 0 < tape.tokens.length := by
  have h := tape.ended
  cases htokens : tape.tokens with
  | nil => simp [htokens] at h
  | cons t ts => simp

/-- The last token of a tape is an end token. -/
theorem Tape.kind_of_isLast (tape : Tape) (i : Fin tape.tokens.length)
    (h : ¬ i + 1 < tape.tokens.length) : (tape.tokens.get i).kind = .eof := by
  have hlast : tape.tokens.getLast? = some (tape.tokens.get i) := by
    have hi : tape.tokens.length - 1 = i := by omega
    rw [List.getLast?_eq_getElem?, hi]
    simp
  simpa [hlast] using tape.ended

/-- What is known about the names of a function. -/
structure Names where
  /-- Every name that has been read or assigned. -/
  mentioned : Finset String
  /-- The names to declare up front, in the order in which that was decided. -/
  free : List String
  /-- The names declared in each open scope, innermost scope first. -/
  scopes : List (List String)
  /-- The names declared in a scope that has been closed. -/
  expired : Finset String
  /-- The names to declare up front although they are assigned first. -/
  hoisted : Finset String
  deriving DecidableEq

namespace Names

/-- The beginning of a function. -/
def start : Names := ⟨∅, [], [[]], ∅, ∅⟩

/-- Moves the declaration of a name to the front. -/
def hoist (n : Names) (x : String) : Names :=
  { n with hoisted := insert x n.hoisted, free := n.free ++ [x] }

/-- A further mention of a name. If its scope has been closed, its declaration moves to the
front. -/
def reuse (n : Names) (x : String) : Names :=
  if x ∈ n.expired then { n with expired := n.expired.erase x }.hoist x else n

/-- A read of a name. -/
def read (n : Names) (x : String) : Names :=
  if x ∈ n.mentioned then n.reuse x
  else { n with mentioned := insert x n.mentioned, free := n.free ++ [x] }

/-- An assignment to a name, and whether it declares the name in the innermost scope. -/
def assign (n : Names) (x : String) : Bool × Names :=
  if x ∈ n.mentioned then (false, n.reuse x)
  else (true, { n with
    mentioned := insert x n.mentioned
    scopes := n.scopes.modifyHead (· ++ [x]) })

/-- Moves the declaration of a name from the innermost scope to the front. -/
def withdraw (n : Names) (x : String) : Names :=
  { n with scopes := n.scopes.modifyHead (·.filter (· ≠ x)) }.hoist x

/-- Opens a scope. -/
def enter (n : Names) : Names := { n with scopes := [] :: n.scopes }

/-- Closes the innermost scope. -/
def leave (n : Names) : Names :=
  match n.scopes with
  | [] => n
  | scope :: outer => { n with scopes := outer, expired := n.expired ∪ scope.toFinset }

end Names

/-- The state of a reader: the index of the token it looks at, and what is known about names. -/
structure State (tape : Tape) where
  idx : Fin tape.tokens.length
  names : Names

/-- What is recorded of a state: of the names to declare up front only how many there are, and
nothing of the open scopes. -/
structure Checkpoint (tape : Tape) where
  idx : Fin tape.tokens.length
  mentioned : Finset String
  freeCount : Nat
  expired : Finset String
  hoisted : Finset String

namespace State

variable {tape : Tape}

/-- The state at the beginning of a tape. -/
def start (tape : Tape) : State tape := ⟨⟨0, tape.length_pos⟩, .start⟩

/-- The token that the reader looks at. -/
def token (s : State tape) : Token := tape.tokens.get s.idx

/-- The kind of that token. -/
def kind (s : State tape) : Kind := s.token.kind

/-- The token before. -/
def previous (s : State tape) : Token := tape.tokens.get ⟨s.idx - 1, by omega⟩

/-- The state behind the token, unless the token is the last one. -/
def advance (s : State tape) : State tape :=
  if h : s.idx + 1 < tape.tokens.length then { s with idx := ⟨s.idx + 1, h⟩ } else s

/-- The number of tokens from here on. -/
def left (s : State tape) : Nat := tape.tokens.length - s.idx

/-- The same place after a change of the names. -/
def withNames (s : State tape) (names : Names) : State tape := { s with names }

/-- A record of the state. -/
def checkpoint (s : State tape) : Checkpoint tape :=
  ⟨s.idx, s.names.mentioned, s.names.free.length, s.names.expired, s.names.hoisted⟩

/-- Back to a record. -/
def restore (s : State tape) (c : Checkpoint tape) : State tape where
  idx := c.idx
  names := { s.names with
    mentioned := c.mentioned
    free := s.names.free.take c.freeCount
    expired := c.expired
    hoisted := c.hoisted }

/-- The error that the token is not what is expected. -/
def unexpected (s : State tape) (expected : String) : SyntaxError :=
  if s.kind = .eof then ⟨.unexpectedEnd, s.token.pos⟩
  else ⟨.unexpectedToken expected s.token.lexeme, s.token.pos⟩

@[simp] theorem left_withNames (s : State tape) (names : Names) :
    (s.withNames names).left = s.left := rfl

@[simp] theorem kind_withNames (s : State tape) (names : Names) :
    (s.withNames names).kind = s.kind := rfl

@[simp] theorem names_advance (s : State tape) : s.advance.names = s.names := by
  unfold advance
  split <;> rfl

/-- Only at an end token the reader can fail to move. -/
theorem idx_advance {s : State tape} (h : s.kind ≠ .eof) :
    (s.advance.idx : Nat) = s.idx + 1 := by
  unfold advance
  split
  · rfl
  · next hlast => exact absurd (tape.kind_of_isLast s.idx hlast) h

/-- A step takes one of the tokens that are left. -/
theorem left_advance_lt {s : State tape} (h : s.kind ≠ .eof) : s.advance.left < s.left := by
  have hidx := idx_advance h
  have hlt := s.idx.isLt
  simp only [left]
  omega

/-- What is nearer to the end than the next token is nearer than this one. -/
theorem lt_left_of_lt_advance {s : State tape} {n : Nat} (h : s.kind ≠ .eof)
    (hn : n < s.advance.left) : n < s.left :=
  Nat.lt_trans hn (left_advance_lt h)

theorem left_le_of_idx_eq {s s' : State tape} (h : s'.idx = s.idx) : s'.left ≤ s.left := by
  simp only [left, h]
  omega

end State

/-- A value that was read, and the state behind it, with fewer than `n` tokens left. -/
structure Moved (tape : Tape) (α : Type) (n : Nat) where
  value : α
  state : State tape
  nearer : state.left < n

/-- An error, and the state in which it was found. -/
structure Stuck (tape : Tape) where
  error : SyntaxError
  state : State tape

/-- What a reader comes to. -/
abbrev Outcome (tape : Tape) (α : Type) (n : Nat) := Except (Stuck tape) (Moved tape α n)

namespace Moved

variable {tape : Tape} {α β : Type} {n m : Nat}

/-- A value for which nothing was read. -/
def stay (value : α) (s : State tape) : Moved tape α (s.left + 1) :=
  ⟨value, s, Nat.lt_succ_self _⟩

/-- A value for which one token was read. -/
def single (value : α) (s : State tape) (h : s.kind ≠ .eof) : Moved tape α s.left :=
  ⟨value, s.advance, State.left_advance_lt h⟩

/-- The same result under a weaker bound. -/
def widen (p : Moved tape α n) (h : n ≤ m) : Moved tape α m :=
  ⟨p.value, p.state, Nat.lt_of_lt_of_le p.nearer h⟩

/-- The result with its value changed. -/
def map (f : α → β) (p : Moved tape α n) : Moved tape β n := ⟨f p.value, p.state, p.nearer⟩

end Moved

/-- An error at this state. -/
def State.fail {tape : Tape} {α : Type} {n : Nat} (s : State tape) (error : SyntaxError) :
    Outcome tape α n :=
  .error ⟨error, s⟩

end Pseudocode.OnePass
