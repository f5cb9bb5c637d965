import Pseudocode.Cursor
import Pseudocode.Proofs.Indexed.Machine

/-!
# A scanner on indices

The scanner that holds an index into its text instead of the text that is left. It moves forward
without a look at the end of the text, and it takes the character at its index for granted where it
thinks that it has seen one; only peeks are safe everywhere. After a fault it stays where the fault
was noticed and can be asked again.

The number `depth` bounds the turns of the loops of one program.
-/
namespace Pseudocode.Indexed

open Machine

/-- The state of a scanner. -/
structure Scanner where
  /-- The index of the next character. -/
  idx : Nat
  /-- The index at which the last token began. -/
  first : Nat
  pos : Position
  /-- How often a token has been asked for. No program looks at it. -/
  calls : Nat

/-- Programs of a scanner. -/
abbrev Scanning := Machine LexError Scanner

namespace Scanner

/-- The beginning of a text. -/
def start : Scanner := ⟨0, 0, .start, 0⟩

variable (input : List Char)

/-- The character `n` places ahead, if the text goes on so far. -/
def peek (n : Nat) : Scanning (Option Char) := fun s => .ok input[s.idx + n]? s

/-- The next character, which has to be there. -/
def current : Scanning Char := fun s => found input[s.idx]? s

/-- Moves over a character, whether there is one or not. -/
def advance : Scanning Unit := fun s =>
  .ok () { s with idx := s.idx + 1, pos := { s.pos with col := s.pos.col + 1 } }

/-- Begins the next row. -/
def breakLine : Scanning Unit := fun s => .ok () { s with pos := ⟨s.pos.row + 1, 1⟩ }

/-- Moves over the character `c`. -/
def step (c : Char) : Scanning Unit := do
  advance
  if c = '\n' then breakLine

/-- The place of the next character. -/
def place : Scanning Position := fun s => .ok s.pos s

/-- Whether the text goes on. -/
def hasMore : Scanning Bool := fun s => .ok (decide (s.idx < input.length)) s

/-- Counts a call. -/
def count : Scanning Unit := fun s => .ok () { s with calls := s.calls + 1 }

/-- Lets a token begin here. -/
def mark : Scanning Unit := fun s => .ok () { s with first := s.idx }

/-- The part of the text from one index to another, if both are in it and in this order. -/
def slice? (i j : Nat) : Option (List Char) :=
  if i ≤ j ∧ j ≤ input.length then some ((input.take j).drop i) else none

/-- The text of the token that began at the mark. -/
def lexeme : Scanning (List Char) := fun s => found (slice? input s.first s.idx) s

/-- Moves over the characters of a class. -/
def takeWhile (p : Char → Bool) : (depth : Nat) → Scanning (List Char)
  | 0 => throw .exhausted
  | depth + 1 => do
    match ← peek input 0 with
    | some c =>
      if p c then
        advance
        let later ← takeWhile p depth
        return c :: later
      else return []
    | none => return []

/-- Moves over blanks. -/
def skipBlanks : (depth : Nat) → Scanning Unit
  | 0 => throw .exhausted
  | depth + 1 => do
    match ← peek input 0 with
    | some c =>
      if Text.isBlank c then
        step c
        skipBlanks depth
    | none => return

/-- Moves over the rest of the line. -/
def skipLine (depth : Nat) : Scanning Unit := do
  let _ ← takeWhile input (· ≠ '\n') depth

/-- Moves behind the mark that closes a block comment. -/
def closeBlock (opened : Position) : (depth : Nat) → Scanning Unit
  | 0 => throw .exhausted
  | depth + 1 => do
    match ← peek input 0 with
    | none => fail ⟨.unterminatedComment, opened⟩
    | some c =>
      if c = '*' ∧ (← peek input 1) = some '/' then
        advance
        advance
      else
        step c
        closeBlock opened depth

/-- Moves over a block comment. -/
def skipBlock (depth : Nat) : Scanning Unit := do
  let opened ← place
  advance
  advance
  closeBlock input opened depth

/-- Moves over blanks and comments. -/
def skipGaps : (depth : Nat) → Scanning Unit
  | 0 => throw .exhausted
  | depth + 1 => do
    match ← peek input 0 with
    | some c =>
      let second ← peek input 1
      if Text.isBlank c then
        skipBlanks input (depth + 1)
        skipGaps depth
      else if c = '/' ∧ second = some '/' then
        skipLine input (depth + 1)
        skipGaps depth
      else if c = '/' ∧ second = some '*' then
        skipBlock input (depth + 1)
        skipGaps depth
    | none => return

/-- A word. -/
def word (depth : Nat) : Scanning Kind := do
  let text ← takeWhile input Item.isWordChar depth
  return Item.wordKind (String.ofList text)

/-- A keyword behind a backslash. -/
def marked (pos : Position) (depth : Nat) : Scanning Kind := do
  advance
  let text ← takeWhile input Item.isWordChar depth
  if text.isEmpty then fail ⟨.unexpectedCharacter '\\', pos⟩
  else match Item.markedKeyword? (String.ofList text) with
    | some keyword => return .keyword keyword
    | none => fail ⟨.unknownKeyword (String.ofList text), pos⟩

/-- A number. A point belongs to it only if a digit follows. -/
def number (pos : Position) (depth : Nat) : Scanning Kind := do
  let whole ← takeWhile input Char.isDigit depth
  if (← peek input 0) = some '.' ∧ (← peek input 1).any Char.isDigit = true then
    advance
    let fraction ← takeWhile input Char.isDigit depth
    return .literal (.float (.ofDecimal false (Number.Binary64.decimalOf whole fraction 0)))
  else if Number.ofDigits whole ≤ Item.greatestInteger then
    return .literal (.int (Number.ofDigits whole))
  else fail ⟨.integerOutOfRange (String.ofList whole), pos⟩

/-- The inside of a string literal, and its closing quote. -/
def closeString (pos : Position) : (depth : Nat) → Scanning (List Char)
  | 0 => throw .exhausted
  | depth + 1 => do
    match ← peek input 0 with
    | none => fail ⟨.unterminatedString, pos⟩
    | some c =>
      if c = '"' then
        advance
        return []
      else if c = '\\' ∧ (← peek input 1).any (· ≠ '\n') = true then
        advance
        let escaped ← current input
        advance
        let later ← closeString pos depth
        return c :: escaped :: later
      else if c = '\n' then fail ⟨.unterminatedString, pos⟩
      else
        advance
        let later ← closeString pos depth
        return c :: later

/-- A string literal. -/
def string (pos : Position) (depth : Nat) : Scanning Kind := do
  advance
  let inside ← closeString input pos depth
  return .literal (.str (String.ofList inside))

/-- The closing apostrophe of a character literal. -/
def closeChar (pos : Position) (inside : List Char) : Scanning Kind := do
  if (← peek input 0) = some '\'' then
    advance
    return .literal (.char (String.ofList inside))
  else fail ⟨.malformedChar, pos⟩

/-- A character literal. -/
def character (pos : Position) : Scanning Kind := do
  advance
  match ← peek input 0 with
  | some '\\' =>
    advance
    match ← peek input 0 with
    | some c =>
      if c = '\n' then fail ⟨.malformedChar, pos⟩
      else
        advance
        closeChar input pos ['\\', c]
    | none => fail ⟨.malformedChar, pos⟩
  | some c =>
    if c = '\'' ∨ c = '\n' then fail ⟨.malformedChar, pos⟩
    else
      advance
      closeChar input pos [c]
  | none => fail ⟨.malformedChar, pos⟩

/-- A sign that the character `second` makes longer. -/
def extended (second : Char) (long short : Kind) : Scanning Kind := do
  advance
  if (← peek input 0) = some second then
    advance
    return long
  else return short

/-- A sign that has to be written twice. -/
def doubled (c : Char) (kind : Kind) (pos : Position) : Scanning Kind := do
  if (← peek input 1) = some c then
    advance
    advance
    return kind
  else fail ⟨.unexpectedCharacter c, pos⟩

/-- A sign of one or two characters. -/
def sign (c : Char) (pos : Position) : Scanning Kind :=
  match c with
  | '<' => extended input '=' (.rel .lessEqual) (.rel .less)
  | '>' => extended input '=' (.rel .greaterEqual) (.rel .greater)
  | '=' => extended input '=' (.rel .equal) .gets
  | '!' => extended input '=' (.rel .notEqual) .bang
  | '&' => doubled input '&' (.logic .and) pos
  | '|' => doubled input '|' (.logic .or) pos
  | c =>
    match Item.singleKind? c with
    | some kind => do
      advance
      return kind
    | none => fail ⟨.unexpectedCharacter c, pos⟩

/-- The kind of the lexeme that begins here, at the position `pos`. -/
def identify (pos : Position) (depth : Nat) : Scanning Kind := do
  let c ← current input
  if Item.isWordStart c then word input depth
  else if c.isDigit then number input pos depth
  else if c = '\\' then marked input pos depth
  else if c = '"' then string input pos depth
  else if c = '\'' then character input pos
  else sign input c pos

/-- The token that begins here. -/
def token (depth : Nat) : Scanning Token := do
  let pos ← place
  mark
  if ← hasMore input then
    let kind ← identify input pos depth
    let text ← lexeme input
    return ⟨kind, String.ofList text, pos⟩
  else return Cursor.endToken pos

/-- The next token. -/
def next (depth : Nat) : Scanning Token := do
  count
  skipGaps input depth
  token input depth

/-- All tokens up to that for the end of the text. -/
def tokenize : (depth : Nat) → Scanning (List Token)
  | 0 => throw .exhausted
  | depth + 1 => do
    let t ← next input (depth + 1)
    if t.kind = .eof then return [t]
    else
      let later ← tokenize depth
      return t :: later

end Scanner

end Pseudocode.Indexed
