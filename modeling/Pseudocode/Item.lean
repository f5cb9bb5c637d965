import Pseudocode.Failure
import Pseudocode.Text.Blank
import Pseudocode.Token

/-!
# Lexical items

A source text is a row of items: blank characters, comments and lexemes. This module reads
the item at the front of a text. A reading says what the item is, or which fault it has,
and splits the text into the part that was taken and the part that is left; every fault is
a fault of the item that begins here.
-/
namespace Pseudocode

/-- An item of a source text. -/
inductive Item where
  | blank
  | lineComment
  | blockComment
  | token (kind : Kind)
  deriving DecidableEq

/-- The reading of an item: what was found, the text taken for it, and the text left. -/
structure Reading where
  found : Except LexFault Item
  taken : List Char
  rest : List Char

namespace Reading

/-- A token was read. -/
def token (kind : Kind) (taken rest : List Char) : Reading := ⟨.ok (.token kind), taken, rest⟩

/-- The item has a fault, found after `taken` was read. -/
def faulty (fault : LexFault) (taken rest : List Char) : Reading := ⟨.error fault, taken, rest⟩

end Reading

namespace Item

/-- Whether a word can begin with a character. -/
def isWordStart (c : Char) : Bool := c.isAlpha || c = '_'

/-- Whether a word can go on with a character. -/
def isWordChar (c : Char) : Bool := c.isAlphanum || c = '_'

/-- The kind of a word: a keyword, a truth value, or a name. -/
def wordKind (word : String) : Kind :=
  match word with
  | "fn" => .keyword .fn
  | "if" => .keyword .ifKw
  | "while" => .keyword .whileKw
  | "for" => .keyword .forKw
  | "return" => .keyword .returnKw
  | "gets" => .gets
  | "true" => .literal (.bool true)
  | "false" => .literal (.bool false)
  | _ => .name word

/-- The keyword spelt by a word behind a backslash. -/
def markedKeyword? (word : String) : Option Keyword :=
  match word with
  | "Fn" => some .fn
  | "If" => some .ifKw
  | "While" => some .whileKw
  | "For" => some .forKw
  | "KwRet" | "Return" => some .returnKw
  | _ => none

/-- A word that begins with `c`. -/
def readWord (c : Char) (cs : List Char) : Reading :=
  let word := c :: cs.takeWhile isWordChar
  .token (wordKind (String.ofList word)) word (cs.dropWhile isWordChar)

/-- A keyword behind a backslash. A backslash with no word behind it stands for itself. -/
def readMarked (cs : List Char) : Reading :=
  let word := cs.takeWhile isWordChar
  let rest := cs.dropWhile isWordChar
  let text := String.ofList word
  if word.isEmpty then .faulty (.unexpectedCharacter '\\') ['\\'] rest
  else match markedKeyword? text with
    | some keyword => .token (.keyword keyword) ('\\' :: word) rest
    | none => .faulty (.unknownKeyword text) ('\\' :: word) rest

/-- The largest integer literal, 2⁶³ - 1. -/
def greatestInteger : Nat := 9223372036854775807

/-- A number that begins with the digit `c`. A point belongs to it only if a digit follows. -/
def readNumber (c : Char) (cs : List Char) : Reading :=
  let whole := c :: cs.takeWhile Char.isDigit
  let integer (rest : List Char) : Reading :=
    let n := Number.ofDigits whole
    if n ≤ greatestInteger then .token (.literal (.int n)) whole rest
    else .faulty (.integerOutOfRange (String.ofList whole)) whole rest
  match cs.dropWhile Char.isDigit with
  | '.' :: d :: r =>
    if d.isDigit then
      let fraction := d :: r.takeWhile Char.isDigit
      .token (.literal (.float (.ofDecimal false (Number.Binary64.decimalOf whole fraction 0))))
        (whole ++ '.' :: fraction) (r.dropWhile Char.isDigit)
    else integer ('.' :: d :: r)
  | rest => integer rest

/-- The inside of a string literal and the text behind it. It extends to the first quote
that is not escaped, to a newline, or to the end; a backslash does not escape a newline. -/
def splitInside : List Char → List Char × List Char
  | [] => ([], [])
  | '"' :: rest => ([], '"' :: rest)
  | '\n' :: rest => ([], '\n' :: rest)
  | '\\' :: c :: rest =>
    if c = '\n' then (['\\'], c :: rest)
    else ('\\' :: c :: (splitInside rest).1, (splitInside rest).2)
  | c :: rest => (c :: (splitInside rest).1, (splitInside rest).2)

/-- A string literal whose opening quote stands in front of `cs`. -/
def readString (cs : List Char) : Reading :=
  let inside := (splitInside cs).1
  match (splitInside cs).2 with
  | '"' :: rest => .token (.literal (.str (String.ofList inside))) ('"' :: inside ++ ['"']) rest
  | rest => .faulty .unterminatedString ('"' :: inside) rest

/-- The end of a character literal whose inside has been read. -/
def closeChar (inside rest : List Char) : Reading :=
  match rest with
  | '\'' :: rest =>
    .token (.literal (.char (String.ofList inside))) ('\'' :: inside ++ ['\'']) rest
  | rest => .faulty .malformedChar ('\'' :: inside) rest

/-- A character literal whose opening apostrophe stands in front of `cs`: one character, or a
backslash and one character, neither of them a newline. -/
def readChar (cs : List Char) : Reading :=
  match cs with
  | '\\' :: c :: rest =>
    if c = '\n' then .faulty .malformedChar ['\'', '\\'] (c :: rest)
    else closeChar ['\\', c] rest
  | ['\\'] => .faulty .malformedChar ['\'', '\\'] []
  | c :: rest =>
    if c = '\'' ∨ c = '\n' then .faulty .malformedChar ['\''] (c :: rest)
    else closeChar [c] rest
  | [] => .faulty .malformedChar ['\''] []

/-- A block comment up to its first closing mark, and the text behind it; nothing if it is
never closed. -/
def splitBlock? : List Char → Option (List Char × List Char)
  | [] => none
  | '*' :: '/' :: rest => some (['*', '/'], rest)
  | c :: rest => (splitBlock? rest).map fun (inside, behind) => (c :: inside, behind)

/-- A block comment whose opening mark stands in front of `cs`. -/
def readBlock (cs : List Char) : Reading :=
  match splitBlock? cs with
  | some (inside, rest) => ⟨.ok .blockComment, '/' :: '*' :: inside, rest⟩
  | none => .faulty .unterminatedComment ('/' :: '*' :: cs) []

/-- A comment whose opening mark stands in front of `cs`, up to the end of the line. -/
def readLine (cs : List Char) : Reading :=
  ⟨.ok .lineComment, '/' :: '/' :: cs.takeWhile (· ≠ '\n'), cs.dropWhile (· ≠ '\n')⟩

/-- The tokens of two characters. -/
def pairKind? : Char → Char → Option Kind
  | '<', '=' => some (.rel .lessEqual)
  | '>', '=' => some (.rel .greaterEqual)
  | '=', '=' => some (.rel .equal)
  | '!', '=' => some (.rel .notEqual)
  | '&', '&' => some (.logic .and)
  | '|', '|' => some (.logic .or)
  | _, _ => none

/-- The tokens of one character. -/
def singleKind? : Char → Option Kind
  | '<' => some (.rel .less)
  | '>' => some (.rel .greater)
  | '=' => some .gets
  | '!' => some .bang
  | '+' => some (.arith .add)
  | '-' => some (.arith .sub)
  | '*' => some (.arith .mul)
  | '/' => some (.arith .div)
  | '%' => some (.arith .mod)
  | '(' => some .leftParen
  | ')' => some .rightParen
  | '{' => some .leftCurly
  | '}' => some .rightCurly
  | ';' => some .semicolon
  | ',' => some .comma
  | _ => none

/-- One character as a token, or a fault that takes nothing. -/
def readSingle (c : Char) (cs : List Char) : Reading :=
  match singleKind? c with
  | some kind => .token kind [c] cs
  | none => .faulty (.unexpectedCharacter c) [] (c :: cs)

/-- The longest symbol that begins with `c`. -/
def readSymbol (c : Char) (cs : List Char) : Reading :=
  match cs with
  | d :: rest =>
    match pairKind? c d with
    | some kind => .token kind [c, d] rest
    | none => readSingle c cs
  | [] => readSingle c cs

/-- An item that begins with a slash: a comment or the division sign. -/
def readSlash (cs : List Char) : Reading :=
  match cs with
  | '/' :: rest => readLine rest
  | '*' :: rest => readBlock rest
  | _ => readSymbol '/' cs

/-- The item at the front of the text `c :: cs`. -/
def read (c : Char) (cs : List Char) : Reading :=
  if Text.isBlank c then ⟨.ok .blank, [c], cs⟩
  else if isWordStart c then readWord c cs
  else if c.isDigit then readNumber c cs
  else if c = '/' then readSlash cs
  else if c = '\\' then readMarked cs
  else if c = '"' then readString cs
  else if c = '\'' then readChar cs
  else readSymbol c cs

end Item

end Pseudocode
