import Pseudocode.Cursor

/-!
# The lexical grammar

What a text has to look like to be a row of tokens, without a word about how it is read: lexemes
with blanks and comments between them, where every lexeme belongs to the class of its token and
could not be longer.
-/
namespace Pseudocode

/-- Blanks and comments that stand in front of `rest`. A line comment goes up to a newline or to
the end of the text, a block comment up to the first closing mark. -/
inductive Trivia (rest : List Char) : List Char → Prop where
  | nil : Trivia rest []
  | blank {c : Char} {gap : List Char} (blank : Text.isBlank c = true) (later : Trivia rest gap) :
      Trivia rest (c :: gap)
  | line {comment gap : List Char} (line : '\n' ∉ comment)
      (ends : ∀ c ∈ (gap ++ rest).head?, c = '\n') (later : Trivia rest gap) :
      Trivia rest ('/' :: '/' :: comment ++ gap)
  | block {comment gap : List Char} (closed : ¬ ['*', '/'] <:+: comment)
      (later : Trivia rest gap) : Trivia rest ('/' :: '*' :: comment ++ '*' :: '/' :: gap)

/-- A row of characters that can be one word. -/
def isWord : List Char → Bool
  | [] => false
  | c :: cs => Item.isWordStart c && cs.all Item.isWordChar

/-- The words that are no names. -/
def reservedWords : List (String × Kind) :=
  [("fn", .keyword .fn), ("if", .keyword .ifKw), ("while", .keyword .whileKw),
    ("for", .keyword .forKw), ("return", .keyword .returnKw), ("gets", .gets),
    ("true", .literal (.bool true)), ("false", .literal (.bool false))]

/-- The words that may stand behind a backslash. -/
def markedWords : List (String × Keyword) :=
  [("Fn", .fn), ("If", .ifKw), ("While", .whileKw), ("For", .forKw), ("KwRet", .returnKw),
    ("Return", .returnKw)]

/-- Operators and punctuation. -/
def symbols : List (String × Kind) :=
  [("<=", .rel .lessEqual), (">=", .rel .greaterEqual), ("==", .rel .equal),
    ("!=", .rel .notEqual), ("&&", .logic .and), ("||", .logic .or), ("<", .rel .less),
    (">", .rel .greater), ("=", .gets), ("!", .bang), ("+", .arith .add), ("-", .arith .sub),
    ("*", .arith .mul), ("/", .arith .div), ("%", .arith .mod), ("(", .leftParen),
    (")", .rightParen), ("\x7b", .leftCurly), ("\x7d", .rightCurly), (";", .semicolon),
    (",", .comma)]

/-- The inside of a string literal: no newline, and no quote or backslash but behind a backslash. -/
inductive IsStringInside : List Char → Prop where
  | nil : IsStringInside []
  | plain {c : Char} {cs : List Char} (slash : c ≠ '\\') (quote : c ≠ '"') (newline : c ≠ '\n')
      (later : IsStringInside cs) : IsStringInside (c :: cs)
  | escaped {c : Char} {cs : List Char} (newline : c ≠ '\n') (later : IsStringInside cs) :
      IsStringInside ('\\' :: c :: cs)

/-- The inside of a character literal: one character or an escaped one. -/
inductive IsCharInside : List Char → Prop where
  | plain {c : Char} (slash : c ≠ '\\') (quote : c ≠ '\'') (newline : c ≠ '\n') : IsCharInside [c]
  | escaped {c : Char} (newline : c ≠ '\n') : IsCharInside ['\\', c]

/-- A row of digits, and not an empty one. -/
structure IsDigits (ds : List Char) : Prop where
  ne_nil : ds ≠ []
  digit : ∀ c ∈ ds, c.isDigit = true

/-- The lexemes of the tokens of a kind. An integer is at most 2⁶³ - 1. A number carries its value,
a string or character literal the text between its quotes as it was written. -/
inductive IsLexeme : Kind → List Char → Prop where
  | reserved {word : String} {k : Kind} (mem : (word, k) ∈ reservedWords) :
      IsLexeme k word.toList
  | name {word : String} (isWord : isWord word.toList = true)
      (free : ∀ k, (word, k) ∉ reservedWords) : IsLexeme (.name word) word.toList
  | marked {word : String} {k : Keyword} (mem : (word, k) ∈ markedWords) :
      IsLexeme (.keyword k) ('\\' :: word.toList)
  | integer {ds : List Char} (digits : IsDigits ds)
      (bound : Number.ofDigits ds ≤ 9223372036854775807) :
      IsLexeme (.literal (.int (Number.ofDigits ds))) ds
  | float {whole fraction : List Char} (whole_digits : IsDigits whole)
      (fraction_digits : IsDigits fraction) :
      IsLexeme (.literal (.float (.ofDecimal false (Number.Binary64.decimalOf whole fraction 0))))
        (whole ++ '.' :: fraction)
  | string {inside : List Char} (inside_ok : IsStringInside inside) :
      IsLexeme (.literal (.str (String.ofList inside))) ('"' :: inside ++ ['"'])
  | char {inside : List Char} (inside_ok : IsCharInside inside) :
      IsLexeme (.literal (.char (String.ofList inside))) ('\'' :: inside ++ ['\''])
  | symbol {text : String} {k : Kind} (mem : (text, k) ∈ symbols) : IsLexeme k text.toList

/-- A lexeme could not be longer than it is in front of `rest`. -/
structure Longest (lexeme rest : List Char) : Prop where
  /-- No word goes on, with or without a backslash in front. -/
  word : isWord lexeme = true ∨ lexeme.head? = some '\\' →
    ∀ c ∈ rest.head?, Item.isWordChar c = false
  /-- No number goes on with a digit. -/
  number : (∃ d ∈ lexeme.head?, d.isDigit = true) → ∀ c ∈ rest.head?, c.isDigit = false
  /-- No integer goes on with a fraction. -/
  integer : IsDigits lexeme → ∀ d later, rest = '.' :: d :: later → d.isDigit = false
  /-- No operator goes on with an equality sign. -/
  operator : lexeme ∈ [['<'], ['>'], ['='], ['!']] → rest.head? ≠ some '='
  /-- No division sign begins a comment. -/
  slash : lexeme = ['/'] → rest.head? ≠ some '/' ∧ rest.head? ≠ some '*'

/-- **A text that begins at a position, and its tokens**: every lexeme stands behind blanks and
comments, belongs to the class of its token and is as long as it can be. Behind the last one only
blanks and comments are left. -/
inductive Tokenized : Position → List Char → List Token → Prop where
  | finish {pos : Position} {gap : List Char} (trivia : Trivia [] gap) :
      Tokenized pos gap [⟨.eof, "", pos.after gap⟩]
  | lexeme {pos : Position} {gap lexeme rest : List Char} {k : Kind} {tokens : List Token}
      (trivia : Trivia (lexeme ++ rest) gap) (isLexeme : IsLexeme k lexeme)
      (longest : Longest lexeme rest) (later : Tokenized (pos.after (gap ++ lexeme)) rest tokens) :
      Tokenized pos (gap ++ (lexeme ++ rest))
        (⟨k, String.ofList lexeme, pos.after gap⟩ :: tokens)

end Pseudocode
