import Pseudocode.Literal
import Pseudocode.Operator
import Pseudocode.Position

/-!
# Tokens

A token is a lexeme of the source with its kind and the position of its first character.
The kind carries everything that later stages look at; the lexeme and the position serve
messages only.
-/
namespace Pseudocode

/-- The words that begin a function or a statement. -/
inductive Keyword where
  | fn
  | ifKw
  | whileKw
  | forKw
  | returnKw
  deriving DecidableEq

/-- What a token is. -/
inductive Kind where
  /-- The end of the input. -/
  | eof
  | keyword (word : Keyword)
  /-- The assignment sign, `gets` or `=`. -/
  | gets
  | name (text : String)
  | literal (value : Literal)
  | arith (op : ArithOp)
  | rel (op : RelOp)
  | logic (op : LogicOp)
  /-- Negation of a condition. -/
  | bang
  | leftParen
  | rightParen
  | leftCurly
  | rightCurly
  | semicolon
  | comma
  deriving DecidableEq

/-- A lexeme with its kind and its place in the source. -/
structure Token where
  kind : Kind
  lexeme : String
  pos : Position
  deriving DecidableEq

/-- The canonical spelling of a keyword. -/
def Keyword.spelling : Keyword → String
  | .fn => "\\Fn"
  | .ifKw => "\\If"
  | .whileKw => "\\While"
  | .forKw => "\\For"
  | .returnKw => "\\KwRet"

namespace Kind

/-- How a trace shows a literal: with the name of its class. -/
def describeLiteral : Literal → String
  | .int n => "Integer(" ++ (Literal.int n).text ++ ")"
  | .float x => "Float(" ++ (Literal.float x).text ++ ")"
  | .str s => "String(" ++ (Literal.str s).text ++ ")"
  | .char s => "Char(" ++ (Literal.char s).text ++ ")"
  | .bool b => "Bool(" ++ (Literal.bool b).text ++ ")"

/-- How a trace shows a kind. -/
def describe : Kind → String
  | .eof => "<EOF>"
  | .keyword word => word.spelling
  | .gets => "gets"
  | .name text => "Identifier(" ++ text ++ ")"
  | .literal value => describeLiteral value
  | .arith op => op.symbol
  | .rel op => op.symbol
  | .logic op => op.symbol
  | .bang => "!"
  | .leftParen => "("
  | .rightParen => ")"
  | .leftCurly => "\x7b"
  | .rightCurly => "\x7d"
  | .semicolon => ";"
  | .comma => ","

/-- The name that an identifier token carries. -/
def name? : Kind → Option String
  | .name text => some text
  | _ => none

/-- Whether a token is a comparison. -/
def isRelational : Kind → Bool
  | .rel _ => true
  | _ => false

/-- Whether a token is an arithmetic operator. -/
def isArithmetic : Kind → Bool
  | .arith _ => true
  | _ => false

/-- How tightly a token binds as an arithmetic operator; all other tokens have `-1`. -/
def precedence : Kind → Int
  | .arith op => op.precedence
  | _ => -1

/-- The arithmetic operators are the tokens that bind at all. -/
theorem isArithmetic_iff_precedence_nonneg (k : Kind) :
    k.isArithmetic = true ↔ 0 ≤ k.precedence := by
  cases k <;> simp [isArithmetic, precedence]

end Kind

end Pseudocode
