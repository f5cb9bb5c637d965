import Pseudocode.Number.Binary64
import Pseudocode.Number.Digits

/-!
# Shortest decimals

The decimal that stands for a floating-point number in text: the fewest digits that read
back as the same number, and of those the closest. For each number of digits only the two
neighbours of the value on that decimal grid are tried, because a grid point that reads back
has a neighbour of the value that does.
-/
namespace Pseudocode.Number

/-- The number of decimal digits of a positive number; zero has none. -/
def decimalLength (n : Nat) : Nat := if n = 0 then 0 else (digits n).length

namespace Magnitude

/-- The place of the decimal point before the first digit: the least `k` for which the
magnitude lies below `10 ^ k`. -/
def point (m : Magnitude) : Int :=
  if unitsPerOne ≤ m.units then decimalLength (m.units / unitsPerOne)
  else 1 - (decimalLength ((unitsPerOne - 1) / m.units) : Int)

/-- The magnitude as a ratio in steps of `10 ^ p`. -/
def inSteps (m : Magnitude) (p : Int) : Nat × Nat :=
  match p with
  | .ofNat k => (m.units, unitsPerOne * Nat.pow 10 k)
  | .negSucc k => (m.units * Nat.pow 10 (k + 1), unitsPerOne)

/-- Whether a decimal reads back as this magnitude. -/
def readsBack (m : Magnitude) (d : Decimal) : Bool := d.magnitude? = some m

/-- Of two decimals, one that passes a test; the closer one if both do. -/
def choose? (test : Decimal → Bool) (below above closer : Decimal) : Option Decimal :=
  match test below, test above with
  | true, true => some closer
  | true, false => some below
  | false, true => some above
  | false, false => none

/-- A decimal of `n` digits that reads back as the magnitude. If both neighbours do, the
closer one is taken, and the larger of two equally close ones. -/
def withDigits? (m : Magnitude) (n : Nat) : Option Decimal :=
  let p := m.point - n
  let steps := m.inSteps p
  let below : Decimal := ⟨steps.1 / steps.2, p⟩
  let above : Decimal := ⟨steps.1 / steps.2 + 1, p⟩
  choose? m.readsBack below above (if 2 * (steps.1 % steps.2) < steps.2 then below else above)

/-- The exact decimal expansion. -/
def exact (m : Magnitude) : Decimal := ⟨m.units * Nat.pow 5 1074, -1074⟩

/-- The shortest decimal that reads back. Seventeen digits always suffice; the exact
expansion stands behind them, so that no count of digits is needed to see that the result
reads back. -/
def shortest (m : Magnitude) : Decimal :=
  if m.mantissa = 0 then ⟨0, 0⟩
  else ((List.range' 1 17).findSome? m.withDigits?).getD m.exact

end Magnitude

/-- A textual form: where the point may stand, counted from before the first digit, for a
number to be written without an exponent. -/
structure Style where
  leastPoint : Int
  greatestPoint : Int

/-- Drops the zeros at the end of a row of digits. -/
def dropFinalZeros (ds : List Char) : List Char := (ds.reverse.dropWhile (· = '0')).reverse

/-- Digits with a point somewhere before, within or behind them; at least one digit stands
on each side of the point. -/
def positional (ds : List Char) (point : Int) : List Char :=
  match point with
  | .ofNat k =>
    if k = 0 then '0' :: '.' :: ds
    else if ds.length ≤ k then ds ++ List.replicate (k - ds.length) '0' ++ ['.', '0']
    else ds.take k ++ '.' :: ds.drop k
  | .negSucc k => '0' :: '.' :: (List.replicate (k + 1) '0' ++ ds)

/-- One digit, the others behind a point, and the exponent of ten. -/
def scientific (ds : List Char) (point : Int) : List Char :=
  let fraction := ds.drop 1
  ds.take 1 ++ (if fraction.isEmpty then [] else '.' :: fraction) ++
    'e' :: (integerText (point - 1)).toList

/-- A decimal in a style. Zero is `0.0`. -/
def Decimal.text (style : Style) (d : Decimal) : List Char :=
  if d.significand = 0 then ['0', '.', '0']
  else
    let written := digits d.significand
    let point : Int := written.length + d.exponent
    let ds := dropFinalZeros written
    if style.leastPoint ≤ point ∧ point ≤ style.greatestPoint then positional ds point
    else scientific ds point

namespace Binary64

/-- A number in a style. A finite number is written as its shortest decimal. -/
def text (style : Style) : Binary64 → String
  | .finite negative m =>
    String.ofList ((if negative then ['-'] else []) ++ m.shortest.text style)
  | .infinite negative => if negative then "-inf" else "inf"
  | .nan => "NaN"

/-- The decimal of `whole.fraction · 10 ^ exponent`, given as rows of digits. -/
def decimalOf (whole fraction : List Char) (exponent : Int) : Decimal :=
  ⟨ofDigits (whole ++ fraction), exponent - fraction.length⟩

/-- An optional sign and what follows it. -/
def splitSign : List Char → Bool × List Char
  | '-' :: rest => (true, rest)
  | '+' :: rest => (false, rest)
  | rest => (false, rest)

/-- The exponent part of a number: nothing, or a mark and a signed row of digits. -/
def exponentOf? : List Char → Option Int
  | [] => some 0
  | mark :: rest =>
    if mark = 'e' ∨ mark = 'E' then
      let (negative, ds) := splitSign rest
      if ds.isEmpty ∨ !ds.all Char.isDigit then none
      else some (if negative then -(ofDigits ds : Int) else ofDigits ds)
    else none

/-- Reads an unsigned decimal with an optional fraction and exponent. -/
def decimalOf? (cs : List Char) : Option Decimal := do
  let whole := cs.takeWhile Char.isDigit
  let (fraction, rest) := match cs.dropWhile Char.isDigit with
    | '.' :: r => (r.takeWhile Char.isDigit, r.dropWhile Char.isDigit)
    | r => ([], r)
  if whole.isEmpty ∧ fraction.isEmpty then none
  else
    let exponent ← exponentOf? rest
    some (decimalOf whole fraction exponent)

/-- Reads the text of a number: a signed decimal, an infinity or NaN. -/
def ofText? (s : String) : Option Binary64 :=
  let (negative, cs) := splitSign s.toList
  let word := (String.ofList cs).toLower
  if word = "inf" ∨ word = "infinity" then some (.infinite negative)
  else if word = "nan" then some .nan
  else (decimalOf? cs).map (ofDecimal negative)

end Binary64

end Pseudocode.Number
