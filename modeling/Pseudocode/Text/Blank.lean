/-!
# Blank characters

The characters that separate lexemes and that are trimmed from the name of a type: the 25
code points with the Unicode property `White_Space`.
-/
namespace Pseudocode.Text

/-- The ranges of code points that are blank, in ascending order, with both ends included. -/
def blankRanges : List (Nat × Nat) :=
  [(0x09, 0x0D), (0x20, 0x20), (0x85, 0x85), (0xA0, 0xA0), (0x1680, 0x1680), (0x2000, 0x200A),
    (0x2028, 0x2029), (0x202F, 0x202F), (0x205F, 0x205F), (0x3000, 0x3000)]

example : (blankRanges.map fun (lo, hi) => hi + 1 - lo).sum = 25 := rfl

/-- Whether a character is blank. -/
def isBlank (c : Char) : Bool :=
  blankRanges.any fun (lo, hi) => lo ≤ c.toNat && c.toNat ≤ hi

/-- Drops the blank characters at both ends. -/
def trim (text : List Char) : List Char :=
  ((text.dropWhile isBlank).reverse.dropWhile isBlank).reverse

/-- Drops the blank characters at both ends of a string. -/
def trimmed (text : String) : String := String.ofList (trim text.toList)

end Pseudocode.Text
