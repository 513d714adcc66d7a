/-!
# Blanks

The characters that count as blank around a number or a piece of text.
-/

namespace Isolate.Text

/-- Space, tab, the line and page breaks, the separators of information and the wide blanks. -/
def isBlank (c : Char) : Bool :=
  let n := c.toNat
  (9 ≤ n && n ≤ 13) || (28 ≤ n && n ≤ 32) || n == 0x85 || n == 0xa0 || n == 0x1680 || (0x2000 ≤ n && n ≤ 0x200a) ||
    n == 0x2028 || n == 0x2029 || n == 0x202f || n == 0x205f || n == 0x3000

/-- The blanks that may stand around an integer: all but the separators of information. -/
def isMargin (c : Char) : Bool := isBlank c && !(28 ≤ c.toNat && c.toNat ≤ 31)

/-- Leaves out the characters of a kind at both ends. -/
def trimBy (p : Char → Bool) (cs : List Char) : List Char := ((cs.dropWhile p).reverse.dropWhile p).reverse

/-- Leaves out the blanks at both ends. -/
def trim (cs : List Char) : List Char := trimBy isBlank cs

end Isolate.Text
