import Isolate.Number

/-!
# Rounding

A number other than zero has a highest digit; its place is the exponent of the number, to base two or ten. Rounding
keeps a number of digits from the highest one on. Binary rounding goes to the nearest number, and from the middle to the
even one; decimal rounding goes to the nearest number too, but from the middle away from zero.
-/

namespace Isolate

/-- Two to an integer power. -/
def twoTo : Int → Rat
  | .ofNat n => (Nat.pow 2 n : Rat)
  | .negSucc n => 1 / (Nat.pow 2 (n + 1) : Rat)

namespace Rounding

def magnitude (q : Rat) : Rat := if q < 0 then -q else q

/-- The nearest integer, and in the middle the even one. -/
def nearestEven (q : Rat) : Int :=
  let n := q.floor
  let rest := q - n
  if rest < 1 / 2 then n else if 1 / 2 < rest then n + 1 else if n % 2 = 0 then n else n + 1

/-- The place of the highest binary digit of a positive number. -/
def binaryExponent (q : Rat) : Int :=
  let e : Int := q.num.natAbs.log2 - q.den.log2
  if q < twoTo e then e - 1 else e

/-- Keeps `bits` binary digits. -/
def binary (bits : Nat) (q : Rat) : Rat :=
  if q = 0 then 0
  else
    let unit := twoTo (binaryExponent (magnitude q) - bits + 1)
    nearestEven (q / unit) * unit

/-- How many decimal digits a natural number has. -/
def width (n : Nat) : Nat := (toString n).length

/-- The place of the highest decimal digit of a positive number. -/
def decimalExponent (q : Rat) : Int :=
  let e : Int := width q.num.natAbs - width q.den
  if q < Number.tenTo e then e - 1 else e

/-- Keeps `digits` decimal digits. -/
def decimal (digits : Nat) (q : Rat) : Rat :=
  if q = 0 then 0
  else
    let unit := Number.tenTo (decimalExponent (magnitude q) - digits + 1)
    let size := (magnitude q / unit + 1 / 2).floor * unit
    if q < 0 then -size else size

/-- How many binary digits there are to a decimal digit. -/
def bitsPerDigit : Rat := 33219280948873626 / 10000000000000000

/-- The binary digits that keep a number of decimal digits, with one to spare. -/
def bitsFor (digits : Nat) : Nat := max 1 (nearestEven ((digits + 1 : Nat) * bitsPerDigit)).toNat

/-- The decimal digits that are shown of a number of binary digits. -/
def digitsOf (bits : Nat) : Nat := max 1 (nearestEven ((bits : Rat) / bitsPerDigit) - 1).toNat

end Rounding

end Isolate
