import Isolate.Number

/-!
# Approximate numbers

A complex number as two integers that count units of two to the minus 512. The operations are exact up to a few units,
relative to the size of what they work on; roots and logarithms take the branch with the greatest real part or, for
logarithms, the angle above minus pi and up to pi. There is no result where a function has none, and none where the
result would be out of proportion.
-/

namespace Isolate

structure Approx where
  re : Int
  im : Int
  deriving DecidableEq, Repr, Inhabited

namespace Approx

/-- How many binary places are kept. -/
def places : Nat := 512

/-- The integer that stands for one. -/
def unit : Int := Nat.pow 2 places

def real (n : Int) : Approx := ⟨n, 0⟩

def ofInt (n : Int) : Approx := real (n * unit)

def ofRat (q : Rat) : Approx := real (q.num * unit / q.den)

def zero : Approx := ⟨0, 0⟩

def one : Approx := real unit

def imaginary : Approx := ⟨0, unit⟩

/-! ## Arithmetic -/

def add (z w : Approx) : Approx := ⟨z.re + w.re, z.im + w.im⟩

def neg (z : Approx) : Approx := ⟨-z.re, -z.im⟩

def sub (z w : Approx) : Approx := z.add w.neg

/-- Drops the places that a product of two integers has too many. -/
def shorten (n : Int) : Int := n / unit

def mul (z w : Approx) : Approx :=
  ⟨shorten (z.re * w.re - z.im * w.im), shorten (z.re * w.im + z.im * w.re)⟩

def divInt (z : Approx) (n : Int) : Approx := ⟨z.re / n, z.im / n⟩

def half (z : Approx) : Approx := z.divInt 2

/-- A number times the square root of minus one. -/
def turn (z : Approx) : Approx := ⟨-z.im, z.re⟩

/-- The square of the size, in units squared. -/
def normSq (z : Approx) : Nat := z.re.natAbs * z.re.natAbs + z.im.natAbs * z.im.natAbs

def div? (z w : Approx) : Option Approx :=
  let n : Int := w.normSq
  if n = 0 then none
  else some ⟨(z.re * w.re + z.im * w.im) * unit / n, (z.im * w.re - z.re * w.im) * unit / n⟩

/-- Parts that are no more than traces of rounding are dropped. -/
def settle (z : Approx) : Approx :=
  let part (n : Int) : Int := if n.natAbs < Nat.pow 2 200 then 0 else n
  ⟨part z.re, part z.im⟩

/-- The greatest binary place in front of the point at which a part has a digit, and zero for small numbers. -/
def magnitude (z : Approx) : Nat := (max z.re.natAbs z.im.natAbs / unit.toNat).log2

/-- The places in front of the point that a result may have. -/
def limit : Nat := 100000

/-! ## Roots -/

/-- One improvement after the other of a number that is at least the square root of `n`. -/
def squareRootFrom (n : Nat) : Nat → Nat → Nat
  | 0, r => r
  | fuel + 1, r =>
    let better := (r + n / r) / 2
    if better < r then squareRootFrom n fuel better else r

/-- The square root, rounded down. -/
def squareRoot (n : Nat) : Nat := if n = 0 then 0 else squareRootFrom n (n.log2 + 2) (Nat.pow 2 (n.log2 / 2 + 1))

/-- The size, in units. -/
def abs (z : Approx) : Nat := squareRoot z.normSq

/-- The square root, from the part that does not suffer from cancelling. -/
def sqrt (z : Approx) : Approx :=
  let z := z.settle
  let size : Int := z.abs
  let root (n : Int) : Int := squareRoot ((n * unit / 2).toNat)
  let other (part : Int) : Int := if part = 0 then 0 else z.im * unit / (2 * part)
  if 0 ≤ z.re then
    let re := root (size + z.re)
    ⟨re, other re⟩
  else
    let im := root (size - z.re)
    let im := if z.im < 0 then -im else im
    ⟨other im, im⟩

/-! ## The exponential function -/

/-- One plus `z / n` times (one plus `z / (n + 1)` times (…)), to the term with `n + count`. -/
def nested (z : Approx) : Nat → Nat → Approx
  | 0, _ => one
  | count + 1, n => one.add ((z.mul (nested z count (n + 1))).divInt n)

def squareTimes : Nat → Approx → Approx
  | 0, z => z
  | k + 1, z => squareTimes k (z.mul z)

/-- The exponential function: its series for a number that has been halved often, and then squares. -/
def exp? (z : Approx) : Option Approx :=
  if limit < z.magnitude.succ ∨ limit < (z.re / unit).natAbs then none
  else
    let halvings := z.magnitude + 10
    some (squareTimes halvings (nested (z.divInt (Nat.pow 2 halvings)) 48 1))

/-! ## The logarithm -/

/-- Takes square roots until the number is close to one; gives their count. -/
def rootsToOne : Nat → Approx → Approx × Nat
  | 0, z => (z, 0)
  | fuel + 1, z =>
    if (z.sub one).abs < (unit / 64).toNat then (z, 0)
    else
      let (w, k) := rootsToOne fuel z.sqrt
      (w, k + 1)

/-- The sum of the odd powers of a number, each over its exponent, from `n` on. -/
def oddSeries (square : Approx) : Nat → Nat → Approx → Approx
  | 0, _, _ => zero
  | count + 1, n, power => (power.divInt n).add (oddSeries square count (n + 2) (power.mul square))

def log? (z : Approx) : Option Approx :=
  let z := z.settle
  if z = zero then none
  else do
    let (w, k) := rootsToOne 64 z
    let ratio ← (w.sub one).div? (w.add one)
    let sum := oddSeries (ratio.mul ratio) 40 1 ratio
    let scale : Int := Nat.pow 2 (k + 1)
    return ⟨sum.re * scale, sum.im * scale⟩

/-- Half of the length of the unit circle. -/
def pi : Approx := real (((real (-unit)).log?.getD zero).im)

/-! ## Powers -/

/-- Powers with natural exponents, by squares. -/
def natPow (z : Approx) : Nat → Nat → Approx
  | 0, _ => one
  | fuel + 1, n =>
    if n = 0 then one
    else
      let root := natPow z fuel (n / 2)
      if n % 2 = 0 then root.mul root else (root.mul root).mul z

/-- A power with an integer exponent. -/
def intPow? (z : Approx) (n : Int) : Option Approx :=
  if n = 0 then some one
  else if limit < (z.magnitude + 1) * n.natAbs then none
  else
    let power := z.natPow (n.natAbs.log2 + 1) n.natAbs
    if n < 0 then one.div? power else some power

/-- A power; with an exponent that is no integer, by way of the logarithm. -/
def pow? (z w : Approx) : Option Approx :=
  if w.im = 0 ∧ w.re % unit = 0 then z.intPow? (w.re / unit)
  else if z.settle = zero then if 0 < w.re then some zero else none
  else do (w.mul (← z.log?)).exp?

end Approx

end Isolate
