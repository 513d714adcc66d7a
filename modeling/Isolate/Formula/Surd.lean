import Isolate.Scalar.Basic

/-!
# Roots of rational numbers

A power of a rational number with a rational exponent is a rational number times roots that have none in them. A surd is
such a product: a rational coefficient, and powers of numbers with exponents between zero and one. Roots with the same
exponent stand under one root, and bases with a common divisor are taken apart.

* `Surd.power` is the power of one number, `Surd.collect` the product of powers of many.
-/

namespace Isolate

/-- A rational number times powers of other ones with exponents between zero and one. A negative base stays under the
root; a root of minus one alone has minus one as its base. -/
structure Surd where
  coefficient : Rat
  roots : List (Rat × Rat)
  deriving DecidableEq, Repr, Inhabited

namespace Surd

/-! ## Roots of natural numbers -/

/-- The greatest number whose `k`-th power is at most `n`, between two bounds. -/
def rootBetween (k n : Nat) : Nat → Nat → Nat → Nat
  | 0, low, _ => low
  | fuel + 1, low, high =>
    if high ≤ low + 1 then low
    else
      let middle := (low + high) / 2
      if Nat.pow middle k ≤ n then rootBetween k n fuel middle high else rootBetween k n fuel low middle

/-- The `k`-th root, rounded down. -/
def natRoot (k n : Nat) : Nat := rootBetween k n (n.log2 + 2) 0 (Nat.pow 2 (n.log2 / max k 1 + 1))

/-- The root of a number that is a power. -/
def exactRoot? (k n : Nat) : Option Nat :=
  let r := natRoot k n
  if Nat.pow r k = n then some r else none

/-- A number as a power with the greatest exponent, if that is above one. -/
def perfectPower? (n : Nat) : Option (Nat × Nat) :=
  ((List.range (n.log2 + 1)).reverse.filter (1 < ·)).findSome? fun k => (exactRoot? k n).map (·, k)

/-- Takes a divisor out of a number as often as it goes. -/
def takeOut (d : Nat) : Nat → Nat → Nat × Nat
  | 0, n => (0, n)
  | fuel + 1, n =>
    if 1 < d && 0 < n && n % d = 0 then
      let (k, n) := takeOut d fuel (n / d)
      (k + 1, n)
    else (0, n)

/-- The prime divisors of a number, from `d` on, with their multiplicities. -/
def primesFrom : Nat → Nat → Nat → List (Nat × Nat)
  | 0, _, n => if 1 < n then [(n, 1)] else []
  | fuel + 1, d, n =>
    if n < d * d then if 1 < n then [(n, 1)] else []
    else
      let (k, n) := takeOut d n.log2.succ n
      if k = 0 then primesFrom fuel (d + 1) n else (d, k) :: primesFrom fuel (d + 1) n

/-- A number as a product of primes; a part without a divisor below about thirty thousand counts as prime. -/
def primes (n : Nat) : List (Nat × Nat) := primesFrom 32768 2 n

/-! ## Powers of one number -/

/-- The whole part and the rest of an exponent. -/
def splitExponent (e : Rat) : Int × Rat := (e.floor, e - e.floor)

/-- A power of minus one: its sign, and the exponent that is left. -/
def turn (e : Rat) : Rat × Rat :=
  let (n, rest) := splitExponent e
  (if n % 2 = 0 then 1 else -1, rest)

def root (b e : Rat) : List (Rat × Rat) := if e = 0 ∨ b = 1 then [] else [(b, e)]

/-- A natural number above one to a positive power that is no integer. Its divisors leave the root as far as they can;
nothing happens to a number none of whose divisors does. -/
def natPower (n : Nat) (e : Rat) : Surd :=
  match exactRoot? e.den n with
  | some r => ⟨Scalar.ratPow r e.num, []⟩
  | none =>
    let divisors := ((perfectPower? n).map fun p => [p]).getD (primes n)
    let parts := divisors.map fun (p, k) =>
      let k := k * e.num.toNat
      (p, k / e.den, k % e.den)
    let outside : Nat := parts.foldl (fun s (p, k, _) => s * Nat.pow p k) 1
    let shared := (parts.filter fun (_, _, k) => 0 < k ∧ k.gcd e.den ≠ 1).map fun (p, _, k) =>
      ((p : Rat), mkRat k e.den)
    let others := (parts.filter fun (_, _, k) => 0 < k ∧ k.gcd e.den = 1).map fun (p, _, k) => (p, k)
    let common : Nat := others.foldl (fun g (_, k) => g.gcd k) 0
    let inside : Nat := others.foldl (fun s (p, k) => s * Nat.pow p (k / common)) 1
    ⟨outside, shared ++ root inside (mkRat common e.den)⟩

def mul (s t : Surd) : Surd := ⟨s.coefficient * t.coefficient, s.roots ++ t.roots⟩

def scale (c : Rat) (s : Surd) : Surd := ⟨c * s.coefficient, s.roots⟩

/-- A positive number to a power that is no integer, as a product whose roots have not been brought together. -/
def positivePower (q e : Rat) : Surd :=
  let (q, e) := if e < 0 then (1 / q, -e) else (q, e)
  let above : Surd := if q.num = 1 then ⟨1, []⟩ else natPower q.num.toNat e
  if q.den = 1 then above
  else
    let whole : Int := e.floor + 1
    (above.mul (natPower q.den (whole - e))).scale (1 / Scalar.ratPow q.den whole)

/-! ## Products -/

/-- Multiplies a root into roots, under the one with the same exponent. -/
def addRoot (r : Rat × Rat) : List (Rat × Rat) → List (Rat × Rat)
  | [] => [r]
  | (b, e) :: rest => if e = r.2 then (b * r.1, e) :: rest else (b, e) :: addRoot r rest

/-- Multiplies a power into powers, those of one base by adding exponents. -/
def addPower (r : Rat × Rat) : List (Rat × Rat) → List (Rat × Rat)
  | [] => [r]
  | (b, e) :: rest => if b = r.1 then (b, e + r.2) :: rest else (b, e) :: addPower r rest

def gather (add : Rat × Rat → List (Rat × Rat) → List (Rat × Rat)) (rs into : List (Rat × Rat)) :
    List (Rat × Rat) :=
  rs.foldl (fun into r => add r into) into

/-- The greatest common divisor of two positive numbers. -/
def gcd (p q : Rat) : Rat := mkRat (p.num.gcd q.num) (p.den.lcm q.den)

/-- An exponent above one gives its whole part away. -/
def reduce (b e : Rat) : Rat × List (Rat × Rat) :=
  let (n, rest) := splitExponent e
  (Scalar.ratPow b n, root b rest)

/-- What comes of taking common divisors out of a base and others. -/
structure Parted where
  /-- What is left of the base. -/
  base : Rat
  /-- The product of the divisors with what each of them gives away. -/
  shared : Surd
  /-- The others without the divisors. -/
  others : List (Rat × Rat)

/-- Takes common divisors out of a base and each of the others. -/
def takeCommon (b e : Rat) : List (Rat × Rat) → Parted
  | [] => ⟨b, ⟨1, []⟩, []⟩
  | (c, f) :: rest =>
    let g := gcd b c
    if b = 1 ∨ g = 1 then
      let p := takeCommon b e rest
      { p with others := (c, f) :: p.others }
    else
      let (k, more) := reduce g (e + f)
      let p := takeCommon (b / g) e rest
      ⟨p.base, Surd.mul ⟨k, more⟩ p.shared, (c / g, f) :: p.others⟩

/-- Takes the common divisors out of all the bases, works out each root, and multiplies those with the same exponent. -/
def separate : Nat → List (Rat × Rat) → Surd → Surd
  | 0, roots, done => done.mul ⟨1, roots⟩
  | _ + 1, [], done => done
  | fuel + 1, (b, e) :: rest, done =>
    if b = 1 then separate fuel rest done
    else
      let p := takeCommon b e rest
      let own : Surd := if p.base = 1 then ⟨1, []⟩ else positivePower p.base e
      separate fuel (p.others ++ p.shared.roots)
        ⟨done.coefficient * p.shared.coefficient * own.coefficient, gather addRoot own.roots done.roots⟩

/-- Multiplies by a power of minus one. A root of it other than the square root goes under a root with the same
exponent, if there is one. -/
def turned (e : Rat) (s : Surd) : Surd :=
  let (sign, rest) := turn e
  let roots :=
    if rest = 0 then s.roots
    else if rest ≠ 1 / 2 ∧ s.roots.any (·.2 = rest) then
      s.roots.map fun (b, e) => (if e = rest then -b else b, e)
    else (-1, rest) :: s.roots
  ⟨sign * s.coefficient, roots⟩

/-- The product of powers of positive numbers, and of a power of minus one: exponents of equal bases are added, bases
with equal exponents are multiplied, and then common divisors are taken out. -/
def collect (powers : List (Rat × Rat)) (minusOne : Rat) : Surd :=
  let reduced := (gather addRoot (gather addPower powers []) []).map fun (b, e) => reduce b e
  let coefficient := reduced.foldl (fun s r => s * r.1) 1
  (separate (16 + 16 * powers.length) (reduced.flatMap (·.2)) ⟨coefficient, []⟩).turned minusOne

/-- A number other than zero to a power that is no integer. A negative number whose root does not simplify stays under
it, whole. -/
def power (q e : Rat) : Surd :=
  let size := if q < 0 then -q else q
  if 0 ≤ q then
    let s := positivePower size e
    (collect s.roots 0).scale s.coefficient
  else
    let whole : Surd := ⟨1, [(q, e)]⟩
    let s := positivePower size e
    if 0 < e ∧ e < 1 ∧ e ≠ 1 / 2 ∧ q.den = 1 ∧ s = ⟨1, [(size, e)]⟩ ∧ size ≠ 1 then whole
    else (collect s.roots e).scale s.coefficient

end Surd

end Isolate
