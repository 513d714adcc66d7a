import Isolate.Number

/-!
# Polynomials

A polynomial is a list of monomials with coefficients other than zero, greatest monomial first. A monomial has an
exponent for each indeterminate; all monomials of a polynomial have the same number of exponents.

* `Polynomial.gcd` is the greatest common divisor of two polynomials. It is found for the first indeterminate by
  remainders, where the coefficients are polynomials in the others.
-/

namespace Isolate

/-- Exponents of the indeterminates, one after the other. -/
abbrev Exponents := List Nat

abbrev Polynomial := List (Exponents × Rat)

namespace Polynomial

/-! ## Sums and products -/

def addTerm (t : Exponents × Rat) : Polynomial → Polynomial
  | [] => if t.2 = 0 then [] else [t]
  | (m, c) :: rest =>
    match Ord.compare t.1 m with
    | .lt => (m, c) :: addTerm t rest
    | .eq => if c + t.2 = 0 then rest else (m, c + t.2) :: rest
    | .gt => if t.2 = 0 then (m, c) :: rest else t :: (m, c) :: rest

def ofTerms (ts : List (Exponents × Rat)) : Polynomial := ts.foldl (fun p t => addTerm t p) []

def add (p q : Polynomial) : Polynomial := q.foldl (fun p t => addTerm t p) p

def mulTerm (t : Exponents × Rat) (p : Polynomial) : Polynomial :=
  if t.2 = 0 then [] else p.map fun (m, c) => (m.zipWith (· + ·) t.1, c * t.2)

def scale (c : Rat) (p : Polynomial) : Polynomial := if c = 0 then [] else p.map fun (m, d) => (m, c * d)

def mul (p q : Polynomial) : Polynomial := q.foldl (fun s t => add s (mulTerm t p)) []

def sub (p q : Polynomial) : Polynomial := add p (scale (-1) q)

/-- One as a polynomial in so many indeterminates. -/
def one (indeterminates : Nat) : Polynomial := [(List.replicate indeterminates 0, 1)]

def leadingCoefficient (p : Polynomial) : Rat := (p.head?.map (·.2)).getD 0

/-- The rational multiple with the leading coefficient one. -/
def monic (p : Polynomial) : Polynomial := scale (1 / leadingCoefficient p) p

/-- The positive number that leaves coefficients without a common divisor. -/
def content (p : Polynomial) : Rat :=
  mkRat (p.foldl (fun g (_, c) => g.gcd c.num.natAbs) 0 : Nat) (p.foldl (fun l (_, c) => l.lcm c.den) 1)

/-! ## Exact division -/

/-- The quotient of two monomials. -/
def divMonomial? (m n : Exponents) : Option Exponents :=
  if (m.zip n).all fun (a, b) => b ≤ a then some (m.zipWith (· - ·) n) else none

/-- Divides the leading terms, and goes on with what is left. -/
def divWithin (divisor : Polynomial) : Nat → Polynomial → Polynomial
  | 0, _ => []
  | fuel + 1, p =>
    match p, divisor with
    | (m, c) :: _, (n, d) :: _ =>
      match divMonomial? m n with
      | some k =>
        let t := (k, c / d)
        t :: divWithin divisor fuel (sub p (mulTerm t divisor))
      | none => []
    | _, _ => []

/-- The quotient by a divisor. -/
def div (p divisor : Polynomial) : Polynomial :=
  divWithin divisor ((p.foldl (fun d (m, _) => max d (m.foldl (· + ·) 0)) 0 + 1) * (p.length + 1) * 8) p

/-! ## The first indeterminate -/

/-- The exponent of the first indeterminate in the leading term. -/
def degree (p : Polynomial) : Nat := ((p.head?.bind fun t => t.1.head?)).getD 0

/-- The coefficients of the powers of the first indeterminate, with their exponents. -/
def coefficients (p : Polynomial) : List (Nat × Polynomial) :=
  p.foldr (fun (m, c) rest =>
    match rest with
    | (d, q) :: others =>
      if d = m.headD 0 then (d, (m.tail, c) :: q) :: others else (m.headD 0, [(m.tail, c)]) :: rest
    | [] => [(m.headD 0, [(m.tail, c)])]) []

/-- A polynomial in the others, times a power of the first indeterminate. -/
def lift (exponent : Nat) (p : Polynomial) : Polynomial := p.map fun (m, c) => (exponent :: m, c)

/-- The coefficient of the highest power of the first indeterminate. -/
def leadingPart (p : Polynomial) : Polynomial := (coefficients p).head?.map (·.2) |>.getD []

/-- Takes off multiples of the divisor until the degree is below its own; before that, multiplies by the leading part
of the divisor. -/
def remainderWithin (divisor : Polynomial) : Nat → Polynomial → Polynomial
  | 0, p => p
  | fuel + 1, p =>
    if p.isEmpty || degree p < degree divisor then p
    else
      remainderWithin divisor fuel
        (sub (mul (lift 0 (leadingPart divisor)) p) (mul (lift (degree p - degree divisor) (leadingPart p)) divisor))

/-! ## Common divisors -/

/-- The greatest common divisor but for a rational factor, of polynomials in so many indeterminates. -/
def gcdWithin : Nat → Nat → Polynomial → Polynomial → Polynomial
  | 0, _, _, _ => []
  | _ + 1, 0, _, _ => one 0
  | fuel + 1, n + 1, p, q =>
    let common (p : Polynomial) : Polynomial :=
      (coefficients p).foldl (fun g (_, c) => if g.isEmpty then c else gcdWithin fuel n g c) []
    let primitive (p : Polynomial) : Polynomial := monic (div p (lift 0 (common p)))
    let rec euclid : Nat → Polynomial → Polynomial → Polynomial
      | 0, p, _ => p
      | k + 1, p, q =>
        if q.isEmpty then p
        else if degree q = 0 then one (n + 1)
        else
          let r := remainderWithin q (degree p + 1) p
          euclid k q (if r.isEmpty then [] else primitive r)
    if p.isEmpty then q
    else if q.isEmpty then p
    else
      let parts := if degree p < degree q then (primitive q, primitive p) else (primitive p, primitive q)
      mul (lift 0 (gcdWithin fuel n (common p) (common q))) (euclid (degree p + degree q + 2) parts.1 parts.2)

/-- The greatest common divisor. Where all coefficients are integers, it takes in the greatest integer that divides all
of them and its leading coefficient is positive; else its leading coefficient is one. -/
def gcd (indeterminates : Nat) (p q : Polynomial) : Polynomial :=
  let g := gcdWithin (indeterminates + 2) indeterminates p q
  if (p ++ q).all fun (_, c) => c.den = 1 then
    let g := scale (1 / content g) g
    let g := if leadingCoefficient g < 0 then scale (-1) g else g
    scale (mkRat ((content p).num.gcd (content q).num) 1) g
  else monic g

end Polynomial

end Isolate
