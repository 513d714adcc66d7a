import Isolate.Formula.Minus
import Isolate.Formula.Arithmetic
import Isolate.Formula.Polynomial

/-!
# Common divisors of formulas

A formula is a polynomial in what it cannot be taken apart into: names, roots, reciprocals, calls. The greatest common
divisor of two formulas is that of their polynomials (`Formula.commonDivisor`). A sum whose terms have factors in common
is written with these in front by `Formula.factored`.
-/

namespace Isolate.Formula

/-! ## Formulas as polynomials -/

/-- The products of the terms of two formulas, added up. -/
def distributed (a b : Formula) : Formula :=
  plus (a.terms.flatMap fun s => b.terms.map fun t => times [s, t])

/-- The greatest power of a sum that is multiplied out. -/
def greatestPower : Nat := 64

/-- A power of a sum, multiplied out. -/
def distributedPower (a : Formula) : Nat → Formula
  | 0 => one
  | n + 1 => distributed a (distributedPower a n)

mutual

/-- Multiplies out products and natural powers of sums, and takes sums in exponents apart. -/
def expanded : Formula → Formula
  | sum as => plus (expandedEach as)
  | product as => (expandedEach as).foldl distributed one
  | power b e =>
    let b := expanded b
    match b, e with
    | sum ts, number (.exact q) =>
      if q.den = 1 ∧ 0 < q ∧ q.num.natAbs ≤ greatestPower then distributedPower (sum ts) q.num.natAbs
      else raised (sum ts) e
    | b, sum es => times (es.map fun e => raised b e)
    | b, e => raised b e
  | a => a

def expandedEach : List Formula → List Formula
  | [] => []
  | a :: as => expanded a :: expandedEach as

end

/-- A factor as a power of something that is not taken apart further, with a natural exponent. -/
def indeterminatePower (a : Formula) : Formula × Nat :=
  let (b, e) := a.splitPower
  let ofRoot (root : Formula) (p : Int) : Formula × Nat :=
    if p < 0 then (raised root (exact (-1)), p.natAbs) else (root, p.natAbs)
  match e with
  | number (.exact e) => ofRoot (if e.den = 1 then b else raised b (exact (1 / e.den))) e.num
  | number _ => (a, 1)
  | e =>
    match e.splitCoefficient with
    | (.exact c, rest) =>
      if c = 1 then (a, 1) else ofRoot (raised b (keeping (1 / c.den) rest)) c.num
    | _ => (a, 1)

/-- A term as a number and powers. -/
structure Term where
  coefficient : Scalar
  powers : List (Formula × Nat)

def Term.of (a : Formula) : Term :=
  let (c, rest) := a.splitCoefficient
  ⟨c, (rest.factors.filter fun f => !f.isOne).map indeterminatePower⟩

/-! ## The order of indeterminates -/

/-- Single letters come in the order of `x` to `z`, `p` to `w`, `a` to `o`, and before all other names. -/
def letterRank (stem : String) : Nat :=
  match stem.toList with
  | [c] =>
    let n := c.toNat
    if 'x'.toNat ≤ n ∧ n ≤ 'z'.toNat then 100 + n
    else if 'p'.toNat ≤ n ∧ n ≤ 'w'.toNat then 300 + n
    else if 'a'.toNat ≤ n ∧ n ≤ 'o'.toNat then 500 + n
    else 1000
  | _ => 1000

/-- A name and the number at its end. -/
def splitName (s : String) : String × Nat :=
  let digits := (s.toList.reverse.takeWhile Char.isDigit).reverse
  (String.ofList (s.toList.take (s.length - digits.length)), Number.ofDigits (digits.map fun c => c.toNat - '0'.toNat))

/-- Names come first. -/
def compareIndeterminate : Formula → Formula → Ordering
  | name s, name t =>
    let (s, m) := splitName s
    let (t, n) := splitName t
    (Ord.compare (letterRank s) (letterRank t)).then ((Ord.compare s t).then (Ord.compare m n))
  | a, b => compareBase a b

/-- Adds something that is not there yet. -/
def addNew (as : List Formula) (a : Formula) : List Formula := if as.any (same a) then as else as ++ [a]

/-- The indeterminates of terms, in order. -/
def indeterminates (ts : List Term) : List Formula :=
  (ts.foldl (fun as t => (t.powers.map (·.1)).foldl addNew as) []).mergeSort fun a b => (compareIndeterminate a b).isLE

/-- The exponents of indeterminates in a term. -/
def exponents (xs : List Formula) (t : Term) : Exponents :=
  xs.map fun x => (t.powers.filter fun p => same p.1 x).foldl (fun n p => n + p.2) 0

/-- The formula of a monomial with a coefficient. -/
def ofMonomial (xs : List Formula) (m : Exponents) (c : Scalar) : Formula :=
  times (number c :: (xs.zip m).map fun (x, n) => raised x (exact n))

/-! ## Common divisors -/

/-- The greatest common divisor. Rounded numbers are taken for the ones that are shown for them, and it has rounded
coefficients if one of them occurs. -/
def commonDivisor (a b : Formula) : Formula :=
  let ts := (expanded a).terms.map Term.of
  let us := (expanded b).terms.map Term.of
  let xs := indeterminates (ts ++ us)
  let isRounded := (ts ++ us).any fun t => t.coefficient.isRounded
  let polynomial (ts : List Term) : Polynomial :=
    Polynomial.ofTerms (ts.map fun t => (exponents xs t, t.coefficient.shown?.getD 0))
  let divisor :=
    if isRounded then Polynomial.monic (Polynomial.gcd xs.length (polynomial ts) (polynomial us))
    else Polynomial.gcd xs.length (polynomial ts) (polynomial us)
  plus (divisor.map fun (m, c) => ofMonomial xs m (if isRounded then .rounded 53 (Rounding.binary 53 c) else .exact c))

/-! ## Factors in front of sums -/

/-- The number that is left in front when a sum is divided by it, and the sum without it: integers without a common
divisor are left in front of the terms. -/
def primitive (a : Formula) : Rat × Formula :=
  match a with
  | sum ts =>
    let numbers := ts.map fun t => (t.splitCoefficient.1.rational?.getD 1)
    let content := mkRat (numbers.foldl (fun g c => g.gcd c.num.natAbs) 0 : Nat)
      (numbers.foldl (fun l c => l.lcm c.den) 1)
    if content = 1 ∨ content = 0 then (1, a)
    else
      let terms := ts.map fun t =>
        match t.splitCoefficient with
        | (.exact c, rest) => keeping (c / content) rest
        | _ => keeping (1 / content) t
      (content, sum ((terms.filter fun t => t.scalar?.isSome) ++ sort (terms.filter fun t => t.scalar?.isNone)))
  | a => (1, a)

/-- What two terms have in common. -/
def Term.common (t u : Term) : Term :=
  let coefficient : Scalar := match t.coefficient, u.coefficient with
    | .exact c, .exact d => .exact (mkRat (c.num.gcd d.num) (c.den.lcm d.den))
    | _, _ => .exact 1
  ⟨coefficient, t.powers.filterMap fun (b, n) =>
    (u.powers.find? fun p => same p.1 b).map fun (_, m) => (b, min n m)⟩

def Term.formula (t : Term) : Formula :=
  times (number t.coefficient :: t.powers.map fun (b, n) => raised b (exact n))

/-- Writes a sum with the factors in front that all terms have; a fraction is not put in front of integers. -/
def factoredSum (ts : List Formula) : Formula :=
  match (ts.map Term.of) with
  | [] => zero
  | t :: others =>
    let front := others.foldl Term.common t
    let (content, rest) := primitive (plus (ts.map fun a => quotient a front.formula))
    let factors : Formula := Term.formula { front with coefficient := .exact 1 }
    let c : Rat := (front.coefficient.rational?.getD 1) * content
    let spread := keepingSum (mkRat 1 c.den) rest
    if spread.terms.any fun a => a.splitCoefficient.1.rational?.any (·.den = 1) then
      keeping c.num (times [factors, spread])
    else keeping c (times [factors, rest])
where
  /-- A number multiplied into the terms of a sum. -/
  keepingSum (c : Rat) (a : Formula) : Formula := plus (a.terms.map (keeping c))

mutual

/-- Writes all sums in a formula with common factors in front. -/
def factored : Formula → Formula
  | sum as => factoredSum as
  | product (number s :: as) => times [number s, times (factoredEach as)]
  | product as => times (factoredEach as)
  | power b e => raised (factored b) (factored e)
  | modulo a b => modulo (factored a) (factored b)
  | factorial a => factorial (factored a)
  | call f as => call f (factoredEach as)
  | a => a

def factoredEach : List Formula → List Formula
  | [] => []
  | a :: as => factored a :: factoredEach as

end

end Isolate.Formula
