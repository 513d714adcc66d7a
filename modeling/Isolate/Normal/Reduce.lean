import Isolate.Expr.Order

/-!
# Reduced ratios

A ratio of signed factors is a rational coefficient times a ratio of unsigned factors that are no numbers
(`Ratio.split`). A zero divisor has no inverse and counts as such a factor. Reducing a ratio cancels the factors that
stand on both sides and writes the coefficient in lowest terms at the front (`Ratio.reduce`). Adding up like terms, that
is terms whose other factors agree up to order, gives one reduced term for each kind (`Ratio.collect`).
-/

namespace Isolate

/-- A coefficient with the factors that are left. -/
structure Monomial where
  coefficient : Rat
  numerator : List Expr
  denominator : List Expr
  deriving Inhabited

namespace Expr

/-- The value of a factor that is a number, sign apart. -/
def number? (e : Expr) : Option Rat :=
  match e.shape with
  | .number v => some v
  | _ => none

/-- A divisor that is a number other than zero, sign apart. -/
def divisor? (e : Expr) : Option Rat := e.number?.filter (· ≠ 0)

end Expr

namespace Ratio

/-- The product of the signs of all factors. -/
def sign (t : Ratio Expr) : Sign := t.factors.foldl (fun s e => s * e.sign) .pos

/-- The product of the numbers over the product of the divisors, signs in front of factors apart. -/
def magnitude (t : Ratio Expr) : Rat :=
  (t.denominator.filterMap Expr.divisor?).foldl (· / ·) ((t.numerator.filterMap Expr.number?).foldl (· * ·) 1)

/-- Coefficient and other factors of a ratio. -/
def split (t : Ratio Expr) : Monomial where
  coefficient := t.sign.apply t.magnitude
  numerator := (t.numerator.filter fun e => e.number?.isNone).map Expr.abs
  denominator := (t.denominator.filter fun e => e.divisor?.isNone).map Expr.abs

end Ratio

/-- Takes the factors of a divisor out of a numerator one by one, the first equal one each time; gives what is left of
the numerator, and of the divisor. -/
def cancel (numerator : List Expr) : List Expr → List Expr × List Expr
  | [] => (numerator, [])
  | d :: ds =>
    if numerator.contains d then cancel (numerator.erase d) ds
    else
      let (numerator, ds) := cancel numerator ds
      (numerator, d :: ds)

namespace Monomial

/-- Makes the first factor negative. -/
def negateFirst : List Expr → List Expr
  | [] => []
  | e :: es => { e with sign := .neg } :: es

/-- Writes a monomial as a ratio: the coefficient in lowest terms at the front, ones left out where another factor
stands, and a minus at the first factor. Zero swallows all factors. -/
def toRatio (m : Monomial) : Ratio Expr :=
  if m.coefficient = 0 then ⟨[.number 0], []⟩
  else
    let p := m.coefficient.num.natAbs
    let q := m.coefficient.den
    let numerator := (if p ≠ 1 ∨ m.numerator.isEmpty then [.number (p : Int)] else []) ++ m.numerator
    let denominator := (if q ≠ 1 then [.number (q : Int)] else []) ++ m.denominator
    ⟨if m.coefficient < 0 then negateFirst numerator else numerator, denominator⟩

/-- Cancels the factors that stand on both sides. -/
def reduce (m : Monomial) : Monomial :=
  let (numerator, denominator) := cancel m.numerator m.denominator
  { m with numerator, denominator }

end Monomial

namespace Ratio

/-- A ratio in reduced form. -/
def reduce (t : Ratio Expr) : Ratio Expr := t.split.reduce.toRatio

end Ratio

/-! ## Like terms -/

namespace Monomial

def sortFactors (es : List Expr) : List Expr := es.mergeSort Expr.le

/-- Do the factors of two monomials agree up to order? -/
def isLike (m n : Monomial) : Bool :=
  sortFactors m.numerator == sortFactors n.numerator && sortFactors m.denominator == sortFactors n.denominator

/-- Adds a monomial to the first one like it, or at the end. -/
def addTo (m : Monomial) : List Monomial → List Monomial
  | [] => [m]
  | n :: ns => if n.isLike m then { n with coefficient := n.coefficient + m.coefficient } :: ns else n :: addTo m ns

end Monomial

namespace Ratio

/-- One term for each kind of like terms, in the order of their first ones and with the factors of these. -/
def collect (ts : List (Ratio Expr)) : List (Ratio Expr) :=
  ((ts.map split).foldl (fun ms m => m.addTo ms) []).map Monomial.toRatio

end Ratio

end Isolate
