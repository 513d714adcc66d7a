import Isolate.Expr.Traversal
import Isolate.Formula.Function
import Isolate.Formula.Remainder

/-!
# What an expression amounts to

Every node of an expression is an operation on formulas that is worked out. `Formula.evaluate` then puts numbers in the
place of names.
-/

namespace Isolate.Formula

/-- The functions that expressions know. -/
def isKnown (function : String) : Bool := hasMeaning function || function = "sqrt"

/-- A product of factors over a product of factors. -/
def ofRatio (t : Ratio Formula) : Formula := quotient (times t.numerator) (times t.denominator)

/-- The formula of a node, its sign apart. -/
def ofShape : Shape Formula → Except Fault Formula
  | .number q => .ok (exact q)
  | .var s => .ok (name s)
  | .power b e => .ok (raised b e)
  | .modulo a b => remainder a b
  | .factorial a => .ok (fact a)
  | .call f as => called isKnown f as
  | .sum ts => .ok (plus (ts.map ofRatio))

/-- What an expression works out to with all its names open. -/
def ofExpr (e : Expr) : Except Fault Formula :=
  e.fold fun e b => do
    let a ← ofShape (← b.mapM id)
    return if e.sign = .neg then negated a else a

/-! ## Substitution -/

mutual

/-- Puts a formula in the place of a name, and works out again what holds the name. -/
def substitute (s : String) (v : Formula) : Formula → Except Fault Formula
  | name t => .ok (if t = s then v else name t)
  | sum as => do return plus (← substituteEach s v as)
  | product as => do return times (← substituteEach s v as)
  | power b e => do return raised (← substitute s v b) (← substitute s v e)
  | modulo a b => do remainder (← substitute s v a) (← substitute s v b)
  | factorial a => do return fact (← substitute s v a)
  | call f as => do called isKnown f (← substituteEach s v as)
  | a => .ok a

def substituteEach (s : String) (v : Formula) : List Formula → Except Fault (List Formula)
  | [] => .ok []
  | a :: as => do return (← substitute s v a) :: (← substituteEach s v as)

end

/-- Puts numbers in the place of names, one after the other. -/
def substituteAll : List (String × Rat) → Formula → Except Fault Formula
  | [], a => .ok a
  | (s, q) :: rest, a => do substituteAll rest (← substitute s (exact q) a)

/-- What an expression works out to when names stand for numbers, the least name first. -/
def evaluate (numbers : List (String × Rat)) (e : Expr) : Except Fault Formula := do
  substituteAll (numbers.mergeSort fun a b => a.1 ≤ b.1) (← ofExpr e)

end Isolate.Formula
