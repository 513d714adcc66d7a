import Isolate.Expr.Traversal

/-!
# Nesting without meaning

Flattening takes out the nesting that the form of an expression does not need: a sum with one term that is a factor is
spliced into the ratio it stands in; a term that is just a sum is spliced into the sum it stands in; a sum with one term
that is just one factor is that factor. A minus in front of what is spliced goes to the spliced ratio (`Ratio.neg`).

* `Expr.flatten_eq`: a flat tree is `Expr.flattenStep` of the node with its operands flattened.
-/

namespace Isolate

namespace Expr

/-- A factor as a ratio: the single term of a sum with its sign taken in, else the factor over nothing. -/
def asRatio (e : Expr) : Ratio Expr :=
  match e.shape with
  | .sum [t] => if e.sign = .neg then t.neg else t
  | _ => .of e

/-- A term as terms: those of a sum with its sign taken in, if the term is just a sum. -/
def asTerms (e : Expr) : List (Ratio Expr) :=
  match e.shape with
  | .sum ts => if e.sign = .neg then ts.map Ratio.neg else ts
  | _ => [.of e]

end Expr

namespace Ratio

/-- The product of ratios. -/
def prod (rs : List (Ratio α)) : Ratio α := ⟨rs.flatMap numerator, rs.flatMap denominator⟩

/-- Splices every factor that is a sum with one term. -/
def spliceFactors (t : Ratio Expr) : Ratio Expr :=
  (prod (t.numerator.map Expr.asRatio)).mul (prod (t.denominator.map Expr.asRatio)).inv

/-- The terms that a term amounts to. -/
def spliceTerm (t : Ratio Expr) : List (Ratio Expr) :=
  match t.spliceFactors with
  | ⟨[e], []⟩ => e.asTerms
  | t => [t]

end Ratio

namespace Expr

/-- Flattens one node whose operands are flat. -/
def flattenStep (e : Expr) : Expr :=
  match e.shape with
  | .sum ts =>
    match ts.flatMap Ratio.spliceTerm with
    | [⟨[only], []⟩] => ⟨only.sign * e.sign, only.shape, none⟩
    | ts => ⟨e.sign, .sum ts, none⟩
  | _ => e

/-- The same expression without nesting that has no meaning. Nothing of an analysis is kept. -/
def flatten (e : Expr) : Expr := e.rebuildUp flattenStep .all

theorem flatten_eq (e : Expr) : e.flatten = flattenStep ⟨e.sign, e.shape.map flatten, none⟩ :=
  rebuildUp_all flattenStep e

end Expr

/-- Flattens every side. -/
def Equation.flatten (q : Equation) : Equation := ⟨q.sides.map Expr.flatten⟩

end Isolate
