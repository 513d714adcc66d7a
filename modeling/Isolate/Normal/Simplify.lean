import Isolate.Normal.Reduce
import Isolate.Expr.Analysis

/-!
# Simplification

Simplifying an analysed expression reduces its sums in place, from the bottom up, and then makes a new tree of what is
left: terms that are zero go, and so do factors that are one and stand beside others. The expression that was given is
changed too, so both are returned.

* `Expr.reduced` is what the given expression becomes, `Expr.simplified` the new one.
* `Expr.simplify` does both, if the expression has been analysed.
-/

namespace Isolate

namespace Expr

/-! ## In place -/

/-- Reduces the terms of a sum and adds up like ones. What was noted at the sum is forgotten. -/
def reduceStep (e : Expr) : Expr :=
  match e.shape with
  | .sum ts => ⟨e.sign, .sum (Ratio.collect (ts.map Ratio.reduce)), none⟩
  | _ => e

/-- A denominator that is just one goes. -/
def dropUnit (t : Ratio Expr) : Ratio Expr :=
  match t.denominator with
  | [d] => if d.isOne then ⟨t.numerator, []⟩ else t
  | _ => t

/-- Drops the denominators of a sum that are just one. -/
def dropUnits (e : Expr) : Expr :=
  match e.shape with
  | .sum ts => { e with shape := .sum (ts.map dropUnit) }
  | _ => e

/-- What simplifying makes of the given expression itself. -/
def reduced (e : Expr) : Expr := ((e.editUp reduceStep .all).analyze).editUp dropUnits .all

/-! ## Anew -/

/-- A term that is the number zero, whatever its sign. -/
def isZeroTerm (t : Ratio Expr) : Bool :=
  match t with
  | ⟨[e], []⟩ => e.number? == some 0
  | _ => false

/-- Factors without the ones among them; a factor that stands alone stays. -/
def withoutOnes : List Expr → List Expr
  | [e] => [e]
  | es => es.filter fun e => !e.isOne

/-- Makes a sum without neutral terms and factors; a sum without terms is zero. -/
def neutralStep (e : Expr) : Expr :=
  match e.shape with
  | .sum ts =>
    match ts.filter fun t => !isZeroTerm t with
    | [] => .number 0
    | ts => ⟨e.sign, .sum (ts.map fun t => ⟨withoutOnes t.numerator, withoutOnes t.denominator⟩), none⟩
  | _ => e

/-- The new tree made of an expression that has been reduced in place. -/
def simplified (e : Expr) : Expr := (e.reduced.rebuildUp neutralStep .all).analyze

/-- The simplified expression, and what has become of the given one. -/
def simplify (e : Expr) : Except Fault (Expr × Expr) :=
  if e.isAnalyzed then .ok (e.simplified, e.reduced) else .error .notAnalyzed

end Expr

namespace Equation

/-- Simplifies the sides from left to right. A side that is not analysed stops the work: the sides before it have been
reduced in place, and no side is replaced. -/
def simplifySides : List Expr → List Expr × List Expr × Option Fault
  | [] => ([], [], none)
  | e :: es =>
    match e.simplify with
    | .error fault => ([], e :: es, some fault)
    | .ok (new, old) =>
      let (news, olds, fault) := simplifySides es
      (new :: news, old :: olds, fault)

/-- Simplifies every side; `some fault` tells that the work stopped. -/
def simplify (q : Equation) : Equation × Option Fault :=
  match simplifySides q.sides with
  | (news, _, none) => (⟨news⟩, none)
  | (_, olds, some fault) => (⟨olds⟩, some fault)

end Equation

end Isolate
