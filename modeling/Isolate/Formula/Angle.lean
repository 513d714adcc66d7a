import Isolate.Formula.Arithmetic
import Isolate.Formula.Minus
import Isolate.Formula.Sample

/-!
# Functions of angles

The sine, the cosine, the tangent and the cotangent of an angle, and the four functions that give an angle back. Known are
the values at a few points, the parity, and what a function makes of an angle that is given by another one.

* `Formula.circular` works out any of the eight.
-/

namespace Isolate.Formula

/-! ## One function behind another -/

/-- The square root of one minus the square of a formula. -/
def complement (a : Formula) : Formula := raised (minus one (raised a (exact 2))) (exact (1 / 2))

/-- The square root of one plus the square of a formula. -/
def secant (a : Formula) : Formula := raised (plus [one, raised a (exact 2)]) (exact (1 / 2))

/-- A function of an angle, where the angle is given by another function. -/
def undone? (function inner : String) (a : Formula) : Option Formula :=
  let reciprocal := quotient one a
  match function, inner with
  | "sin", "arcsin" | "cos", "arccos" | "tan", "arctan" | "cot", "arccot" => some a
  | "sin", "arccos" | "cos", "arcsin" => some (complement a)
  | "sin", "arctan" => some (quotient a (secant a))
  | "cos", "arctan" => some (quotient one (secant a))
  | "sin", "arccot" => some (quotient one (times [secant reciprocal, a]))
  | "cos", "arccot" => some (quotient one (secant reciprocal))
  | "tan", "arcsin" | "cot", "arccos" => some (quotient a (complement a))
  | "tan", "arccos" | "cot", "arcsin" => some (quotient (complement a) a)
  | "tan", "arccot" | "cot", "arctan" => some reciprocal
  | _, _ => none

/-- The value at a number, where it is a simple one. -/
def simpleValue? (function : String) (s : Scalar) : Option Formula :=
  match function, s with
  | _, .undefined => some (number .undefined)
  | "arcsin", .infinite | "arccos", .infinite => some (number .infinite)
  | "arccot", .infinite => some zero
  | _, .infinite => some (number .undefined)
  | function, s =>
    if s = .exact 0 then
      match function with
      | "sin" | "tan" | "arcsin" | "arctan" => some zero
      | "cos" => some one
      | "cot" => some (number .infinite)
      | _ => none
    else none

/-! ## Simple angles -/

/-- The number in front of pi in a rational multiple of it. -/
def halfTurns? : Formula → Option Rat
  | pi => some 1
  | product [number (.exact q), pi] => some q
  | _ => none

/-- A rational multiple of pi. -/
def ofHalfTurns (q : Rat) : Formula := times [exact q, pi]

/-- The angles between zero and a right one with simple functions, in half turns, with the sine and the tangent. -/
def simpleAngles : List (Rat × Formula × Formula) :=
  let root (n : Rat) : Formula := power (exact n) (exact (1 / 2))
  let multiple (c : Rat) (a : Formula) : Formula := product [exact c, a]
  [(1 / 6, exact (1 / 2), multiple (1 / 3) (root 3)), (1 / 4, multiple (1 / 2) (root 2), one),
    (1 / 3, multiple (1 / 2) (root 3), root 3)]

/-- The sine of an angle in half turns, where it is simple. -/
def simpleSine? (q : Rat) : Option Formula :=
  let q := Scalar.floorMod q 2
  let (isOpposite, q) := if 1 < q then (true, q - 1) else (false, q)
  let q := if 1 / 2 < q then 1 - q else q
  let sine :=
    if q = 0 then some zero else if q = 1 / 2 then some one
    else (simpleAngles.find? (·.1 = q)).map (·.2.1)
  sine.map fun a => if isOpposite then negated a else a

/-- A function of an angle in half turns, where it is simple. -/
def atHalfTurns? (function : String) (q : Rat) : Option Formula :=
  match function with
  | "sin" => simpleSine? q
  | "cos" => simpleSine? (q + 1 / 2)
  | "tan" => do return quotient (← simpleSine? q) (← simpleSine? (q + 1 / 2))
  | "cot" => do return quotient (← simpleSine? (q + 1 / 2)) (← simpleSine? q)
  | _ => none

/-- The angle with a given function, in half turns, where it is a simple one. -/
def simpleAngle? (function : String) (a : Formula) : Option Rat :=
  let ofSine (a : Formula) : Option Rat :=
    if a.isOne then some (1 / 2) else (simpleAngles.find? fun (_, sine, _) => same a sine).map (·.1)
  let ofTangent (a : Formula) : Option Rat := (simpleAngles.find? fun (_, _, tangent) => same a tangent).map (·.1)
  match function with
  | "arcsin" => ofSine a
  | "arccos" =>
    if a.isExactZero then some (1 / 2)
    else match ofSine a, ofSine (negated a) with
      | some q, _ => some (1 / 2 - q)
      | none, some q => some (1 / 2 + q)
      | none, none => none
  | "arctan" => ofTangent a
  | "arccot" => if a.isExactZero then some (1 / 2) else (ofTangent a).map (1 / 2 - ·)
  | _ => none

/-- The angle of a function of a real constant: the constant, turned back to where angles are. -/
def turnedBack? (function inner : String) (a : Formula) : Option Formula := do
  let z ← a.valueAt .constant
  if z.settle.im ≠ 0 then none
  let turns (period : Int) (z : Int) : Int := z.fdiv (period * Approx.pi.re)
  match function, inner with
  | "arcsin", "sin" =>
    let n := turns 1 (z.re + Approx.pi.half.re)
    let rest := minus a (ofHalfTurns n)
    return if n % 2 = 0 then rest else negated rest
  | "arccos", "cos" =>
    let n := turns 2 (z.re + Approx.pi.re)
    let rest := minus a (ofHalfTurns (2 * n))
    return if n * 2 * Approx.pi.re ≤ z.re then rest else negated rest
  | "arctan", "tan" | "arccot", "cot" => return minus a (ofHalfTurns (turns 1 (z.re + Approx.pi.half.re)))
  | _, _ => none

/-! ## All angles -/

/-- The functions that change their sign with their argument. -/
def oddFunctions : List String := ["sin", "tan", "cot", "arcsin", "arctan", "arccot"]

/-- The value at a rounded number. -/
def approximateCall? (function : String) : Formula → Option Formula
  | number (.rounded b q) => ((Approx.ofRat q).call? function).map (ofApprox b)
  | _ => none

/-- A function of an angle, or one that gives an angle. -/
def circular (function : String) (a : Formula) : Formula :=
  match approximateCall? function a, a.scalar?.bind (simpleValue? function) with
  | some v, _ => v
  | none, some v => v
  | none, none =>
    if a.hasMinus && oddFunctions.contains function then negated (plain (negated a))
    else if a.hasMinus && function = "cos" then plain (negated a)
    else plain a
where
  plain (a : Formula) : Formula :=
    match a.halfTurns?.bind (atHalfTurns? function), simpleAngle? function a, a with
    | some v, _, _ => v
    | none, some q, _ => ofHalfTurns q
    | none, none, call inner [b] =>
      ((undone? function inner b).orElse fun _ => turnedBack? function inner b).getD (call function [a])
    | none, none, a => call function [a]

end Isolate.Formula
