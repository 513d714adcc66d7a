import Isolate.Fault
import Isolate.Formula.Angle

/-!
# Factorials and functions

Factorials of numbers are worked out, logarithms at a few points, and a function without a known meaning stays a call.
At a rounded number every known function is worked out.

* `Formula.fact` and `Formula.called` work out a factorial and a call.
-/

namespace Isolate.Formula

/-! ## Factorials -/

def factorialOf : Nat → Nat
  | 0 => 1
  | n + 1 => (n + 1) * factorialOf n

/-- The factorial; the one of a negative integer is infinite. -/
def fact (a : Formula) : Formula :=
  match a with
  | number (.exact q) =>
    if q.den ≠ 1 then factorial a else if q < 0 then number .infinite else exact (factorialOf q.num.toNat)
  | number (.rounded b q) =>
    if q = 0 then one else (((Approx.ofRat q).factorial?).map (ofApprox b)).getD (number .infinite)
  | number .undefined => a
  | a => factorial a

/-! ## The logarithm and the absolute value -/

/-- The logarithm of what is no negative number. -/
def positiveLog (a : Formula) : Formula :=
  match a with
  | number (.exact q) =>
    if q = 0 then number .infinite
    else if q = 1 then zero
    else if q.num = 1 then product [exact (-1), call "log" [exact q.den]]
    else call "log" [a]
  | number (.rounded b q) => (((Approx.ofRat q).log?).map (ofApprox b)).getD (number .infinite)
  | number s => number s
  | euler => one
  | call "exp" [b] => if b.isConstant && !isImaginary b then b else call "log" [a]
  | a => call "log" [a]
where
  isImaginary (a : Formula) : Bool := a.factors.any (same imaginary)

/-- The logarithm of a negative constant is that of its negative, and half a turn beside it. -/
def log (a : Formula) : Formula :=
  if a.isNegativeConstant && !a.scalar?.any Scalar.isRounded then
    plus [product [pi, imaginary], positiveLog (negated a)]
  else positiveLog a

/-- How often a natural number above one divides another one. -/
def multiplicity (d n : Nat) : Nat := if 1 < d ∧ n ≠ 0 then (Surd.takeOut d (n.log2 + 1) n).1 else 0

/-- How often a number can be taken out of another one as a factor. -/
def rationalMultiplicity (b q : Rat) : Int :=
  let above := q.num.natAbs
  if b.den = 1 then multiplicity b.num.natAbs above - multiplicity b.num.natAbs q.den
  else if b.num = 1 then multiplicity b.den q.den
  else
    (min (multiplicity b.num.natAbs above) (multiplicity b.den q.den) : Nat) -
      (min (multiplicity b.den above) (multiplicity b.num.natAbs q.den) : Nat)

/-- The logarithm to a base; powers of the base are taken out of a number. -/
def logTo (a base : Formula) : Formula :=
  if base.isOne then number (if a.isOne then .undefined else .infinite)
  else
    match a.rational?, base.rational? with
    | some q, some b =>
      let n := if 0 < q ∧ 0 < b then rationalMultiplicity b q else 0
      if n = 0 then quotient (log a) (log base)
      else plus [exact n, quotient (log (exact (q / Scalar.ratPow b n))) (log base)]
    | _, _ => quotient (log a) (log base)

/-- The absolute value: what is known of a product is taken out. -/
def absolute (a : Formula) : Formula :=
  match a with
  | number .infinite => a
  | number s => number (if s.isNegative then s.neg else s)
  | power b (number (.exact e)) =>
    if e < 0 ∧ e.den = 1 then quotient one (keep (raised b (exact (-e)))) else keep a
  | product fs =>
    let outside := fs.filter isNumeric
    let inside := fs.filter fun f => !isNumeric f
    times (outside.map size ++ if inside.isEmpty then [] else [keep (ofFactors inside)])
  | a => if isNumeric a then size a else keep (if a.hasMinus then negated a else a)
where
  isNumeric (a : Formula) : Bool := a.isNonnegative || (a.isConstant && a.cut?.isSome)
  size (a : Formula) : Formula := if a.isNegativeConstant then negated a else a
  keep (a : Formula) : Formula := if a.isNonnegative then a else call "Abs" [a]

/-! ## Calls -/

/-- Works out a call, where `known` tells which functions have a meaning. Such a function takes one argument; a
logarithm may have a base beside it. -/
def called (known : String → Bool) (function : String) (as : List Formula) : Except Fault Formula :=
  if !known function then .ok (call function as)
  else match function, as with
    | "sqrt", [a] => .ok (raised a (exact (1 / 2)))
    | "exp", [a] => .ok (raised euler a)
    | "log", [a] => .ok (log a)
    | "log", [a, base] => .ok (logTo a base)
    | "Abs", [a] => .ok (absolute a)
    | f, [a] => .ok (circular f a)
    | _, _ => .error .wrongType

end Isolate.Formula
