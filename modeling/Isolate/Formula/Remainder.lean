import Isolate.Fault
import Isolate.Formula.Divisor
import Isolate.Formula.Sample

/-!
# Remainders

The remainder of a division into whole parts downward has the sign of the divisor. Where dividend and divisor are
numbers, or one is a known multiple of the other, it is worked out. Else it stays a remainder, but a simple one: whole
divisors are taken off the terms of the dividend, remainders by the same divisor are taken out of it, and what dividend
and divisor have in common comes in front.

* `Formula.remainder` is the remainder; there is none by zero.
-/

namespace Isolate.Formula

/-- Is a formula without names a real number that is not negative? -/
def isNonnegativeConstant (a : Formula) : Bool :=
  match a with
  | number s => s.value?.any (0 ≤ ·)
  | a => (a.valueAt Point.constant).any fun z => z.settle.im = 0 ∧ 0 ≤ z.settle.re

/-- The remainder of a number by a number, or of a multiple of the divisor. A multiple that is no integer is cut toward
zero; only where all is a number does the remainder get the sign of the divisor. -/
def knownRemainder? (p q : Formula) : Option Formula :=
  match p, q with
  | number .undefined, _ | number .infinite, _ | _, number .undefined | _, number .infinite =>
    some (number .undefined)
  | number s, number t => (s.mod? t).map number
  | p, q =>
    if p.isExactZero || same p q || same p (negated q) then some zero
    else
      let ratio := quotient p q
      match ratio.rational?.filter (·.den = 1), ratio.cut? with
      | some _, _ => some zero
      | none, none => none
      | none, some n =>
        let rest := minus p (times [exact n, q])
        some (if (times [rest, q]).isNegativeConstant then plus [rest, q] else rest)

/-- The terms of a sum, those that are remainders by the same divisor taken for their dividends; `none` if no term is a
remainder, or one is by another divisor. -/
def openTerms? (q : Formula) (ts : List Formula) : Option (List Formula) :=
  if ts.any isModulo then
    (ts.filter fun t => !t.isModulo).map some ++ (ts.filter isModulo).map (dividend? ·) |>.mapM id
  else none
where
  dividend? : Formula → Option Formula
    | modulo a b => if same b q then some a else none
    | _ => none

/-- Factors that are integers are reduced beside remainders if the divisor is an integer; `none` if one is a multiple
of it. -/
def reduceFactors (q : Formula) (fs : List Formula) : Option (List Formula) :=
  let others := fs.filter fun f => !f.isModulo
  match q.rational? with
  | some d =>
    if d.den = 1 ∧ d ≠ 1 ∧ others.all (fun f => f.rational?.any (·.den = 1)) then
      let reduced := others.map fun f => Scalar.floorMod (f.rational?.getD 0) d
      if reduced.contains 0 then none else some (reduced.map exact ++ fs.filter isModulo)
    else some fs
  | none => some fs

/-- A remainder with a factor in front. -/
structure Division where
  factor : Formula
  dividend : Formula
  divisor : Formula

namespace Division

/-- What dividend and divisor have in common comes in front. -/
def ofCommon (p q : Formula) : Division :=
  let g := commonDivisor p q
  if g.value? = some 1 then ⟨g, p, q⟩ else ⟨g, factored (quotient p g), factored (quotient q g)⟩

/-- Rounded numbers in front of dividend and divisor: if one is a multiple of the other, the divisor loses its own. -/
def scaled (r : Division) : Division :=
  let (c, a) := r.dividend.splitCoefficient
  let (d, b) := r.divisor.splitCoefficient
  if (c.isRounded || d.isRounded) && (c.mod? d).any Scalar.isZero then
    ⟨times [r.factor, number d], times [a, exact ((c.div d).cut?.getD 0)], b⟩
  else r

/-- A minus of both comes in front. -/
def turned (r : Division) : Division :=
  if r.dividend.hasMinus && r.divisor.hasMinus then ⟨negated r.factor, negated r.dividend, negated r.divisor⟩ else r

def isRoundedOne (s : Scalar) : Bool := s.isRounded && s.value? == some 1

/-- Takes the remainders of the terms of a dividend, where that does not make remainders more. -/
def reduced (remainder : Formula → Formula → Except Fault Formula) (r : Division) : Except Fault Division :=
  match r.dividend with
  | sum ts => do
    let us ← ts.mapM fun t => do
      let u ← remainder t r.divisor
      return if t.countModulo < u.countModulo then t else u
    return { r with dividend := if compareList us ts = .eq then sum ts else plus us }
  | _ => return r.scaled

/-- The remainder with its factor. It is taken once more if dividend and divisor have changed. -/
def result (remainder : Formula → Formula → Except Fault Formula) (before r : Division) : Except Fault Formula :=
  let again (r : Division) : Except Fault Formula := do
    let isNew := !same before.dividend r.dividend || !same before.divisor r.divisor
    return times [r.factor, ← if isNew then remainder r.dividend r.divisor else .ok (modulo r.dividend r.divisor)]
  match knownRemainder? r.dividend r.divisor with
  | some known => .ok (times [known, r.factor])
  | none =>
    match r.factor with
    | number s =>
      if isRoundedOne s then .ok (modulo (times [number s, r.dividend]) r.divisor) else again r
    | product (number s :: rest) =>
      if isRoundedOne s then again ⟨ofFactors rest, times [number s, r.dividend], r.divisor⟩ else again r
    | _ => again r

/-- Simplifies a remainder that is not known. -/
def simplified (remainder : Formula → Formula → Except Fault Formula) (p q : Formula) : Except Fault Formula := do
  let before := ofCommon p q
  let after := (← before.reduced remainder).turned
  if after.divisor.value? = some 0 then throw .divisionByZero else result remainder before after

end Division

/-- A remainder that stands in a dividend, perhaps with a minus. -/
def innerRemainder? : Formula → Option (Bool × Formula × Formula)
  | modulo a b => some (false, a, b)
  | product [number (.exact c), modulo a b] => if c = -1 then some (true, a, b) else none
  | _ => none

/-- Is a remainder by one number never beyond the remainders by another one? -/
def isWithin (inner q : Formula) (opposite : Bool) : Bool :=
  if opposite then (negated (times [inner, plus [q, inner]])).isNonnegativeConstant
  else (times [inner, minus q inner]).isNonnegativeConstant

def remainderWithin : Nat → Formula → Formula → Except Fault Formula
  | 0, p, q => .ok (modulo p q)
  | fuel + 1, p, q =>
    let again := Division.simplified (remainderWithin fuel)
    if q.value? = some 0 then .error .divisionByZero
    else match knownRemainder? p q with
      | some r => .ok r
      | none =>
        match innerRemainder? p, p with
        | some (opposite, a, inner), p => do
          if (← remainderWithin fuel inner q).isExactZero then
            remainderWithin fuel (if opposite then negated a else a) q
          else if isWithin inner q opposite then return p
          else again p q
        | none, sum ts =>
          match openTerms? q ts with
          | some ts => remainderWithin fuel (plus ts) q
          | none => again p q
        | none, product fs =>
          match reduceFactors q fs with
          | some fs => again (times fs) q
          | none => .ok zero
        | none, p => again p q

/-- The remainder of a division. -/
def remainder (p q : Formula) : Except Fault Formula := remainderWithin (depth [p, q]) p q

end Isolate.Formula
