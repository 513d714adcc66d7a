import Isolate.Approx.Basic
import Isolate.Formula.Order
import Isolate.Formula.Surd

/-!
# Sums, products and powers

The operations put their results into the form in which equal things are written alike. A sum adds up terms that differ
in a number in front only; a product adds up the exponents of equal bases, and a number is multiplied into a sum that
stands alone beside it. Nothing else is multiplied out. What cancels is gone: `x / x` is one and `0 * x` is zero,
whatever `x` will be.

* `Formula.plus`, `Formula.times` and `Formula.raised` are a sum, a product and a power.
* `Formula.negated` and `Formula.quotient` are what they give for a minus and a quotient.
-/

namespace Isolate.Formula

/-! ## What sums and products are made of -/

/-- Puts what is found inside of things at the end, as often as there is something inside. -/
def spread (inner : Formula → Option (List Formula)) : Nat → List Formula → List Formula
  | 0, as => as
  | n + 1, as =>
    if as.any fun a => (inner a).isSome then
      as.filter (fun a => (inner a).isNone) ++ spread inner n (as.flatMap fun a => (inner a).getD [])
    else as

/-- Adds a multiple to a list of multiples of different formulas. -/
def addMultiple (c : Scalar) (a : Formula) : List (Scalar × Formula) → List (Scalar × Formula)
  | [] => [(c, a)]
  | (d, b) :: rest => if same a b then (d.add c, b) :: rest else (d, b) :: addMultiple c a rest

/-- The factors of a product by kind. -/
structure Factors where
  coefficient : Scalar
  /-- The exponent of minus one. -/
  minusOne : Rat
  /-- Powers of positive numbers with exponents that are rational numbers. -/
  roots : List (Rat × Rat)
  /-- Powers of positive numbers with other exponents. -/
  exponentials : List (Formula × Formula)
  /-- All other powers. -/
  powers : List (Formula × Formula)

namespace Factors

def none : Factors := ⟨.exact 1, 0, [], [], []⟩

def put (fs : Factors) (a : Formula) : Factors :=
  match a with
  | number s => { fs with coefficient := fs.coefficient.mul s }
  | imaginary => { fs with minusOne := fs.minusOne + 1 / 2 }
  | power (number (.exact q)) (number (.exact e)) =>
    if q < 0 then
      { fs with minusOne := fs.minusOne + e, roots := if q = -1 then fs.roots else fs.roots ++ [(-q, e)] }
    else { fs with roots := fs.roots ++ [(q, e)] }
  | power (number s) e =>
    if s.value?.any (0 < ·) then { fs with exponentials := fs.exponentials ++ [(power (number s) e).splitPower] }
    else { fs with powers := fs.powers ++ [(number s, e)] }
  | a => { fs with powers := fs.powers ++ [a.splitPower] }

end Factors

/-- The same base, with the numbers in front of equal exponents. -/
structure Gathered where
  base : Formula
  exponents : List (Scalar × Formula)

/-- Adds a power to the powers of the same base. -/
def addPower (base exponent : Formula) : List Gathered → List Gathered
  | [] => [⟨base, [exponent.splitCoefficient]⟩]
  | g :: rest =>
    if same g.base base then
      let (c, e) := exponent.splitCoefficient
      { g with exponents := addMultiple c e g.exponents } :: rest
    else g :: addPower base exponent rest

/-- Multiplies a base into the bases of powers with the same exponent. -/
def addBase (exponent base : Formula) : List (Formula × List Formula) → List (Formula × List Formula)
  | [] => [(exponent, [base])]
  | (e, bs) :: rest => if same e exponent then (e, bs ++ [base]) :: rest else (e, bs) :: addBase exponent base rest

/-- What comes of working out powers. -/
structure PowersWorked where
  /-- The product of the numbers among them. -/
  coefficient : Scalar
  /-- All others. -/
  parts : List Formula
  /-- Their bases and exponents. -/
  powers : List (Formula × Formula)
  /-- Has a base changed? -/
  isNew : Bool

namespace PowersWorked

def none : PowersWorked := ⟨.exact 1, [], [], false⟩

/-- A power in front, with a base and an exponent that it may be taken for. -/
def put (p base exponent : Formula) (isNew : Bool) (w : PowersWorked) : PowersWorked :=
  ⟨w.coefficient, p :: w.parts, (base, exponent) :: w.powers, w.isNew || isNew⟩

end PowersWorked

/-- Does a base occur twice? -/
def repeats : List (Formula × Formula) → Bool
  | [] => false
  | (b, _) :: rest => rest.any (fun p => same b p.1) || repeats rest

/-! ## Numbers -/

/-- The formula of an approximate number, to so many binary digits. -/
def ofApprox (bits : Nat) (z : Approx) : Formula :=
  let z := z.settle
  let part (n : Int) : Scalar := Scalar.ofResult bits (mkRat n Approx.unit.toNat)
  if z.im = 0 then number (part z.re)
  else if z.re = 0 then product [number (part z.im), imaginary]
  else sum [number (part z.re), product [number (part z.im), imaginary]]

/-- A power of a rational number that is no integer power. -/
def ofSurd (s : Surd) : Formula :=
  let roots := s.roots.map fun (b, e) => if b = -1 ∧ e = 1 / 2 then imaginary else power (exact b) (exact e)
  if s.coefficient = 1 then ofFactors (sort roots) else ofFactors (exact s.coefficient :: sort roots)

/-- A power of numbers. -/
def numberPower (s t : Scalar) : Formula :=
  match s, t with
  | .undefined, _ => number .undefined
  | _, .undefined => number .undefined
  | _, .infinite => number .undefined
  | .infinite, t => if t.isNegative then zero else number .infinite
  | .exact q, .exact e =>
    if e.den = 1 then number ((Scalar.exact q).pow e.num)
    else if q = 0 then if 0 < e then zero else number .infinite
    else ofSurd (Surd.power q e)
  | .rounded b q, .exact e =>
    if e.den = 1 then number ((Scalar.rounded b q).pow e.num)
    else approximate b q e
  | .exact q, .rounded b e => approximate b (Rounding.binary b q) e
  | .rounded b q, .rounded c e => approximate (max b c) q e
where
  approximate (bits : Nat) (q e : Rat) : Formula :=
    if q = 0 then if 0 < e then zero else number .infinite
    else (((Approx.ofRat q).pow? (Approx.ofRat e)).map (ofApprox bits)).getD (number .undefined)

/-- Is a formula known to be zero or positive? -/
def isNonnegative : Formula → Bool
  | number s => s.value?.any (0 ≤ ·)
  | euler | pi => true
  | power (number s) (number t) => s.value?.any (0 ≤ ·) && t.value?.isSome
  | call "Abs" _ => true
  | call "exp" [number s] => s.value?.isSome
  | _ => false

/-- Is the exponent of a power such that the exponent of the power as a whole can be multiplied in? -/
def takesExponent (base inner outer : Formula) : Bool :=
  match outer, inner with
  | number (.exact e), number (.exact d) => e.den = 1 || (-1 < d && d < 1) || base.isNonnegative
  | number (.exact e), _ => e.den = 1
  | _, number (.exact d) => (-1 < d && d < 1) || base.isNonnegative
  | _, _ => false

/-- Powers of numbers that are still to be worked out when they are met in a sum. -/
def isOpenPower (b : Scalar) (e : Rat) : Bool := e.den = 1 || e < 0 || b.isRounded

/-- Powers of numbers that are still to be worked out when they are met in a product. -/
def isOpenFactor (b : Scalar) (e : Rat) : Bool :=
  isOpenPower b e || b.isZero || b.rational?.any fun q => q.num = 1

/-- An exact number other than zero beside a sum that has a number in front, perhaps: their product, and the sum. -/
def scaledSum? : List Formula → Option (Scalar × List Formula)
  | [number (.exact c), a] => beside c a
  | [a, number (.exact c)] => beside c a
  | _ => none
where
  beside (c : Rat) (a : Formula) : Option (Scalar × List Formula) :=
    match a.splitCoefficient with
    | (d, sum ts) => if c = 0 then none else some (d.mul (.exact c), ts)
    | _ => none

/-- What a minus makes of the factors of a product: the number in front changes its sign and goes into a number behind
it. -/
def negatedFactors : List Formula → List Formula
  | number .infinite :: fs => number .infinite :: fs
  | number (.exact q) :: fs =>
    if q = -1 then fs
    else match fs with
      | number s :: rest => number (s.mul (.exact (-q))) :: rest
      | fs => exact (-q) :: fs
  | number s :: fs => number s.neg :: fs
  | fs => exact (-1) :: fs

def logarithm? : Formula → Option Formula
  | call "log" [a] => some a
  | _ => none

def exponent? : Formula → Option Formula
  | call "exp" [a] => some a
  | _ => none

/-! ## The operations -/

mutual

def plusWithin : Nat → List Formula → Formula
  | 0, as => ofTerms as
  | fuel + 1, as =>
    match as.filter fun a => !a.isExactZero with
    | [] => zero
    | [a] => a
    | [number (.exact q), product fs] => sum [exact q, product fs]
    | [product fs, number (.exact q)] => sum [exact q, product fs]
    | as =>
      let inner : Formula → Option (List Formula)
        | sum bs => some bs
        | power (number b) (number (.exact e)) =>
          if isOpenPower b e then some [raiseWithin fuel (number b) (exact e)] else none
        | _ => none
      let ts := spread inner (sizeList as) as
      let constant := (ts.filterMap scalar?).foldl Scalar.add (.exact 0)
      let multiples := (ts.filter fun t => t.scalar?.isNone).foldl (fun ms t =>
        let (c, t) := t.splitCoefficient
        addMultiple c t ms) []
      let others := (multiples.filter fun (c, _) => !c.isZero).map fun (c, t) => multipleWithin fuel c t
      match constant with
      | .undefined => number .undefined
      | .exact q => if q = 0 then ofTerms (sort others) else ofTerms (exact q :: sort others)
      | .rounded b q => ofTerms (number (.rounded b q) :: sort others)
      | .infinite => ofTerms (number .infinite :: sort (others.filter fun t => !t.isConstant))

/-- A number in front of a term that has none. -/
def multipleWithin : Nat → Scalar → Formula → Formula
  | 0, c, a => product [number c, a]
  | fuel + 1, c, a =>
    if c = .exact 1 then a
    else match c, a with
      | .undefined, _ => number .undefined
      | c, product fs => product (number c :: fs)
      | c, sum ts => product [number c, sum ts]
      | c, a => timesWithin fuel [number c, a]

/-- A number in front of the terms of a sum. -/
def keepWithin : Nat → Rat → Formula → Formula
  | 0, c, a => product [exact c, a]
  | fuel + 1, c, a =>
    if a.isOne then exact c
    else if c = 1 then a
    else if c = -1 then negateWithin fuel a
    else match a with
      | sum ts => product [exact c, sum ts]
      | product (number s :: fs) =>
        let d := s.mul (.exact c)
        if d = .exact 1 then ofFactors fs else product (number d :: fs)
      | product fs => product (exact c :: fs)
      | a => timesWithin fuel [exact c, a]

/-- What a minus makes of a formula: it goes into a product, and into the terms of a sum. -/
def negateWithin : Nat → Formula → Formula
  | 0, a => product [exact (-1), a]
  | fuel + 1, a =>
    match a with
    | number s => number s.neg
    | sum ts => plusWithin fuel (ts.map (negateWithin fuel))
    | product fs => ofFactors (negatedFactors fs)
    | a => product [exact (-1), a]

/-- Works out powers of different bases. -/
def workPowersWithin : Nat → List (Formula × Formula) → PowersWorked
  | 0, ps => ⟨.exact 1, ps.map fun (b, e) => power b e, ps, false⟩
  | fuel + 1, ps =>
    ps.foldr (fun (b, e) w =>
      if e.value? = some 0 then w
      else match e.isOne, b with
        | true, number s => { w with coefficient := s.mul w.coefficient }
        | true, b => w.put b b e false
        | false, b =>
          let p := raiseWithin fuel b e
          if p.isPower && !b.isPower then
            let (c, f) := p.splitPower
            w.put p c f (!same b c)
          else w.put p b e false) .none

/-- Takes equal bases of powers together. -/
def gatherWithin : Nat → List (Formula × Formula) → List (Formula × Formula)
  | 0, ps => ps
  | fuel + 1, ps =>
    (ps.foldl (fun gs (b, e) => addPower b e gs) []).flatMap fun g =>
      g.exponents.map fun (c, e) => (g.base, timesWithin fuel [number c, e])

def timesWithin : Nat → List Formula → Formula
  | 0, as => ofFactors as
  | fuel + 1, as =>
    match as.filter fun a => !a.isOne with
    | [] => one
    | [a] => a
    | as =>
      match scaledSum? as with
      | some (c, ts) =>
        if c = .exact 1 then sum ts
        else match as, c with
          | [number _, sum ts], .exact c | [sum ts, number _], .exact c =>
            plusWithin fuel (ts.map (keepWithin fuel c))
          | _, c => product [number c, sum ts]
      | none =>
        let inner : Formula → Option (List Formula)
          | product bs => some bs
          | power (number b) (number (.exact e)) =>
            if isOpenFactor b e then some [raiseWithin fuel (number b) (exact e)] else none
          | _ => none
        let fs := (spread inner (sizeList as) as).foldl Factors.put .none
        let first := workPowersWithin fuel (gatherWithin fuel fs.powers)
        let worked :=
          if first.isNew && repeats first.powers then
            let second := workPowersWithin fuel (gatherWithin fuel first.powers)
            { second with coefficient := first.coefficient.mul second.coefficient }
          else first
        let exponentials := (gatherWithin fuel fs.exponentials).foldl (fun gs (b, e) => addBase e b gs) []
        let raised := (exponentials.filter fun (e, _) => e.value? ≠ some 0).map fun (e, bs) =>
          raiseWithin fuel (timesWithin fuel bs) e
        let surd := Surd.collect fs.roots fs.minusOne
        let coefficient := (fs.coefficient.mul worked.coefficient).mul (.exact surd.coefficient)
        finishWithin fuel coefficient (worked.parts ++ raised ++ (ofSurd { surd with coefficient := 1 }).factors)

/-- The product of a number and of factors with different bases. -/
def finishWithin : Nat → Scalar → List Formula → Formula
  | 0, c, as => product (number c :: as)
  | fuel + 1, c, as =>
    let c := (as.filterMap scalar?).foldl Scalar.mul c
    let others := sort (as.filter fun a => a.scalar?.isNone && !a.isOne)
    match c, others with
    | .undefined, _ => number .undefined
    | .infinite, others => ofFactors (number .infinite :: others.filter fun a => !a.isConstant)
    | c, [sum ts] =>
      if c = .exact 1 then sum ts
      else if c.isZero then number c
      else plusWithin fuel (ts.map fun t => timesWithin fuel [number c, t])
    | c, others =>
      if c = .exact 1 then ofFactors others
      else if c.isZero then if others.any isBroken then number .undefined else number c
      else ofFactors (number c :: others)

/-- A power of a product whose exponent is no integer: what is known to be positive is taken out. -/
def separateWithin : Nat → List Formula → Formula → Formula
  | 0, fs, e => power (product fs) e
  | fuel + 1, fs, e =>
    let (outside, inside) := match fs with
      | number s :: rest =>
        let positive := rest.filter isNonnegative
        let others := rest.filter fun a => !a.isNonnegative
        if !s.isNegative then (number s :: positive, others)
        else if others.isEmpty || s = .exact (-1) then (positive, others ++ [number s])
        else (number s.neg :: positive, others ++ [exact (-1)])
      | fs => (fs.filter isNonnegative, fs.filter fun a => !a.isNonnegative)
    match outside, inside with
    | [], _ => power (product fs) e
    | outside, [] => timesWithin fuel (outside.map fun a => raiseWithin fuel a e)
    | outside, inside =>
      timesWithin fuel (outside.map (fun a => raiseWithin fuel a e) ++ [power (timesWithin fuel inside) e])

def raiseWithin : Nat → Formula → Formula → Formula
  | 0, b, e => power b e
  | fuel + 1, b, e =>
    if e.isExactZero then one
    else if e.isOne then b
    else if b.isOne then if e.isBroken then number .undefined else one
    else match b, e with
      | number s, number t => numberPower s t
      | number .undefined, _ => number .undefined
      | _, number .undefined => number .undefined
      | _, number .infinite => number .undefined
      | number s, e =>
        if s.isZero then
          let (c, rest) := e.splitCoefficient
          if c.isNegative then power (number .infinite) rest else power zero rest
        else power (number s) e
      | euler, e => expWithin fuel e
      | imaginary, number (.exact e) =>
        if e.den = 1 then ofSurd (Surd.power (-1) (e / 2))
        else
          let root := power imaginary (exact (e - 2 * (e / 2).floor))
          if (e / 2).floor % 2 = 0 then root else product [exact (-1), root]
      | power c d, e =>
        if takesExponent c d e then raiseWithin fuel c (timesWithin fuel [d, e]) else power (power c d) e
      | call "exp" [a], e =>
        if takesExponent euler a e then expWithin fuel (timesWithin fuel [a, e]) else power (call "exp" [a]) e
      | product fs, number (.exact e) =>
        if e.den = 1 then timesWithin fuel (fs.map fun a => power a (exact e)) else separateWithin fuel fs (exact e)
      | product fs, number t => separateWithin fuel fs (number t)
      | b, e => power b e

/-- The exponential function, which undoes logarithms. -/
def expWithin : Nat → Formula → Formula
  | 0, a => call "exp" [a]
  | fuel + 1, a =>
    match a with
    | number (.exact q) => if q = 0 then one else if q = 1 then euler else call "exp" [exact q]
    | number (.rounded b q) => (((Approx.ofRat q).exp?).map (ofApprox b)).getD (number .undefined)
    | number _ => number .undefined
    | call "log" [c] => c
    | product [number (.exact q), pi, imaginary] =>
      if (2 * q).den = 1 then ofSurd (Surd.power (-1) q) else call "exp" [a]
    | product [pi, imaginary] => exact (-1)
    | product fs =>
      match fs.filterMap logarithm?, fs.filter fun f => f.logarithm?.isNone with
      | [c], others =>
        if others.all fun f => f.isConstant && !same f imaginary then
          raiseWithin fuel c (timesWithin fuel others)
        else call "exp" [product fs]
      | _, _ => call "exp" [product fs]
    | sum ts =>
      let parts := ts.map fun t => (t, if t.isOne then call "exp" [t] else expWithin fuel t)
      let inside := parts.filterMap fun (_, p) => exponent? p
      let outside := parts.filterMap fun (_, p) => if (exponent? p).isSome then none else some p
      let changed := parts.any fun (t, p) => (exponent? p).any fun a => !same a t
      if outside.isEmpty && !changed then call "exp" [sum ts]
      else timesWithin fuel (outside ++ [call "exp" [plusWithin fuel inside]])
    | a => call "exp" [a]

end

/-- How deep the operations go into each other: a few steps for every node. -/
def depth (as : List Formula) : Nat := 64 + 8 * sizeList as

def plus (as : List Formula) : Formula := plusWithin (depth as) as

def times (as : List Formula) : Formula := timesWithin (depth as) as

def raised (b e : Formula) : Formula := raiseWithin (depth [b, e]) b e

def negated (a : Formula) : Formula := negateWithin (depth [a]) a

/-- A number multiplied into a formula, but kept in front of a sum. -/
def keeping (c : Rat) (a : Formula) : Formula := keepWithin (depth [a]) c a

def minus (a b : Formula) : Formula := plus [a, negated b]

/-- A quotient: a product with a reciprocal. -/
def quotient (a b : Formula) : Formula :=
  match a, b with
  | number s, number t => number (s.div t)
  | a, b => if a.isOne then raised b (exact (-1)) else times [a, raised b (exact (-1))]

end Isolate.Formula
