import Isolate.Scalar.Rounding

/-!
# Scalars

The numbers that formulas hold. Most are exact. A number that was written with a point or an exponent is rounded: it is
kept to a number of binary digits, and so is everything worked out from it; only a result of zero is exact again.
Dividing by zero gives the one infinite scalar, and what has no meaning is undefined.
-/

namespace Isolate

inductive Scalar where
  | exact (q : Rat)
  /-- A number of so many binary digits. -/
  | rounded (bits : Nat) (value : Rat)
  | infinite
  | undefined
  deriving DecidableEq, Repr, Inhabited

namespace Scalar

/-- The value of a finite scalar. -/
def value? : Scalar → Option Rat
  | exact q => some q
  | rounded _ q => some q
  | _ => none

def rational? : Scalar → Option Rat
  | exact q => some q
  | _ => none

def isRounded : Scalar → Bool
  | rounded _ _ => true
  | _ => false

def isZero (s : Scalar) : Bool := s.value? == some 0

def isNegative (s : Scalar) : Bool := s.value?.any (· < 0)

/-- A rounded number as it was written: with 15 decimal digits at least. -/
def ofDecimal (digits : Nat) (q : Rat) : Scalar :=
  let bits := Rounding.bitsFor (max 15 digits)
  rounded bits (Rounding.binary bits q)

/-- What comes out of a calculation with so many binary digits. -/
def ofResult (bits : Nat) (q : Rat) : Scalar := if q = 0 then exact 0 else rounded bits (Rounding.binary bits q)

/-- The exact number that is shown for a finite scalar. -/
def shown? : Scalar → Option Rat
  | exact q => some q
  | rounded bits q => some (Rounding.decimal (Rounding.digitsOf bits) q)
  | _ => none

/-- The written form of an exact, infinite or undefined scalar. -/
def text? : Scalar → Option String
  | exact q => some (Number.text q)
  | rounded _ _ => none
  | infinite => some "zoo"
  | undefined => some "nan"

/-! ## Arithmetic -/

/-- An operation on two finite scalars: one that is rounded has the other rounded too. -/
def combine (f : Rat → Rat → Rat) (s t : Scalar) : Scalar :=
  match s, t with
  | exact p, exact q => exact (f p q)
  | rounded b p, exact q => ofResult b (f p (Rounding.binary b q))
  | exact p, rounded c q => ofResult c (f (Rounding.binary c p) q)
  | rounded b p, rounded c q => ofResult (max b c) (f p q)
  | _, _ => undefined

def add (s t : Scalar) : Scalar :=
  match s, t with
  | undefined, _ => undefined
  | _, undefined => undefined
  | infinite, infinite => undefined
  | infinite, _ => infinite
  | _, infinite => infinite
  | s, t => combine (· + ·) s t

def neg : Scalar → Scalar
  | exact q => exact (-q)
  | rounded b q => rounded b (-q)
  | s => s

def mul (s t : Scalar) : Scalar :=
  match s, t with
  | undefined, _ => undefined
  | _, undefined => undefined
  | infinite, t => if t.isZero then undefined else infinite
  | s, infinite => if s.isZero then undefined else infinite
  | s, t => combine (· * ·) s t

/-- A rational number to an integer power. -/
def ratPow (q : Rat) (n : Int) : Rat :=
  let power : Rat := mkRat (Int.pow q.num n.natAbs) (Nat.pow q.den n.natAbs)
  if n < 0 then 1 / power else power

/-- A scalar to an integer power; zero to a negative one is infinite. -/
def pow (s : Scalar) (n : Int) : Scalar :=
  if n = 0 then exact 1
  else match s with
    | exact q => if q = 0 ∧ n < 0 then infinite else exact (ratPow q n)
    | rounded b q => if q = 0 ∧ n < 0 then infinite else ofResult b (ratPow q n)
    | infinite => if n < 0 then exact 0 else infinite
    | undefined => undefined

def div (s t : Scalar) : Scalar :=
  match s, t with
  | rounded b p, exact q => if q = 0 then infinite else ofResult b (p / Rounding.binary b q)
  | rounded b p, rounded c q => if q = 0 then infinite else ofResult (max b c) (p / q)
  | s, t => s.mul (t.pow (-1))

/-- The remainder of a division into whole parts downward. -/
def floorMod (p q : Rat) : Rat := p - q * (p / q).floor

/-- The remainder of a division; there is none by zero. Between two rounded numbers whose quotient is rounded to an
integer nothing is left. -/
def mod? (s t : Scalar) : Option Scalar :=
  match s, t with
  | exact p, exact q => if q = 0 then none else some (exact (floorMod p q))
  | exact p, rounded c q => if q = 0 then none else some (ofResult c (floorMod p q))
  | rounded b p, exact q => if q = 0 then none else some (ofResult b (floorMod p q))
  | rounded b p, rounded c q =>
    if q = 0 then none
    else
      let bits := max b c
      if (Rounding.binary bits (p / q)).den = 1 then some (exact 0) else some (ofResult bits (floorMod p q))
  | _, _ => some undefined

/-- A finite scalar cut to an integer, toward zero. -/
def cut? (s : Scalar) : Option Int := s.value?.map fun q => q.num.tdiv q.den

/-! ## Order -/

/-- A rounded number as an odd number times a power of two: its sign, the odd number, the exponent, and how many binary
digits the odd number has. -/
def odd (q : Rat) : Bool × Nat × Int × Nat :=
  if q.num = 0 then (false, 0, 0, 0)
  else
    let rec strip : Nat → Nat → Nat → Nat × Nat
      | 0, n, k => (n, k)
      | fuel + 1, n, k => if n % 2 = 0 then strip fuel (n / 2) (k + 1) else (n, k)
    let (n, k) := strip (q.num.natAbs.log2 + 1) q.num.natAbs 0
    (decide (q.num < 0), n, (k : Int) - q.den.log2, n.log2 + 1)

/-- The order of rounded numbers, by how they are stored. -/
def compareRounded (b : Nat) (p : Rat) (c : Nat) (q : Rat) : Ordering :=
  let (s, m, e, w) := odd p
  let (t, n, f, v) := odd q
  (((Ord.compare s t).then ((Ord.compare m n).then ((Ord.compare e f).then (Ord.compare w v)))).then
    (Ord.compare b c))

end Scalar

end Isolate
