import Isolate.Approx.Function
import Isolate.Formula.Basic
import Isolate.Random

/-!
# Formulas at a point

What a formula amounts to approximately when its names stand for approximate numbers. How remainders, factorials and
functions without a known meaning are taken is left to the `Point`:

* a constant has no names, and only real remainders;
* at a real point everything that real numbers go into has to be a real number again;
* at a generic point the names stand for numbers without a pattern, real or complex, and remainders and functions
  without a meaning for some operations without a pattern, so that two formulas have the same value only if they are
  equal (`Formula.vanishes`).
-/

namespace Isolate

/-- What the parts of a formula stand for at a point. -/
structure Point where
  name : String → Option Approx
  modulo : Approx → Approx → Option Approx
  factorial : Approx → Option Approx
  /-- Functions without a known meaning. -/
  function : String → List Approx → Option Approx
  /-- Do powers and functions of real numbers have to be real? -/
  isReal : Bool

namespace Point

/-- The remainder of a division of real numbers into whole parts downward. -/
def realModulo (z w : Approx) : Option Approx :=
  if z.im ≠ 0 ∨ w.im ≠ 0 ∨ w.re = 0 then none else some (.real (z.re - w.re * z.re.fdiv w.re))

/-- Refuses a result that is not real though what it comes from is. -/
def checked (p : Point) (zs : List Approx) (z : Option Approx) : Option Approx :=
  let z := z.map (·.settle)
  if p.isReal && zs.all (·.im = 0) then z.filter (·.im = 0) else z

/-! ## Kinds of points -/

/-- Where nothing but numbers and functions of numbers has a value. -/
def constant : Point where
  name := fun _ => none
  modulo := realModulo
  factorial := Approx.factorial?
  function := fun _ _ => none
  isReal := false

/-- At a real point, names stand for given numbers. Functions without a known meaning have no value there, and
factorials have none. -/
def real (values : List (String × Rat)) : Point where
  name := fun s => (values.lookup s).map .ofRat
  modulo := realModulo
  factorial := fun _ => none
  function := fun _ _ => none
  isReal := true

/-- Random numbers between a tenth and nine tenths, as rounded numbers. -/
def realNumbers (count : Nat) : List Rat :=
  (Random.units count (.ofSeed 0)).map fun u =>
    Rounding.binary 53 (Rounding.binary 53 (1 / 10) + Rounding.binary 53 (Rounding.binary 53 (8 / 10) * u))

/-- Some real points, with numbers of their own for each name. -/
def reals (names : List String) (count : Nat) : List Point :=
  let numbers := realNumbers (count * names.length)
  (List.range count).map fun i => real (names.zip (numbers.drop (i * names.length)))

/-- A number between zero and one, without a pattern. -/
def scattered (i : Nat) : Rat :=
  let modulus := 2147483647
  let next (n : Nat) : Nat := (n * n + 48271 * n + 12345) % modulus
  mkRat (next (next (next (i * 7919 + 1)))) modulus

/-- A number that belongs to a name. -/
def keyOf (s : String) : Nat := s.foldl (fun h c => (h * 31 + c.toNat + 7) % 1000000007) 11

/-- Some operation that belongs to a name. -/
def someOperation (s : String) (zs : List Approx) : Option Approx :=
  let start : Approx := .ofRat (mkRat (keyOf s + 1) 1000000007)
  zs.foldlM (fun v z => ((v.mul v).add z).div? ((v.add (z.add z)).add (.ofInt 3))) start

/-- How far from zero the numbers at a generic point can be. -/
def reach (i : Nat) : Rat := if i % 2 = 0 then 1 else if i % 4 = 1 then 5 else 40

/-- At a generic point, the numbers lie on all sides of zero, near to it and far from it; at every third point they are
real. -/
def generic (names : List String) (i : Nat) : Point where
  name := fun s => (names.idxOf? s).map fun j =>
    let part (k : Nat) : Int := (Approx.ofRat ((2 * scattered (100 + k) - 1) * reach i)).re
    let k := 2 * (i * names.length + j)
    ⟨part k, if i % 3 = 0 then 0 else part (k + 1)⟩
  modulo := fun z w => someOperation "" [z, w]
  factorial := Approx.factorial?
  function := someOperation
  isReal := false

end Point

namespace Formula

/-- A power with a given exponent; square roots are taken as such. -/
def powerAt (z w : Approx) : Formula → Option Approx
  | number (.exact e) =>
    if e.den = 2 then (z.sqrt).intPow? e.num else if e.den = 1 then z.intPow? e.num else z.pow? w
  | _ => z.pow? w

mutual

/-- The value of a formula. -/
def valueAt (p : Point) : Formula → Option Approx
  | number s => s.value?.map .ofRat
  | euler => Approx.one.exp?
  | pi => some .pi
  | imaginary => some .imaginary
  | name s => p.name s
  | sum as => (valuesAt p as).map (·.foldl Approx.add .zero)
  | product as => (valuesAt p as).map (·.foldl Approx.mul .one)
  | power b e => do
    let z ← valueAt p b
    let w ← valueAt p e
    p.checked [z, w] (powerAt z w e)
  | modulo a b => do p.modulo (← valueAt p a) (← valueAt p b)
  | factorial a => do p.factorial (← valueAt p a)
  | call f as => do
    let zs ← valuesAt p as
    match hasMeaning f, zs with
    | true, [z] => p.checked zs (z.call? f)
    | _, zs => p.function f zs
  | listing | relation => none

def valuesAt (p : Point) : List Formula → Option (List Approx)
  | [] => some []
  | a :: as => do return (← valueAt p a) :: (← valuesAt p as)

end

/-! ## Constants -/

/-- A real number without names, cut toward zero. -/
def cut? : Formula → Option Int
  | number s => s.cut?
  | a => do
    let z ← a.valueAt Point.constant
    if z.settle.im = 0 then some (z.re.tdiv Approx.unit) else none

/-- Is a formula without names a negative real number? -/
def isNegativeConstant (a : Formula) : Bool :=
  match a with
  | number s => s.isNegative
  | a => (a.valueAt Point.constant).any fun z => z.settle.im = 0 ∧ z.settle.re < 0

/-! ## Zero -/

/-- The value at a point, and the size of all that it is the sum of. -/
def balanceAt (p : Point) (a : Formula) : Option (Nat × Nat) := do
  let zs ← valuesAt p a.terms
  return ((zs.foldl Approx.add .zero).abs, zs.foldl (fun n z => n + z.abs) Approx.unit.toNat)

def genericCount : Nat := 24

/-- Is the value of a formula nothing but rounding at every generic point? Points where it has none do not count, as
long as it has one at a quarter of them. -/
def vanishes (a : Formula) : Bool :=
  let names := a.names.mergeSort (· ≤ ·)
  let balances := (List.range genericCount).filterMap fun i => a.balanceAt (Point.generic names i)
  genericCount ≤ 4 * balances.length && balances.all fun (size, scale) => size * Nat.pow 2 80 ≤ scale

def realCount : Nat := 5

/-- A thousand millionth as a rounded number. -/
def smallest : Rat := Rounding.binary 53 (1 / 1000000000)

/-- Is the value of a formula at most a thousand millionth at every real point? -/
def isSmall (a : Formula) : Bool :=
  (Point.reals (a.names.mergeSort (· ≤ ·)) realCount).all fun p =>
    (a.valueAt p).any fun z => Rounding.binary 53 (mkRat z.abs Approx.unit.toNat) ≤ smallest

/-- Is a formula an exact number of at most a thousand millionth? -/
def isTinyNumber (a : Formula) : Bool :=
  a.rational?.any fun q => Rounding.binary 53 (Rounding.magnitude q) ≤ smallest

end Formula

end Isolate
