import Isolate.Approx.Basic

/-!
# Functions of approximate numbers

The functions of angles come from the exponential function, what undoes them from the logarithm. The factorial of any
number is that of a number far to the right, where its series is good, divided by the numbers between.
-/

namespace Isolate.Approx

/-! ## Functions of angles -/

/-- The exponential function at a number turned by a right angle, and at its negative. -/
def waves? (z : Approx) : Option (Approx × Approx) := do return (← z.turn.exp?, ← z.turn.neg.exp?)

def sin? (z : Approx) : Option Approx := do
  let (p, q) ← z.waves?
  return (p.sub q).turn.neg.half

def cos? (z : Approx) : Option Approx := do
  let (p, q) ← z.waves?
  return (p.add q).half

def tan? (z : Approx) : Option Approx := do (← z.sin?).div? (← z.cos?)

def cot? (z : Approx) : Option Approx := do (← z.cos?).div? (← z.sin?)

/-- The square root of one minus the square. -/
def complement (z : Approx) : Approx := (one.sub (z.mul z)).sqrt

def arcsin? (z : Approx) : Option Approx := do return (← (z.turn.add z.complement).log?).turn.neg

def arccos? (z : Approx) : Option Approx := do return pi.half.sub (← z.arcsin?)

def arctan? (z : Approx) : Option Approx := do
  return ((← (one.sub z.turn).log?).sub (← (one.add z.turn).log?)).turn.half

def arccot? (z : Approx) : Option Approx :=
  if z.settle = zero then some pi.half else do (← one.div? z).arctan?

/-! ## Factorials -/

/-- The binomial coefficients of a row of the triangle. -/
def binomials : Nat → List Nat
  | 0 => [1]
  | n + 1 => (binomials n ++ [0]).zipWith (· + ·) (0 :: binomials n)

/-- The first coefficients of the series of `z / (exp z - 1)`, each times the factorial of its place. -/
def bernoulli : Nat → List Rat
  | 0 => []
  | n + 1 =>
    let before := bernoulli n
    let sum : Rat := (before.zip (binomials (n + 1))).foldl (fun s (b, c) => s + b * (c : Rat)) 0
    before ++ [if n = 0 then 1 else -sum / ((n + 1 : Nat) : Rat)]

/-- How far to the right the series is used. -/
def farOff : Nat := 80

/-- The coefficients of the series of the logarithm of the factorial. -/
def factorialCoefficients : List Rat :=
  (List.range 40).map fun k => (bernoulli 82).getD (2 * k + 2) 0 / (((2 * k + 2) * (2 * k + 1) : Nat) : Rat)

/-- The sum of coefficients times the odd powers of a number. -/
def oddSum (square : Approx) : List Rat → Approx → Approx
  | [], _ => zero
  | c :: cs, power => ((ofRat c).mul power).add (oddSum square cs (power.mul square))

/-- The logarithm of the factorial of a number far off. -/
def logFactorial? (z : Approx) : Option Approx := do
  let inverse ← one.div? z
  let main := (((z.add one.half).mul (← z.log?)).sub z).add (← (pi.add pi).log?).half
  return main.add (oddSum (inverse.mul inverse) factorialCoefficients inverse)

/-- The product of `z + 1` to `z + n`. -/
def rising (z : Approx) : Nat → Approx
  | 0 => one
  | n + 1 => (rising z n).mul (z.add (ofInt (n + 1 : Nat)))

/-- The factorial; there is none of a negative integer. -/
def factorial? (z : Approx) : Option Approx := do
  if limit < z.re.natAbs / unit.toNat then none
  else
    let steps := farOff + (-(z.re / unit)).toNat
    let power ← (← (z.add (ofInt steps)).logFactorial?).exp?
    let below := z.rising steps
    if below.settle = zero then none else power.div? below

/-- A function with a known meaning. -/
def call? (function : String) (z : Approx) : Option Approx :=
  match function with
  | "sin" => z.sin?
  | "cos" => z.cos?
  | "tan" => z.tan?
  | "cot" => z.cot?
  | "arcsin" => z.arcsin?
  | "arccos" => z.arccos?
  | "arctan" => z.arctan?
  | "arccot" => z.arccot?
  | "exp" => z.exp?
  | "log" => z.log?
  | _ => none

end Isolate.Approx
