import Isolate.Formula.Function
import Isolate.Formula.Phrase
import Isolate.Formula.Remainder
import Isolate.Expr.Basic

/-!
# Reading equation text

A text is a phrase, a phrase amounts to a formula, and a formula becomes an expression. The formula is written down as
the text has it; only a minus, a factorial and a remainder are worked out, and what a remainder is taken of is worked
out all through. In the expression, a product is a ratio: factors that are minus one change its sign, powers with a
negative number as exponent go below, and everything else stays above.

* `Expr.ofText` reads one side, `Equation.ofText` an equation of two or more sides.
-/

namespace Isolate

/-! ## From phrases to formulas -/

/-- A formula, and how it is taken in by a sum or a product around it: only what was written as a sum is spliced into a
sum, and only what was written as a product into a product. -/
inductive Worked where
  | sum (terms : List Formula)
  | product (factors : List Formula)
  | whole (a : Formula)

namespace Worked

def formula : Worked → Formula
  | sum ts => .sum ts
  | product fs => .product fs
  | whole a => a

/-- What it adds to a sum around it. -/
def terms : Worked → List Formula
  | sum ts => ts
  | w => [w.formula]

/-- What it multiplies a product around it by. -/
def factors : Worked → List Formula
  | product fs => fs
  | w => [w.formula]

end Worked

namespace Formula

def isRelation : Formula → Bool
  | relation => true
  | _ => false

/-- Comparisons and lists have no sign. -/
def hasSign : Formula → Bool
  | relation => false
  | listing => false
  | _ => true

/-- How many arguments a function can have. -/
def fits (function : String) (arguments : List Formula) : Bool :=
  arguments.length = 1 || (function = "log" && arguments.length = 2)

/-- A call as it stands. -/
def ofCall (function : String) (arguments : List Formula) : Formula :=
  match function, arguments with
  | "sqrt", [a] => power a (exact (1 / 2))
  | f, as => call f as

/-- The product of every second number down from an integer; of an even negative one there is none. -/
def doubleFactorial? (a : Formula) : Option Formula :=
  match a with
  | number (.exact q) =>
    if q.den ≠ 1 then none
    else if 0 ≤ q then some (exact (everySecond q.num.toNat q.num.toNat))
    else if q.num % 2 = 0 then none
    else
      let n := q.num.natAbs
      let sign : Rat := if (n + 1) / 2 % 2 = 0 then q else -q
      some (exact (sign / everySecond n n))
  | number _ => none
  | a => some (call "factorial2" [a])
where
  everySecond : Nat → Nat → Nat
    | 0, _ => 1
    | _ + 1, 0 => 1
    | fuel + 1, n + 1 => (n + 1) * everySecond fuel (n - 1)

end Formula

namespace Phrase

/-- Operands of a sum or a product must not be comparisons. -/
def operands (fault : Fault) (as : List Formula) : Except Fault (List Formula) :=
  if as.any Formula.isRelation then .error fault else .ok as

/-- Works out a call; all functions that can be written have a meaning. -/
def callOut (fault : Fault) (function : String) (as : List Formula) : Except Fault Formula :=
  if Formula.fits function as then Formula.called (fun _ => true) function as else .error fault

mutual

/-- Works out a phrase all through; `fault` tells that it has no meaning. -/
def workOut (fault : Fault) : Phrase → Except Fault Formula
  | integer n => .ok (.exact n)
  | decimal s => .ok (.number s)
  | imaginary => .ok .imaginary
  | name s => .ok (.name s)
  | plus a => workOut fault a
  | minus a => do return (← workOut fault a).negated
  | binary op a b => do
    let a ← workOut fault a
    let b ← workOut fault b
    match op with
    | .add => return .plus [a, b]
    | .sub => return .minus a b
    | .mul => return .times [a, b]
    | .div => return .quotient a b
    | .pow => return .raised a b
    | .mod => Formula.remainder a b
  | factorial a => do return (← workOut fault a).fact
  | doubleFactorial a => do
    match (← workOut fault a).doubleFactorial? with
    | some a => return a
    | none => throw fault
  | call f as => do callOut fault f (← workOutEach fault as)
  | tuple _ => .error fault
  | comparison _ _ => .error fault

def workOutEach (fault : Fault) : List Phrase → Except Fault (List Formula)
  | [] => .ok []
  | p :: ps => do return (← workOut fault p) :: (← workOutEach fault ps)

end

mutual

/-- The formula of a phrase as it stands; `fault` tells that it has no meaning. -/
def work (fault : Fault) : Phrase → Except Fault Worked
  | integer n => .ok (.whole (.exact n))
  | decimal s => .ok (.whole (.number s))
  | imaginary => .ok (.whole .imaginary)
  | name s => .ok (.whole (.name s))
  | plus a => do
    let a := (← work fault a).formula
    if a.hasSign then return .whole a else throw fault
  | minus a => do
    let a := (← work fault a).formula
    if a.hasSign then return .whole a.negated else throw fault
  | binary .mod a b => do return .whole (← Formula.remainder (← workOut fault a) (← workOut fault b))
  | binary op a b => do
    let a ← work fault a
    let b ← work fault b
    match op with
    | .add => return .sum (← operands fault (a.terms ++ b.terms))
    | .sub => return .sum (a.terms ++ [.product (← operands fault [.exact (-1), b.formula])])
    | .mul => return .product (← operands fault (a.factors ++ b.factors))
    | .div => return .product (a.factors ++ [.power b.formula (.exact (-1))])
    | _ => return .whole (.power a.formula b.formula)
  | factorial a => do return .whole (← work fault a).formula.fact
  | doubleFactorial a => do
    match (← work fault a).formula.doubleFactorial? with
    | some a => return .whole a
    | none => throw fault
  | call f as => do
    let as ← workEach fault as
    if Formula.fits f as then return .whole (Formula.ofCall f as) else throw fault
  | tuple items => do
    let _ ← workEach fault items
    return .whole .listing
  | comparison a b => do
    let _ ← work fault a
    let _ ← work fault b
    return .whole .relation

def workEach (fault : Fault) : List Phrase → Except Fault (List Formula)
  | [] => .ok []
  | p :: ps => do return (← work fault p).formula :: (← workEach fault ps)

end

end Phrase

/-! ## From formulas to expressions -/

/-- An expression, and what it is as a factor and as a term. -/
structure Written where
  expr : Expr
  /-- Does it change the sign of a product? -/
  flips : Bool
  /-- What it multiplies a product by, its sign apart. -/
  factor : Ratio Expr
  /-- What it adds to a sum. -/
  term : Ratio Expr

namespace Written

/-- An expression that stands for itself. -/
def plain (e : Expr) : Written := ⟨e, false, .of e, .of e⟩

/-- The expression of a rational number; a minus goes into the sign. -/
def number (q : Rat) : Expr := ⟨if q < 0 then .neg else .pos, .number (if q < 0 then -q else q), none⟩

/-- Something under a fraction bar. -/
def below (e : Expr) : Written := ⟨.sum [⟨[], [e]⟩], false, ⟨[], [e]⟩, ⟨[], [e]⟩⟩

/-- Minus one: as a factor, nothing but a change of sign. -/
def minusOne : Written := ⟨number (-1), true, ⟨[], []⟩, Ratio.neg ⟨[], []⟩⟩

/-- The product of factors. -/
def product (ws : List Written) : Written :=
  let ratio : Ratio Expr := ⟨ws.flatMap (·.factor.numerator), ws.flatMap (·.factor.denominator)⟩
  let term := if ws.foldl (fun s w => s ^^ w.flips) false then ratio.neg else ratio
  ⟨.sum [term], false, .of (.sum [term]), term⟩

/-- A power; one with a negative number as exponent is under a fraction bar. -/
def power (base : Expr) (exponent : Formula) (written : Expr) : Written :=
  match exponent.rational? with
  | some n =>
    if n = -1 then below base
    else if n < 0 then below (base.pow (number (-n)))
    else plain (base.pow written)
  | none => plain (base.pow written)

end Written

namespace Formula

mutual

def write : Formula → Except Fault Written
  | number s =>
    match s.shown? with
    | some q => .ok (if s = .exact (-1) then Written.minusOne else Written.plain (Written.number q))
    | none => .error .unsupported
  | name s => .ok (Written.plain (.var s))
  | sum ts => do return Written.plain (.sum ((← writeEach ts).map (·.term)))
  | product fs => do return Written.product (← writeEach fs)
  | power b e => do
    let b ← write b
    let written ← write e
    return Written.power b.expr e written.expr
  | modulo a b => do return Written.plain (.ofShape (.modulo (← write a).expr (← write b).expr))
  | factorial a => do return Written.plain (.ofShape (.factorial (← write a).expr))
  | call f as => do return Written.plain (.call f ((← writeEach as).map (·.expr)))
  | euler | pi | imaginary | listing | relation => .error .unsupported

def writeEach : List Formula → Except Fault (List Written)
  | [] => .ok []
  | a :: as => do return (← write a) :: (← writeEach as)

end

end Formula

/-! ## Sides and equations -/

/-- Reads one side of an equation. -/
def Expr.ofText (side : String) : Except Fault Expr :=
  let cs := Text.trim side.toList
  if cs.isEmpty then .error .emptySide
  else match Phrase.parse? cs with
    | none => .error (.unreadable side)
    | some p => do return (← (← p.work (.unreadable side)).formula.write).expr

/-- The parts of a text between equals signs. -/
def splitSides : List Char → List (List Char)
  | [] => [[]]
  | c :: cs =>
    if c = '=' then [] :: splitSides cs
    else match splitSides cs with
      | [] => [[c]]
      | part :: parts => (c :: part) :: parts

/-- Reads an equation, side by side. -/
def Equation.ofText (s : String) : Except Fault Equation :=
  match splitSides s.toList with
  | _ :: _ :: _ => do return ⟨← (splitSides s.toList).mapM fun part => Expr.ofText (String.ofList part)⟩
  | _ => .error (.noEquality s)

end Isolate
