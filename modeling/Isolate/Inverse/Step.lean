import Isolate.Inverse.Template
import Isolate.Expr.Analysis
import Isolate.Expr.Printing
import Isolate.Log

/-!
# Isolation steps

A `Step` undoes the outermost operation of one side of an equation: it peels the operation off that side and applies the
inverse to every other side. `Expr.inversion` finds the step for an analysed side, with the conditions it relies on:
divisors must not be zero. `Equation.transform` carries a step out; `Equation.applyInverse` does both for the side that
holds the variable.
-/

namespace Isolate

/-- How to undo the outermost operation of a side. -/
inductive Step where
  /-- Replace a call by its argument and call `inverse` on the other sides. -/
  | undo (inverse source : String) (tabulated : Bool)
  /-- Keep the ratio `kept` and multiply the other sides by `moved`. -/
  | multiply (moved kept : Ratio Expr)
  /-- Keep the terms `kept` and add `moved` to the other sides. -/
  | add (moved kept : List (Ratio Expr))
  /-- Drop a minus. -/
  | negate

/-- A step with the conditions under which it can be taken back. -/
structure Inversion where
  step : Step
  conditions : List String

/-! ## Finding a step -/

/-- The functions with a known inverse. -/
def knownInverses : List (String × String) :=
  [("sin", "arcsin"), ("cos", "arccos"), ("tan", "arctan"), ("cot", "arccot")]

namespace Expr

/-- How many variables an analysed expression has. -/
def variableCount (e : Expr) : Except Fault Nat := e.noted.map (·.vars.length)

/-- Undoes a call with one argument. A function without a known inverse gets one named by the template. -/
def invertCall (template name : String) (arguments : List Expr) : Except Fault Inversion :=
  if arguments.length ≠ 1 then .error (.argumentCount name arguments.length)
  else match knownInverses.lookup name with
    | some inverse => .ok ⟨.undo inverse name true, []⟩
    | none => (Template.fill template name).map fun inverse => ⟨.undo inverse name false, []⟩

/-- Parts factors into constant ones and those with one variable; ones are left out. -/
def partFactors : List Expr → Except Fault (List Expr × List Expr)
  | [] => .ok ([], [])
  | e :: es =>
    if e.isOne then partFactors es
    else do
      let count ← e.variableCount
      if 1 < count then throw (.crowdedFactor e.text count)
      let (constant, varying) ← partFactors es
      return if count = 0 then (e :: constant, varying) else (constant, e :: varying)

/-- The condition that a product of factors is not zero; no factors, no condition. -/
def nonzero (factors : List Expr) : List String :=
  if factors.isEmpty then [] else [" * ".intercalate (factors.map factorText) ++ " != 0"]

/-- Undoes a ratio by moving its constant factors to the other side of the fraction, if it has any. -/
def invertRatio (t : Ratio Expr) : Except Fault (Option Inversion) := do
  let (above, keptAbove) ← partFactors t.numerator
  let (below, keptBelow) ← partFactors t.denominator
  if above.isEmpty && below.isEmpty then return none
  return some ⟨.multiply ⟨below, above⟩ ⟨keptAbove, keptBelow⟩, nonzero below ++ nonzero above⟩

/-- Does some factor have a variable? The first that does settles it. -/
def anyVarying : List Expr → Except Fault Bool
  | [] => .ok false
  | e :: es => do if 0 < (← e.variableCount) then return true else anyVarying es

/-- Parts terms into constant ones, negated, and the others. -/
def partTerms : List (Ratio Expr) → Except Fault (List (Ratio Expr) × List (Ratio Expr))
  | [] => .ok ([], [])
  | t :: ts => do
    let varying ← anyVarying t.factors
    let (constant, rest) ← partTerms ts
    return if varying then (constant, t :: rest) else (t.neg :: constant, rest)

/-- Undoes a sum by moving its constant terms, if it has any. -/
def invertSum (ts : List (Ratio Expr)) : Except Fault (Option Inversion) := do
  let (moved, kept) ← partTerms ts
  return if moved.isEmpty then none else some ⟨.add moved kept, []⟩

/-- Undoes the outermost operation of a node, its sign apart. -/
def invertShape (template : String) : Shape Expr → Except Fault (Option Inversion)
  | .call name as => (invertCall template name as).map some
  | .power b e => do
    let _ ← b.noted
    let _ ← e.noted
    return none
  | .sum [t] => invertRatio t
  | .sum (t :: u :: ts) => invertSum (t :: u :: ts)
  | _ => .ok none

/-- The step that undoes the outermost operation of an analysed expression, if there is one. An expression that is
stuck but for its sign gets rid of the sign. -/
def inversion (template : String) (e : Expr) : Except Fault (Option Inversion) := do
  let _ ← e.noted
  match ← invertShape template e.shape with
  | some found => return some found
  | none => return if e.sign = .neg then some ⟨.negate, []⟩ else none

end Expr

/-- The report of a step that had to make up an inverse. -/
def Step.warnings : Step → List LogEntry
  | .undo inverse source false =>
    [⟨.warning, .inversion, s!"no inverse known for {source}(); using {inverse}() as a placeholder"⟩]
  | _ => []

/-! ## Taking a step -/

namespace Step

/-- What a step leaves of the side it undoes. -/
def peel (e : Expr) : Step → Except Fault Expr
  | negate => .ok e.abs
  | undo _ _ _ =>
    match e.shape with
    | .call _ (a :: _) => .ok a
    | .call _ [] => .error .noArgument
    | _ => .error .notCall
  | multiply _ kept => .ok (.sum [kept])
  | add _ kept => .ok (.sum kept)

/-- What a step makes of another side; `sign` is the sign of the side that is undone. -/
def apply (sign : Sign) (e : Expr) (step : Step) : Expr :=
  let other : Expr := ⟨e.sign * sign, e.shape, none⟩
  match step with
  | negate => other
  | undo inverse _ _ => .call inverse [other]
  | multiply moved _ => .sum [⟨moved.numerator ++ [other], moved.denominator⟩]
  | add moved _ => .sum (.of other :: moved)

/-- Takes a step at the side number `at?`; if there is none, every side is treated as another. -/
def takeAt (step : Step) (sign : Sign) : Option Nat → List Expr → Except Fault (List Expr)
  | _, [] => .ok []
  | some 0, e :: es => do return (← step.peel e) :: es.map fun e => step.apply sign e
  | some (n + 1), e :: es => do return step.apply sign e :: (← takeAt step sign (some n) es)
  | none, es => .ok (es.map fun e => step.apply sign e)

end Step

namespace Equation

/-- Takes a step at a side. A negative index counts from the end; its side gives the sign, but is not peeled. -/
def transform (step : Step) (index : Int) (q : Equation) : Except Fault Equation :=
  let n : Int := q.sides.length
  let place := if index < 0 then n + index else index
  match (if place < 0 then none else q.sides[place.toNat]?) with
  | none => .error .noSide
  | some side =>
    (step.takeAt side.sign (if index < 0 then none else some index.toNat) q.sides).map (⟨·⟩)

/-- The first side that holds the target, or any variable if there is no target. -/
def locateFrom (target : Option String) : Nat → List Expr → Except Fault (Option Nat)
  | _, [] => .ok none
  | i, e :: es => do
    let names := (← e.noted).vars
    let found := match target with
      | none => !names.isEmpty
      | some name => names.contains name
    if found then return some i else locateFrom target (i + 1) es

def locate (target : Option String) (q : Equation) : Except Fault (Option Nat) := locateFrom target 0 q.sides

/-- What an isolation step amounts to. -/
structure Isolated where
  equation : Equation
  conditions : List String
  log : List LogEntry

/-- One isolation step on an analysed equation of two sides. If there is nothing to undo, the equation stays as it is
and no condition arises. -/
def applyInverse (template : String) (target : Option String) (q : Equation) : Except Fault Isolated := do
  if q.sides.length ≠ 2 then throw (.sideCount q.sides.length)
  match ← q.locate target with
  | none => return ⟨q, [], []⟩
  | some i =>
    let side := q.sides.getD i default
    let names := (← side.noted).vars
    if 1 < names.length then throw (.crowdedSide side.text names)
    match ← side.inversion template with
    | none => return ⟨q, [], [⟨.debug, .inversion, s!"no inverse applies to {side.text}"⟩]⟩
    | some found => return ⟨← q.transform found.step i, found.conditions, found.step.warnings⟩

end Equation

end Isolate
