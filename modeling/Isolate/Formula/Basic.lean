import Isolate.Scalar.Basic

/-!
# Formulas

A formula is a number, a name, or an operator applied to formulas. Sums and products have any number of operands. What a
text says becomes a formula that is written down as it stands; what an expression amounts to becomes one that is worked
out (`Formula.plus`, `Formula.times`, `Formula.raised` and what is built from them), where equal things are written
alike.
-/

namespace Isolate

inductive Formula where
  | number (s : Scalar)
  /-- The base of the natural logarithm. -/
  | euler
  /-- Half of the length of the unit circle. -/
  | pi
  /-- The square root of minus one. -/
  | imaginary
  | name (s : String)
  | sum (terms : List Formula)
  | product (factors : List Formula)
  | power (base exponent : Formula)
  | modulo (dividend divisor : Formula)
  | factorial (operand : Formula)
  | call (function : String) (arguments : List Formula)
  /-- A list of things. -/
  | listing
  /-- A comparison of two things. -/
  | relation
  deriving Repr, Inhabited

namespace Formula

/-! ## Numbers -/

def exact (q : Rat) : Formula := number (.exact q)

def zero : Formula := exact 0

def one : Formula := exact 1

def scalar? : Formula → Option Scalar
  | number s => some s
  | _ => none

/-- The value of an exact number. -/
def rational? : Formula → Option Rat
  | number (.exact q) => some q
  | _ => none

/-- The value of a finite number, exact or rounded. -/
def value? : Formula → Option Rat
  | number s => s.value?
  | _ => none

def isOne (a : Formula) : Bool := a.rational? == some 1

def isExactZero (a : Formula) : Bool := a.rational? == some 0

/-! ## Parts -/

/-- The sum of some terms as it stands; one term is itself. -/
def ofTerms : List Formula → Formula
  | [] => zero
  | [a] => a
  | as => sum as

/-- The product of some factors as it stands; one factor is itself. -/
def ofFactors : List Formula → Formula
  | [] => one
  | [a] => a
  | as => product as

def terms : Formula → List Formula
  | sum as => as
  | a => [a]

def factors : Formula → List Formula
  | product as => as
  | a => [a]

/-- The number in front, one if there is none, and what it multiplies. -/
def splitCoefficient : Formula → Scalar × Formula
  | number .infinite => (.exact 1, number .infinite)
  | number s => (s, one)
  | product (number .infinite :: rest) => (.exact 1, product (number .infinite :: rest))
  | product (number s :: rest) => (s, ofFactors rest)
  | a => (.exact 1, a)

/-- Base and exponent; what is no power has the exponent one. A power of a unit fraction counts as one of its
denominator. -/
def splitPower : Formula → Formula × Formula
  | power (number (.exact q)) e =>
    if q.num = 1 ∧ q.den ≠ 1 then
      match e with
      | number s => (exact q.den, number s.neg)
      | e => (exact q, e)
    else (exact q, e)
  | power b e => (b, e)
  | call "exp" [a] => (euler, a)
  | a => (a, one)

def isPower : Formula → Bool
  | power _ _ => true
  | _ => false

def isModulo : Formula → Bool
  | modulo _ _ => true
  | _ => false

/-! ## Size and names -/

mutual

/-- The number of nodes. -/
def size : Formula → Nat
  | sum as => sizeList as + 1
  | product as => sizeList as + 1
  | power b e => size b + size e + 1
  | modulo a b => size a + size b + 1
  | factorial a => size a + 1
  | call _ as => sizeList as + 1
  | _ => 1

def sizeList : List Formula → Nat
  | [] => 0
  | a :: as => size a + sizeList as

end

mutual

/-- The open names, each once. -/
def names : Formula → List String
  | name s => [s]
  | sum as => namesOf as
  | product as => namesOf as
  | power b e => merge b.names e.names
  | modulo a b => merge a.names b.names
  | factorial a => a.names
  | call _ as => namesOf as
  | _ => []

def namesOf : List Formula → List String
  | [] => []
  | a :: as => merge a.names (namesOf as)

/-- Two lists of names without repeats. -/
def merge (ms ns : List String) : List String := ms.filter (fun s => !ns.contains s) ++ ns

end

mutual

/-- Is there a number that is not finite, or something that is no number at all? -/
def isBroken : Formula → Bool
  | number s => s.value?.isNone
  | listing | relation => true
  | sum as => anyBroken as
  | product as => anyBroken as
  | power b e => b.isBroken || e.isBroken
  | modulo a b => a.isBroken || b.isBroken
  | factorial a => a.isBroken
  | call _ as => anyBroken as
  | _ => false

def anyBroken : List Formula → Bool
  | [] => false
  | a :: as => a.isBroken || anyBroken as

end

mutual

/-- How often a remainder occurs. -/
def countModulo : Formula → Nat
  | sum as => countModuloOf as
  | product as => countModuloOf as
  | power b e => b.countModulo + e.countModulo
  | modulo a b => a.countModulo + b.countModulo + 1
  | factorial a => a.countModulo
  | call _ as => countModuloOf as
  | _ => 0

def countModuloOf : List Formula → Nat
  | [] => 0
  | a :: as => a.countModulo + countModuloOf as

end

/-- The functions with a known meaning. -/
def knownFunctions : List String := ["sin", "cos", "tan", "cot", "arcsin", "arccos", "arctan", "arccot", "exp", "log"]

def hasMeaning (function : String) : Bool := knownFunctions.contains function

mutual

/-- Does a call of a function without a known meaning occur? -/
def hasUnknown : Formula → Bool
  | call f as => !hasMeaning f || anyUnknown as
  | sum as => anyUnknown as
  | product as => anyUnknown as
  | power b e => b.hasUnknown || e.hasUnknown
  | modulo a b => a.hasUnknown || b.hasUnknown
  | factorial a => a.hasUnknown
  | _ => false

def anyUnknown : List Formula → Bool
  | [] => false
  | a :: as => a.hasUnknown || anyUnknown as

end

/-- Is a formula a number, written as it may be? -/
def isConstant (a : Formula) : Bool := a.names.isEmpty && !a.isBroken && !a.hasUnknown

end Formula

end Isolate
