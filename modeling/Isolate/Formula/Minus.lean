import Isolate.Formula.Order

/-!
# Which of two opposite formulas has the minus

Of a formula and its negative, one counts as the one with the minus (`Formula.hasMinus`). For numbers and products that
is plain to see. A sum has it if more of its terms have it than not; if there are as many of one kind as of the other,
the leading term decides, in the order of powers of names.
-/

namespace Isolate.Formula

/-- A factor as a base and a rational exponent. -/
def basePower (a : Formula) : Formula × Rat :=
  match a.splitPower with
  | (b, number (.exact e)) => (b, e)
  | _ => (a, 1)

/-- The powers that a term is made of; numbers are left out. -/
def monomial (a : Formula) : List (Formula × Rat) :=
  (a.splitCoefficient.2.factors.filter fun f => !f.isConstant).map basePower

/-- Names come before everything else. -/
def compareBase : Formula → Formula → Ordering
  | name s, name t => Ord.compare s t
  | name _, _ => .lt
  | _, name _ => .gt
  | a, b => compare a b

/-- The exponent of a base. -/
def exponentOf (base : Formula) (m : List (Formula × Rat)) : Rat :=
  ((m.find? fun p => same p.1 base).map (·.2)).getD 0

/-- Does a term lead another one? The first base with different exponents decides. -/
def leads (a b : Formula) : Bool :=
  let bases := ((a.monomial ++ b.monomial).map (·.1)).mergeSort fun p q => (compareBase p q).isLE
  match bases.find? fun p => exponentOf p a.monomial ≠ exponentOf p b.monomial with
  | some p => exponentOf p b.monomial < exponentOf p a.monomial
  | none => false

/-- The leading term. -/
def leading : List Formula → Option Formula
  | [] => none
  | a :: as => some (as.foldl (fun lead b => if leads b lead then b else lead) a)

mutual

def hasMinus : Formula → Bool
  | number s => s.isNegative
  | product as => firstHasMinus as
  | sum as =>
    let signs := minuses as
    let minuses := signs.count true
    if minuses * 2 = signs.length then (leading as).any fun a => a.splitCoefficient.1.isNegative
    else signs.length < minuses * 2
  | _ => false

def firstHasMinus : List Formula → Bool
  | [] => false
  | number .infinite :: _ => false
  | a :: _ => hasMinus a

def minuses : List Formula → List Bool
  | [] => []
  | a :: as => hasMinus a :: minuses as

end

end Isolate.Formula
