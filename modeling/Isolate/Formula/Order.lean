import Isolate.Formula.Basic

/-!
# The order of formulas

Formulas that are worked out have the operands of their sums and products in order: by kind, then by the number of
operands, then by the operands. Numbers come first, then names, powers, products, sums, and calls last. Two formulas are
the same if neither comes before the other (`Formula.same`).
-/

namespace Isolate.Formula

/-- The place of an exact number in the order: some small ones come before the others. -/
def exactRank (q : Rat) : Nat :=
  if q = 0 then 0 else if q = 1 then 1 else if q = 1 / 2 then 2 else if q = -1 then 5
  else if q.den = 1 then 7 else 8

def scalarRank : Scalar → Nat
  | .exact q => exactRank q
  | .rounded _ _ => 9
  | .infinite => 90
  | .undefined => 4

/-- The place of a kind of formula in the order. -/
def rank : Formula → Nat
  | number s => scalarRank s
  | euler => 10
  | pi => 11
  | imaginary => 12
  | name _ => 13
  | power _ _ => 15
  | product _ => 16
  | sum _ => 17
  | call "Abs" _ => 20
  | factorial _ => 30
  | modulo _ _ => 100
  | call _ _ => 100
  | listing => 200
  | relation => 201

/-- The name that tells unlike calls apart in the order. -/
def callName : Formula → String
  | modulo _ _ => "Mod"
  | call "arcsin" _ => "asin"
  | call "arccos" _ => "acos"
  | call "arctan" _ => "atan"
  | call "arccot" _ => "acot"
  | call f _ => f
  | _ => ""

def compareScalar : Scalar → Scalar → Ordering
  | .exact p, .exact q =>
    (Ord.compare (exactRank p) (exactRank q)).then ((Ord.compare p.num q.num).then (Ord.compare p.den q.den))
  | .rounded b p, .rounded c q => Scalar.compareRounded b p c q
  | s, t => Ord.compare (scalarRank s) (scalarRank t)

mutual

def compare : Formula → Formula → Ordering
  | number s, number t => compareScalar s t
  | name m, name n => Ord.compare m n
  | sum as, sum bs => (Ord.compare as.length bs.length).then (compareList as bs)
  | product as, product bs => (Ord.compare as.length bs.length).then (compareList as bs)
  | power a b, power c d => (compare a c).then (compare b d)
  | modulo a b, modulo c d => (compare a c).then (compare b d)
  | factorial a, factorial c => compare a c
  | call f as, call g bs =>
    (Ord.compare (call f []).rank (call g []).rank).then
      ((Ord.compare (callName (call f [])) (callName (call g []))).then
        ((Ord.compare as.length bs.length).then (compareList as bs)))
  | a, b => (Ord.compare a.rank b.rank).then (Ord.compare a.callName b.callName)

def compareList : List Formula → List Formula → Ordering
  | [], [] => .eq
  | [], _ :: _ => .lt
  | _ :: _, [] => .gt
  | a :: as, b :: bs => (compare a b).then (compareList as bs)

end

/-- Are two formulas written alike? -/
def same (a b : Formula) : Bool := compare a b == .eq

/-- Puts formulas in order. -/
def sort (as : List Formula) : List Formula := as.mergeSort fun a b => (compare a b).isLE

end Isolate.Formula
