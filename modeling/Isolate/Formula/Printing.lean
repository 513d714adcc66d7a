import Isolate.Formula.Minus
import Isolate.Formula.Sample

/-!
# Written formulas

A formula in one line (`Formula.text`), as the log shows it. The terms of a sum come in the order of the powers in them,
the highest first; a product has its numbers first and its negative powers under a fraction bar.

An operand that holds together less than the operator around it stands in brackets. What is around decides where a minus
or a fraction bar is drawn, so a written formula also tells what is left without them.
-/

namespace Isolate.Formula

/-- How strongly the parts of a written formula hold together. -/
inductive Strength where
  | sum
  | product
  | power
  | call
  | atom
  deriving DecidableEq, Repr

namespace Strength

def rank : Strength → Nat
  | sum => 0
  | product => 1
  | power => 2
  | call => 3
  | atom => 4

end Strength

/-- A text, and how strongly it holds together. -/
structure Bound where
  text : String
  strength : Strength

namespace Bound

/-- The text as an operand of an operator of some strength. -/
def within (outer : Strength) (b : Bound) : String :=
  if b.strength.rank ≤ outer.rank then "(" ++ b.text ++ ")" else b.text

/-- The text of a fraction. -/
def fraction (above below : List Bound) : String :=
  let product (bs : List Bound) : String := "*".intercalate (bs.map (within .product))
  let above := if above.isEmpty then "1" else product above
  match below with
  | [] => above
  | [b] => above ++ "/" ++ b.within .product
  | bs => above ++ "/(" ++ product bs ++ ")"

end Bound

/-- A written formula. -/
structure Line where
  whole : Bound
  /-- What is left when the minus in front is taken off, if there is one. -/
  opposite : Option Bound
  /-- What it puts above a fraction bar. -/
  above : List Bound
  /-- What it puts under a fraction bar. -/
  below : List Bound

namespace Line

def plain (b : Bound) : Line := ⟨b, none, [b], []⟩

def atom (text : String) : Line := plain ⟨text, .atom⟩

def call (function : String) (arguments : List Line) : Line :=
  plain ⟨function ++ "(" ++ ", ".intercalate (arguments.map (·.whole.text)) ++ ")", .call⟩

/-- A number that is not negative. -/
def magnitude (q : Rat) : Bound := ⟨Number.text q, if q.den = 1 then .atom else .product⟩

def ofRat (q : Rat) : Line where
  whole := if q < 0 then ⟨Number.text q, .sum⟩ else magnitude q
  opposite := if q < 0 then some (magnitude (-q)) else none
  above := if q.num = 1 then [] else [⟨toString q.num, .atom⟩]
  below := if q.den = 1 then [] else [⟨toString q.den, .atom⟩]

/-- A term behind others. -/
def behind (l : Line) : String :=
  match l.opposite with
  | some b => " - " ++ b.text
  | none => " + " ++ l.whole.text

/-- The sum of terms that are in order. -/
def sum : List Line → Line
  | [] => ofRat 0
  | l :: ls => plain ⟨l.whole.text ++ String.join (ls.map behind), .sum⟩

/-- The product of a positive number and factors that are in order. -/
def positive (c : Rat) (ls : List Line) : Bound :=
  let front := ofRat c
  let fraction : Bound :=
    ⟨Bound.fraction (front.above ++ ls.flatMap (·.above)) (front.below ++ ls.flatMap (·.below)), .product⟩
  match ls with
  | [l] => if c = 1 then l.whole else fraction
  | _ => fraction

/-- The product of a number and factors that are in order. -/
def product (c : Rat) (ls : List Line) : Line :=
  if c < 0 then
    let size := positive (-c) ls
    { plain ⟨"-" ++ size.within .sum, .sum⟩ with opposite := some size }
  else plain (positive c ls)

/-- Something over one. -/
def reciprocal (b : Bound) (whole : String) : Line := ⟨⟨whole, .power⟩, none, [], [b]⟩

/-- A power; one with a minus in the exponent goes under a fraction bar. -/
def power (base exponent : Line) (value : Option Rat) : Line :=
  let raised (e : Bound) : Bound := ⟨base.whole.within .power ++ "**" ++ e.within .power, .power⟩
  let root : Bound := ⟨"sqrt(" ++ base.whole.text ++ ")", .power⟩
  if value = some (1 / 2) then plain root
  else if value = some (-1 / 2) then reciprocal root ("1/" ++ root.text)
  else if value = some (-1) then reciprocal base.whole ("1/" ++ base.whole.within .power)
  else match exponent.opposite with
    | some e => reciprocal (raised e) (raised exponent.whole).text
    | none => plain (raised exponent.whole)

end Line

/-! ## Orders -/

/-- The product of the factors without names. -/
def constantOf (a : Formula) : Int :=
  ((a.factors.filter fun f => f.isConstant).foldl (fun z f =>
    z.mul ((f.valueAt .constant).getD .one)) Approx.one).re

/-- Does a term come in front of another one in a written sum? -/
def isBefore (a b : Formula) : Bool := leads a b || (!leads b a && constantOf a ≤ constantOf b)

/-- Does a factor come in front of another one in a written product? -/
def isFactorBefore (a b : Formula) : Bool :=
  let (b, e) := b.splitPower
  let (a, d) := a.splitPower
  ((compareBase a b).then (compare d e)).isLE

/-! ## Text -/

/-- The lines of operands, in some order of these. -/
def arranged (le : Formula → Formula → Bool) (as : List Formula) (lines : List Line) : List Line :=
  ((as.zip lines).mergeSort fun p q => le p.1 q.1).map (·.2)

mutual

def line : Formula → Line
  | number (.exact q) => Line.ofRat q
  | number (.rounded b q) => Line.ofRat (((Scalar.rounded b q).shown?).getD 0)
  | number s => Line.atom (s.text?.getD "")
  | euler => Line.atom "E"
  | pi => Line.atom "pi"
  | imaginary => Line.atom "I"
  | name s => Line.atom s
  | sum as => Line.sum (arranged isBefore as (linesOf as))
  | product (number (.exact c) :: as) => Line.product c (arranged isFactorBefore as (linesOf as))
  | product as => Line.product 1 (arranged isFactorBefore as (linesOf as))
  | power b e => Line.power (line b) (line e) e.rational?
  | modulo a b => Line.call "Mod" [line a, line b]
  | factorial a => Line.call "factorial" [line a]
  | call f as => Line.call (callName (call f [])) (linesOf as)
  | listing | relation => Line.atom ""

def linesOf : List Formula → List Line
  | [] => []
  | a :: as => line a :: linesOf as

end

def text (a : Formula) : String := a.line.whole.text

end Isolate.Formula
