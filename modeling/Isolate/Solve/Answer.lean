import Isolate.Expr.Basic

/-!
# Answers

An equation of two sides answers for a variable if one side is just that variable: the other side is then its value.
-/

namespace Isolate

/-- Is an expression a variable with a plus in front? -/
def Expr.variable? (e : Expr) : Option String :=
  match e.sign, e.shape with
  | .pos, .var name => some name
  | _, _ => none

namespace Equation

/-- The value that an equation gives for a variable. If both sides are the variable, it is the second. -/
def valueOf? (name : String) (q : Equation) : Option Expr :=
  match q.sides with
  | [a, b] => if a.variable? = some name then some b else if b.variable? = some name then some a else none
  | _ => none

/-- The first variable for which an equation gives a value. -/
def answered? (q : Equation) : Option String :=
  q.sides.findSome? fun e => e.variable?.filter fun name => (q.valueOf? name).isSome

end Equation

end Isolate
