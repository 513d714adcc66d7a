import Isolate.Log
import Isolate.Solve.Answer
import Isolate.Solve.Search
import Isolate.Formula.OfExpr
import Isolate.Formula.Printing

/-!
# Checking answers

An answer is checked by putting the value that it gives into the equation it comes from. Both sides then have to be
equal for all that the other names stand for: their difference has to be zero as far as can be seen at points
(`Formula.vanishes`). A difference that is not can still be taken for zero if it is small, but not if it holds functions
without a known meaning.

* `Equation.verdict` is the outcome, and `Equation.verifies` tells whether the answer holds.
-/

namespace Isolate

/-- The outcome of a check. -/
inductive Verdict where
  | holds
  | fails
  /-- The difference of both sides holds functions without a known meaning. -/
  | undecided (difference : Formula)

namespace Verdict

def isPositive : Verdict → Bool
  | holds => true
  | _ => false

/-- What the log says about the outcome. -/
def log : Verdict → List LogEntry
  | undecided a => [⟨.debug, .verification, "cannot verify through undefined functions: " ++ a.text⟩]
  | _ => []

end Verdict

/-- What the difference of two sides tells about them. -/
def Formula.verdict (difference : Formula) : Verdict :=
  if difference.isTinyNumber || difference.vanishes then .holds
  else if difference.hasUnknown then .undecided difference
  else if difference.isSmall then .holds
  else .fails

/-- Does an equation of two sides hold when a variable has the value that an answer gives for it? -/
def Equation.verdict (q answer : Equation) (name : String) : Except Fault Verdict := do
  match answer.valueOf? name, q.sides with
  | some e, [a, b] =>
    let v ← Formula.ofExpr e
    let a ← Formula.substitute name v (← Formula.ofExpr a)
    let b ← Formula.substitute name v (← Formula.ofExpr b)
    return (Formula.minus a b).verdict
  | _, _ => return .fails

def Equation.verifies (q answer : Equation) (name : String) : Except Fault Bool := do
  return (← q.verdict answer name).isPositive

/-- The solutions, each with the outcome of its check. -/
def Solved.verified (s : Solved) (q : Equation) (name : String) :
    Except Fault (List (Equation × List String × Bool)) := do
  (← s.solutions).mapM fun (answer, conditions) => do return (answer, conditions, ← q.verifies answer name)

end Isolate
