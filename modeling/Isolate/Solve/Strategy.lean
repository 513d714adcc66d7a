import Isolate.Inverse.Step
import Isolate.Normal.Settle
import Isolate.Config

/-!
# Strategies

A strategy changes an equation and tells the conditions that the change relies on. Two of them bring an equation closer
to its normal form and rely on nothing; the third takes an isolation step.
-/

namespace Isolate

inductive Strategy where
  | flatten
  | simplify
  | applyInverse
  deriving DecidableEq, Repr

/-- What is left after a strategy has been tried. -/
structure Attempt where
  equation : Equation
  outcome : Except Fault (List String)
  log : List LogEntry

namespace Strategy

def name : Strategy → String
  | flatten => "flatten"
  | simplify => "simplify"
  | applyInverse => "apply_inverse"

def ofName (name : String) : Except Fault Strategy :=
  match name with
  | "flatten" => .ok flatten
  | "simplify" => .ok simplify
  | "apply_inverse" => .ok applyInverse
  | _ => .error (.unknownStrategy name)

/-- An isolation step needs a variable, noted by an analysis. -/
def isApplicable (q : Equation) : Strategy → Bool
  | applyInverse => q.sides.any fun e => e.summary.any fun s => !s.vars.isEmpty
  | _ => true

/-- Tries a strategy. If it fails, the equation is as the failure left it. -/
def apply (config : Config) (target : Option String) (q : Equation) : Strategy → Attempt
  | flatten => ⟨q.flatten, .ok [], []⟩
  | simplify =>
    match q.simplify with
    | (q, none) => ⟨q, .ok [], []⟩
    | (q, some fault) => ⟨q, .error fault, []⟩
  | applyInverse =>
    match q.applyInverse config.placeholder target with
    | .ok done => ⟨done.equation, .ok done.conditions, done.log⟩
    | .error fault => ⟨q, .error fault, []⟩

end Strategy

end Isolate
