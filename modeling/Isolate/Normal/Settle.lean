import Isolate.Normal.Flatten
import Isolate.Normal.Simplify
import Isolate.Matching.Match
import Isolate.Log

/-!
# Settling

An equation is normalised by rounds of passes, until a round leaves it like it was before, up to renaming and order. The
usual passes flatten and then simplify.

* `Equation.normalize` gives the number of rounds, or the fault that ended them, and the equation as it is by then.
-/

namespace Isolate

/-- A change of an equation; `some fault` tells that it stopped before its end. -/
abbrev Pass := Equation → Equation × Option Fault

namespace Equation

/-- Flattens every side; never stops. -/
def flattenPass : Pass := fun q => (q.flatten, none)

/-- Simplifies every side. -/
def simplifyPass : Pass := simplify

/-- Flatten, then simplify. -/
def usualPasses : List Pass := [flattenPass, simplifyPass]

/-- Runs passes one after the other, each followed by an analysis. -/
def runPasses : List Pass → Pass
  | [], q => (q, none)
  | pass :: rest, q =>
    match pass q with
    | (q, none) => runPasses rest q.analyze
    | (q, some fault) => (q, some fault)

/-- Up to `fuel` rounds, from round number `round` on. -/
def settle (passes : List Pass) (mode : MatchMode) (limit : Int) : Nat → Nat → Equation → Equation × Except Fault Nat
  | 0, _, q => (q, .error (.noFixpoint limit))
  | fuel + 1, round, q =>
    match runPasses passes q with
    | (r, some fault) => (r, .error fault)
    | (r, none) => if isLike mode q r then (r, .ok round) else settle passes mode limit fuel (round + 1) r

/-- Analyses an equation and runs rounds of passes until one changes nothing. -/
def normalize (passes : List Pass) (mode : MatchMode) (limit : Int) (q : Equation) : Equation × Except Fault Nat :=
  settle passes mode limit limit.toNat 1 q.analyze

/-- The report of a normalisation that has settled. -/
def settledEntry (rounds : Nat) : LogEntry :=
  ⟨.debug, .normalization, s!"normalization converged after {rounds} round(s)"⟩

end Equation

end Isolate
