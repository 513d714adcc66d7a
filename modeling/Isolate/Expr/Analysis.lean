import Isolate.Expr.Traversal
import Isolate.Fault

/-!
# Analysis

An analysis notes at every node which variables and functions occur at or below it and whether it is built from numbers
alone. `Expr.analyze` covers a whole tree and cannot fail. `Expr.analyzeWithin` stops at a number of levels, takes what
is noted below on trust, and fails if nothing is noted there.

* `Expr.analyze_eq` is the equation of the full analysis.
-/

namespace Isolate

namespace Summary

/-- Adds a name to a sorted list without repeats. -/
def insertName (name : String) : List String → List String
  | [] => [name]
  | n :: ns => if name < n then name :: n :: ns else if name = n then n :: ns else n :: insertName name ns

/-- The names of two sorted lists without repeats. -/
def union (ms ns : List String) : List String := ms.foldr insertName ns

/-- What two operands amount to together. -/
def merge (s t : Summary) : Summary :=
  ⟨union s.vars t.vars, union s.functions t.functions, s.isNumber && t.isNumber⟩

/-- What no operands amount to. -/
def none : Summary := ⟨[], [], true⟩

end Summary

namespace Shape

/-- What a node amounts to, given what its operands do. -/
def summary (b : Shape Summary) : Summary :=
  match b with
  | number _ => Summary.none
  | var n => ⟨[n], [], false⟩
  | call n as =>
    let below := as.foldr Summary.merge Summary.none
    ⟨below.vars, Summary.insertName n below.functions, false⟩
  | b => b.children.foldr Summary.merge Summary.none

end Shape

namespace Expr

/-- What a full analysis finds out about an expression. -/
def survey (e : Expr) : Summary := e.fold fun _ b => b.summary

theorem survey_eq (e : Expr) : e.survey = (e.shape.map survey).summary := by rw [survey, fold_eq]; rfl

/-- The summary noted at a node, that of nothing if none is. -/
def noteOr (e : Expr) : Summary := e.summary.getD Summary.none

/-- Notes a summary at every node. -/
def analyze (e : Expr) : Expr := e.fold fun e b => ⟨e.sign, b, some (b.map noteOr).summary⟩

theorem analyze_eq' (e : Expr) :
    e.analyze = ⟨e.sign, e.shape.map analyze, some ((e.shape.map analyze).map noteOr).summary⟩ := by
  rw [analyze, fold_eq]; rfl

/-- What the analysis notes at the top is what there is to find out. -/
theorem noteOr_analyze (e : Expr) : e.analyze.noteOr = e.survey := by
  induction e using Expr.induction with
  | h e ih =>
    rw [analyze_eq', survey_eq, noteOr]
    simp only [Option.getD_some, Shape.map_map]
    exact congrArg _ (Shape.map_congr ih)

/-- The equation of the full analysis. -/
theorem analyze_eq (e : Expr) : e.analyze = ⟨e.sign, e.shape.map analyze, some e.survey⟩ := by
  rw [analyze_eq', survey_eq, Shape.map_map, show noteOr ∘ analyze = survey from funext noteOr_analyze]

/-- The summary noted at a node that has to be analysed. -/
def noted (e : Expr) : Except Fault Summary :=
  match e.summary with
  | some s => .ok s
  | none => .error .notAnalyzed

/-! ## Analysis within a reach -/

/-- Notes a summary at one node from those noted at its operands. -/
def note? (e : Expr) : Option Expr := do
  return { e with summary := some (← e.shape.mapM (·.summary)).summary }

/-- Analyses one node within a reach. The state tells whether the analysis goes on; once it does not, nothing
changes. -/
def analyzeStep (e : Expr) (below : Shape (Reach → StateM Bool Expr)) (reach : Reach) : StateM Bool Expr := do
  if !(← get) then return e
  let e ← match reach.below? with
    | none => pure e
    | some reach => do pure { e with shape := ← below.mapM (· reach) }
  if !(← get) then return e
  match e.note? with
  | some e => return e
  | none =>
    set false
    return e

/-- Analyses within a reach, from left to right and operands first. When an operand just out of reach is not analysed,
the analysis ends there: `false` is returned, with the tree as it is by then. -/
def analyzeWithin (reach : Reach) (e : Expr) : Expr × Bool := (e.fold analyzeStep reach).run true

/-! ## Numbers -/

/-- The first factor that is no number settles the question; a factor that is not analysed cannot be asked. -/
def allNumbers : List (Except Fault Bool) → Except Fault Bool
  | [] => .ok true
  | .ok true :: rest => allNumbers rest
  | .ok false :: _ => .ok false
  | .error fault :: _ => .error fault

/-- Is an analysed expression a number, or a sum built from such? -/
def isNumber (e : Expr) : Except Fault Bool :=
  e.fold fun e b =>
    if e.isAnalyzed then
      match b with
      | .number _ => .ok true
      | .sum _ => allNumbers b.children
      | _ => .ok false
    else .error .kindNotAnalyzed

end Expr

namespace Equation

/-- Notes a summary at every node of every side. -/
def analyze (q : Equation) : Equation := ⟨q.sides.map Expr.analyze⟩

end Equation

end Isolate
