import Isolate.Normal.Settle
import Isolate.Proofs.Tree.Bare

/-!
# Rounds of the usual passes

A round never fails, and makes `Expr.tidy` of every side (`Equation.runPasses_usual`). What it makes depends on the bare
sides only (`Expr.tidy_congr`).

* `Equation.settle_succ` is the equation of the loop, for the usual passes.
* `Expr.tidy_eq_self`: a round leaves an analysed tree if each of its four steps leaves every node.
-/

namespace Isolate

namespace Expr

/-- What one round of the usual passes makes of a side: flattened, analysed, simplified, analysed. -/
def tidy (e : Expr) : Expr := e.flatten.analyze.simplified.analyze

/-- The node is left by a step. -/
def IsLeftBy (f : Expr → Expr) (e : Expr) : Prop := (f e).bare = e.bare

variable {f : Expr → Expr}

theorem everywhere_congr {P : Expr → Prop} (hP : ∀ e : Expr, P e.bare ↔ P e) {a b : Expr} (h : a.bare = b.bare) :
    a.Everywhere P ↔ b.Everywhere P := by
  rw [← everywhere_bare hP, h, everywhere_bare hP]

theorem IgnoresAnalysis.everywhere_isLeftBy (hf : IgnoresAnalysis f) {a b : Expr} (h : a.bare = b.bare) :
    a.Everywhere (IsLeftBy f) ↔ b.Everywhere (IsLeftBy f) :=
  everywhere_congr (fun e => by rw [IsLeftBy, IsLeftBy, hf e, bare_bare]) h

theorem ignoresAnalysis_flatten : IgnoresAnalysis flatten :=
  (isBottomUp_rebuildUp flattenStep).ignoresAnalysis ignoresAnalysis_flattenStep

/-- What a round makes of a side depends on the bare side only. -/
theorem tidy_congr {a b : Expr} (h : a.bare = b.bare) : a.tidy = b.tidy := by
  rw [tidy, tidy, analyze_congr (ignoresAnalysis_flatten.congr h)]

@[simp] theorem analyze_tidy (e : Expr) : e.tidy.analyze = e.tidy := analyze_analyze _

theorem tidy_analyze (e : Expr) : e.analyze.tidy = e.tidy := tidy_congr (bare_analyze e)

/-- A round leaves an analysed tree if none of its steps changes a node. -/
theorem tidy_eq_self {e : Expr} (ha : e.analyze = e) (hflatten : e.Everywhere (IsLeftBy flattenStep))
    (hreduce : e.Everywhere (IsLeftBy reduceStep)) (hdrop : e.Everywhere (IsLeftBy dropUnits))
    (hneutral : e.Everywhere (IsLeftBy neutralStep)) : e.tidy = e := by
  have h1 : e.flatten.bare = e.bare :=
    (isBottomUp_rebuildUp flattenStep).bare_eq_self ignoresAnalysis_flattenStep hflatten
  have h2 : (e.editUp reduceStep .all).bare = e.bare :=
    (isBottomUp_editUp reduceStep).bare_eq_self ignoresAnalysis_reduceStep hreduce
  have h3 : (e.editUp dropUnits .all).bare = e.bare :=
    (isBottomUp_editUp dropUnits).bare_eq_self ignoresAnalysis_dropUnits hdrop
  have h4 : (e.rebuildUp neutralStep .all).bare = e.bare :=
    (isBottomUp_rebuildUp neutralStep).bare_eq_self ignoresAnalysis_neutralStep hneutral
  have hreduced : e.reduced.bare = e.bare := by
    rw [reduced, analyze_congr h2, ha, h3]
  have hsimplified : e.simplified = e := by
    rw [simplified, ← ha]
    refine analyze_congr ?_
    rw [ha, ← h4]
    exact ((isBottomUp_rebuildUp neutralStep).ignoresAnalysis ignoresAnalysis_neutralStep).congr hreduced
  rw [tidy, analyze_congr h1, ha, hsimplified, ha]

end Expr

namespace Equation

/-- One round of the usual passes. -/
def tidy (q : Equation) : Equation := ⟨q.sides.map Expr.tidy⟩

theorem isAnalyzed_analyze (e : Expr) : e.analyze.isAnalyzed = true := by
  rw [Expr.analyze_eq]
  rfl

/-- Analysed sides are simplified one and all. -/
theorem simplifySides_analyze (es : List Expr) : simplifySides (es.map Expr.analyze) =
    (es.map fun e => e.analyze.simplified, es.map fun e => e.analyze.reduced, none) := by
  induction es with
  | nil => rfl
  | cons e es ih => simp only [List.map_cons, simplifySides, Expr.simplify, isAnalyzed_analyze, if_true, ih]

theorem simplify_analyze (q : Equation) : q.analyze.simplify = (⟨q.sides.map fun e => e.analyze.simplified⟩, none) := by
  rw [simplify, analyze, simplifySides_analyze]

/-- **A round of the usual passes never fails.** -/
theorem runPasses_usual (q : Equation) : runPasses usualPasses q = (q.tidy, none) := by
  simp only [usualPasses, runPasses, flattenPass, simplifyPass, simplify_analyze]
  simp only [flatten, analyze, tidy, List.map_map]
  rfl

/-- The equation of the loop, for the usual passes. -/
theorem settle_succ (mode : MatchMode) (limit : Int) (fuel round : Nat) (q : Equation) :
    settle usualPasses mode limit (fuel + 1) round q =
      if isLike mode q q.tidy then (q.tidy, .ok round) else settle usualPasses mode limit fuel (round + 1) q.tidy := by
  rw [settle, runPasses_usual]

theorem tidy_analyze (q : Equation) : q.analyze.tidy = q.tidy := by
  rw [tidy, analyze, tidy, List.map_map]
  exact congrArg Equation.mk (List.map_congr_left fun e _ => Expr.tidy_analyze e)

end Equation

end Isolate
