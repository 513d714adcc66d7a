import Isolate.Proofs.Round
import Isolate.Proofs.Settling.Flat
import Isolate.Proofs.Settling.Neutral
import Isolate.Proofs.Settling.Reduce
import Isolate.Proofs.Settling.Stable

/-!
# Rounds that keep the weight

No round adds weight (`Expr.weight_tidy_le`), and a tree that keeps its weight in a round was flat
(`Expr.everywhere_isFlat_of_weight_tidy`). Reducing may change a tree without making it lighter, but not twice.

* `Expr.tidy_tidy`: after a round that keeps the weight and leaves a flat tree, no round changes the tree any more.
-/

namespace Isolate.Expr

open Isolate.Expr (IsLeftBy)

theorem weight_reduceUp_le (e : Expr) : (e.editUp reduceStep .all).weight ≤ e.weight :=
  (isBottomUp_editUp reduceStep).weight_le weight_reduceStep_le e

theorem weight_dropUp_le (e : Expr) : (e.editUp dropUnits .all).weight ≤ e.weight :=
  (isBottomUp_editUp dropUnits).weight_le lightens_dropUnits.weight_le e

theorem weight_neutralUp_le (e : Expr) : (e.rebuildUp neutralStep .all).weight ≤ e.weight :=
  (isBottomUp_rebuildUp neutralStep).weight_le lightens_neutralStep.weight_le e

theorem weight_reduced_le (e : Expr) : e.reduced.weight ≤ (e.editUp reduceStep .all).weight := by
  rw [← weight_analyze (e.editUp reduceStep .all)]
  exact weight_dropUp_le _

theorem weight_simplified_le (e : Expr) : e.simplified.weight ≤ e.reduced.weight := by
  rw [simplified, weight_analyze]
  exact weight_neutralUp_le _

/-- Simplifying adds no weight. -/
theorem weight_simplified_le_weight (e : Expr) : e.simplified.weight ≤ e.weight :=
  ((weight_simplified_le e).trans (weight_reduced_le e)).trans (weight_reduceUp_le e)

theorem weight_tidy_le_flatten (e : Expr) : e.tidy.weight ≤ e.flatten.weight := by
  rw [tidy, weight_analyze, ← weight_analyze e.flatten]
  exact weight_simplified_le_weight _

/-- **A round adds no weight.** -/
theorem weight_tidy_le (e : Expr) : e.tidy.weight ≤ e.weight := (weight_tidy_le_flatten e).trans (weight_flatten_le e)

/-- A tree that keeps its weight in a round was flat. -/
theorem everywhere_isFlat_of_weight_tidy {e : Expr} (h : e.tidy.weight = e.weight) : e.Everywhere IsFlat := by
  have := weight_tidy_le_flatten e
  have := weight_flatten_le e
  exact everywhere_isFlat_of_weight_eq (by omega)

/-- What simplifying makes of a tree that keeps its weight is reduced, and no step of simplifying changes it. -/
theorem simplified_of_weight_eq {e : Expr} (h : e.simplified.weight = e.weight) :
    e.simplified.Everywhere (IsLeftBy reduceStep) ∧ e.simplified.Everywhere (IsLeftBy dropUnits) ∧
      e.simplified.Everywhere (IsLeftBy neutralStep) := by
  have h1 := weight_simplified_le e
  have h2 := weight_reduced_le e
  have h3 := weight_reduceUp_le e
  -- what is reduced is left by the two steps that follow
  have hdrop : (e.editUp reduceStep .all).analyze.Everywhere (IsLeftBy dropUnits) :=
    (isBottomUp_editUp dropUnits).everywhere_of_weight_eq ignoresAnalysis_dropUnits lightens_dropUnits (by
      rw [weight_analyze]
      show e.reduced.weight = _
      omega)
  have hreduced : e.reduced.bare = (e.editUp reduceStep .all).bare := by
    rw [reduced, (isBottomUp_editUp dropUnits).bare_eq_self ignoresAnalysis_dropUnits hdrop, bare_analyze]
  have hneutral : e.reduced.Everywhere (IsLeftBy neutralStep) :=
    (isBottomUp_rebuildUp neutralStep).everywhere_of_weight_eq ignoresAnalysis_neutralStep lightens_neutralStep (by
      rw [← weight_analyze]
      show e.simplified.weight = _
      omega)
  have hsimplified : e.simplified.bare = (e.editUp reduceStep .all).bare := by
    rw [simplified, bare_analyze, ← hreduced]
    exact (isBottomUp_rebuildUp neutralStep).bare_eq_self ignoresAnalysis_neutralStep hneutral
  have hneutral' := (ignoresAnalysis_neutralStep.everywhere_isLeftBy hreduced).mp hneutral
  have hzero : (e.editUp reduceStep .all).Everywhere IsZeroFree :=
    hneutral'.imp fun a ha ts hts => not_isZeroTerm_of_neutralStep ha hts
  have hreduce : (e.editUp reduceStep .all).Everywhere (IsLeftBy reduceStep) :=
    (everywhere_isCollected hzero).imp fun _ => bare_reduceStep_of_isCollected
  refine ⟨(ignoresAnalysis_reduceStep.everywhere_isLeftBy hsimplified).mpr hreduce, ?_,
    (ignoresAnalysis_neutralStep.everywhere_isLeftBy hsimplified).mpr hneutral'⟩
  exact (ignoresAnalysis_dropUnits.everywhere_isLeftBy (hsimplified.trans (bare_analyze _).symm)).mpr hdrop

/-- **After a round that keeps the weight and leaves a flat tree, no round changes the tree any more.** -/
theorem tidy_tidy {e : Expr} (h : e.tidy.weight = e.weight) (hflat : e.tidy.Everywhere IsFlat) :
    e.tidy.tidy = e.tidy := by
  have h1 := weight_tidy_le_flatten e
  have h2 := weight_flatten_le e
  have hs : e.flatten.analyze.simplified.weight = e.flatten.analyze.weight := by
    rw [tidy, weight_analyze] at h h1
    rw [weight_analyze]
    omega
  obtain ⟨hreduce, hdrop, hneutral⟩ := simplified_of_weight_eq hs
  have ht : e.tidy.bare = e.flatten.analyze.simplified.bare := bare_analyze _
  exact tidy_eq_self (analyze_tidy e) (hflat.imp fun _ => flattenStep_of_isFlat)
    ((ignoresAnalysis_reduceStep.everywhere_isLeftBy ht).mpr hreduce)
    ((ignoresAnalysis_dropUnits.everywhere_isLeftBy ht).mpr hdrop)
    ((ignoresAnalysis_neutralStep.everywhere_isLeftBy ht).mpr hneutral)

end Isolate.Expr
