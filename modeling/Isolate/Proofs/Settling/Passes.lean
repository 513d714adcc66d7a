import Isolate.Proofs.Settling.Lasting

/-!
# What the steps of a round leave to each other

Once a tree is reduced, every term in it is a reduced ratio or just zero (`Expr.everywhere_isWritten`). No denominator
is just one by then, so the step that drops those has nothing to do: a round flattens, reduces, and drops what is neutral
(`Expr.bare_tidy`).
-/

namespace Isolate

/-- A reduced ratio, or just the number zero. -/
def Ratio.IsWritten (t : Ratio Expr) : Prop := t.IsReduced ∨ t = ⟨[.number 0], []⟩

theorem Monomial.IsReduced.isWritten {m : Monomial} (h : m.IsReduced) : m.toRatio.IsWritten := by
  by_cases h0 : m.coefficient = 0
  · exact .inr (toRatio_of_eq_zero h0)
  · exact .inl (isReduced_toRatio h h0)

namespace Expr

/-- All terms of the node are written. -/
def IsWritten (e : Expr) : Prop := ∀ ts, e.shape = .sum ts → ∀ t ∈ ts, t.IsWritten

theorem isWritten_reduceStep (e : Expr) : (reduceStep e).IsWritten := by
  obtain ⟨s, b, c⟩ := e
  cases b with
  | sum ts =>
    rintro us ⟨⟩ u hu
    obtain ⟨m, hm, rfl⟩ := List.mem_map.mp hu
    obtain ⟨t, ht, hr⟩ := Ratio.rest_of_mem_collect hm
    obtain ⟨t, -, rfl⟩ := List.mem_map.mp ht
    exact ((Monomial.isReduced_split_reduce t).congr hr).isWritten
  | _ => rintro us ⟨⟩

/-- **In a tree that has been reduced, every term is reduced or zero.** -/
theorem everywhere_isWritten (e : Expr) : (e.editUp reduceStep .all).Everywhere IsWritten :=
  everywhere_reduceUp (fun hs h ts hts => h ts (hs.trans hts)) isWritten_reduceStep e

theorem dropUnit_of_isWritten {t : Ratio Expr} (h : t.IsWritten) : dropUnit t = t := by
  rcases h with h | rfl
  · exact dropUnit_of_isReduced h
  · rfl

/-- Once a tree is reduced, no denominator is just one. -/
theorem bare_reduced (e : Expr) : e.reduced.bare = (e.editUp reduceStep .all).bare := by
  have hdrop : (e.editUp reduceStep .all).Everywhere fun a => (dropUnits a).bare = a.bare := by
    refine (everywhere_isWritten e).imp fun a ha => ?_
    obtain ⟨s, b, c⟩ := a
    cases b with
    | sum ts =>
      have hts : ts.map dropUnit = ts :=
        (List.map_congr_left fun t ht => dropUnit_of_isWritten (ha ts rfl t ht)).trans (List.map_id ts)
      simp only [dropUnits, hts]
    | _ => rfl
  have hignores := (isBottomUp_editUp dropUnits).ignoresAnalysis ignoresAnalysis_dropUnits
  rw [reduced, hignores.congr (bare_analyze _)]
  exact (isBottomUp_editUp dropUnits).bare_eq_self ignoresAnalysis_dropUnits hdrop

/-- **A round flattens, reduces, and drops what is neutral.** -/
theorem bare_tidy (e : Expr) :
    e.tidy.bare = ((e.flatten.editUp reduceStep .all).rebuildUp neutralStep .all).bare := by
  have hreduce := (isBottomUp_editUp reduceStep).ignoresAnalysis ignoresAnalysis_reduceStep
  have hneutral := (isBottomUp_rebuildUp neutralStep).ignoresAnalysis ignoresAnalysis_neutralStep
  rw [tidy, bare_analyze, simplified, bare_analyze]
  refine hneutral.congr ?_
  rw [bare_reduced]
  exact hreduce.congr (bare_analyze _)

end Expr

end Isolate
