import Isolate.Proofs.Settling.Splicing

/-!
# One pass flattens

What is spliced into a node stood at a node below, where a pass from the bottom up has left nothing to be spliced. So
the terms of the node are flat (`Ratio.isFlat_of_mem_spliceTerm`), and where it becomes its only factor, it is one of
the nodes below: one pass leaves a flat tree.

* `Expr.flat_flatten`: nothing in a flattened tree is to be spliced, and flattening it again leaves it.
-/

namespace Isolate

variable {t : Ratio Expr} {e : Expr}

theorem Expr.isByShape_isFlat : IsByShape IsFlat where
  congr hs ha ts hts := ha ts (hs.trans hts)
  number _ _ _ := nofun

/-! ## Flat terms -/

namespace Ratio

/-- A sum with one flat term has no sum with one term among the factors, and any other factor is none itself. -/
theorem termCount?_ne_one_of_mem_asRatio (h : e.IsFlat) : ∀ a ∈ e.asRatio.factors, a.termCount? ≠ some 1 := by
  by_cases h1 : e.termCount? = some 1
  · obtain ⟨ts, hts, hlen⟩ := Expr.termCount?_eq_some.mp h1
    obtain ⟨t, rfl⟩ := List.length_eq_one_iff.mp hlen
    have ht : t.IsFlat := (h _ hts).1 t List.mem_cons_self
    rw [Expr.asRatio_of_sum hts]
    split
    · exact ht.neg.1
    · exact ht.1
  · rw [Expr.asRatio_of_termCount? h1]
    exact List.forall_mem_singleton.mpr h1

theorem isFlat_of_mem_asTerms (h : e.IsFlat) (h1 : e.termCount? ≠ some 1) : ∀ u ∈ e.asTerms, u.IsFlat := by
  cases hn : e.termCount? with
  | some n =>
    obtain ⟨ts, hts, -⟩ := Expr.termCount?_eq_some.mp hn
    have hflat := (h ts hts).1
    simp only [Expr.asTerms, hts]
    split
    · exact List.forall_mem_map.mpr fun t ht => (hflat t ht).neg
    · exact hflat
  | none =>
    rw [Expr.asTerms_of_termCount? hn]
    refine List.forall_mem_singleton.mpr ⟨List.forall_mem_singleton.mpr h1, fun a ha => ?_⟩
    obtain rfl : e = a := (List.cons.inj (Ratio.mk.inj ha).1).1
    exact hn

/-- **A term with nothing to be spliced below amounts to flat terms.** -/
theorem isFlat_of_mem_spliceTerm (h : t.Everywhere Expr.IsFlat) : ∀ u ∈ t.spliceTerm, u.IsFlat := by
  have hcount : ∀ a ∈ t.spliceFactors.factors, a.termCount? ≠ some 1 := fun a ha => by
    obtain ⟨e, he, ha⟩ := mem_factors_spliceFactors.mp ha
    exact termCount?_ne_one_of_mem_asRatio (Expr.everywhere_iff.mp (h e he)).1 a ha
  by_cases ht : ∃ e, t.spliceFactors = of e
  · obtain ⟨e, he⟩ := ht
    have hflat := h.spliceFactors Expr.isByShape_isFlat
    rw [he] at hcount hflat
    rw [spliceTerm_of he]
    exact isFlat_of_mem_asTerms (Expr.everywhere_iff.mp (everywhere_of.mp hflat)).1 (hcount e List.mem_cons_self)
  · rw [spliceTerm_of_ne (not_exists.mp ht)]
    exact List.forall_mem_singleton.mpr ⟨hcount, fun e he => absurd he (not_exists.mp ht e)⟩

end Ratio

/-! ## Flat trees -/

namespace Expr

/-- One pass leaves a flat tree. -/
theorem everywhere_isFlat_flatten (e : Expr) : e.flatten.Everywhere IsFlat := by
  induction e using Expr.induction with
  | h e ih =>
    obtain ⟨s, b, c⟩ := e
    rw [flatten_eq]
    have hchildren : ∀ a ∈ (b.map flatten).children, a.Everywhere IsFlat := fun a ha => by
      rw [Shape.children_map] at ha
      obtain ⟨d, hd, rfl⟩ := List.mem_map.mp ha
      exact ih d hd
    cases b with
    | sum ts =>
      have hterms : ∀ t ∈ ts.map (Ratio.map flatten), t.Everywhere IsFlat := fun t ht a ha =>
        hchildren a (List.mem_flatMap.mpr ⟨t, ht, ha⟩)
      refine everywhere_flattenStep_sum isByShape_isFlat hterms fun hne us hus => ?_
      obtain rfl := Shape.sum.inj hus
      refine ⟨fun u hu => ?_, hne⟩
      obtain ⟨t, ht, hu⟩ := List.mem_flatMap.mp hu
      exact Ratio.isFlat_of_mem_spliceTerm (hterms t ht) u hu
    | _ => exact everywhere_iff.mpr ⟨nofun, hchildren⟩

/-- **Flattening takes out all nesting in one pass.** In a flattened tree no factor is a sum with one term, no term is
just a sum, and no sum is just one factor, at any depth; so flattening it again leaves it. -/
theorem flat_flatten (e : Expr) :
    (e.flatten.Everywhere fun a => ∀ ts, a.shape = .sum ts →
      (∀ t ∈ ts, (∀ f ∈ t.factors, ∀ u, f.shape ≠ .sum [u]) ∧ ∀ f, t = .of f → ∀ us, f.shape ≠ .sum us) ∧
      ∀ f, ts ≠ [.of f]) ∧
    (e.flatten.flatten == e.flatten) = true := by
  have hflat := everywhere_isFlat_flatten e
  refine ⟨hflat.imp fun a ha ts hts => ?_, (beq_iff _ _).mpr (bare_flatten_of_isFlat hflat)⟩
  obtain ⟨hterms, hne⟩ := ha ts hts
  refine ⟨fun t ht => ⟨fun f hf u hu => ?_, fun f hf us hus => ?_⟩, hne⟩
  · exact (hterms t ht).1 f hf (termCount?_eq_some.mpr ⟨_, hu, rfl⟩)
  · have hnone := (hterms t ht).2 f hf
    rw [termCount?_eq_some.mpr ⟨us, hus, rfl⟩] at hnone
    cases hnone

end Expr

end Isolate
