import Isolate.Proofs.Settling.Flat

/-!
# What splicing keeps

Splicing takes sums away and puts minuses in front of factors; the nodes that are left have the shapes they had. So a
property that depends on the shape of a node, and that numbers have (`IsByShape`), holds at every node of what is spliced
if it held at every node before (`Ratio.Everywhere.spliceTerm`).

* `Expr.everywhere_flattenStep_sum`: it holds at every node of a flattened sum, if the sum of what is spliced has it.
-/

namespace Isolate

/-- The property depends on the shape of the node, and numbers have it. -/
structure IsByShape (P : Expr → Prop) : Prop where
  congr : ∀ {a b : Expr}, a.shape = b.shape → P a → P b
  number : ∀ s q c, P ⟨s, .number q, c⟩

/-- The property holds at every node of every factor. -/
def Ratio.Everywhere (P : Expr → Prop) (t : Ratio Expr) : Prop := ∀ a ∈ t.factors, a.Everywhere P

variable {P : Expr → Prop} {e a b : Expr} {t u : Ratio Expr} {s : Sign} {ts : List (Ratio Expr)} {c : Option Summary}

namespace IsByShape

theorem of_shape (hP : IsByShape P) (h : a.Everywhere P) (hs : a.shape = b.shape) : b.Everywhere P :=
  Expr.everywhere_of_shape hP.congr hs h

theorem of_number (hP : IsByShape P) {q : Rat} (h : e.shape = .number q) : e.Everywhere P := by
  obtain ⟨s, b, c⟩ := e
  obtain rfl : b = .number q := h
  exact Expr.everywhere_iff.mpr ⟨hP.number .., fun a ha => by cases ha⟩

end IsByShape

theorem Expr.everywhere_sum :
    (⟨s, .sum ts, c⟩ : Expr).Everywhere P ↔ P ⟨s, .sum ts, c⟩ ∧ ∀ t ∈ ts, t.Everywhere P := by
  rw [everywhere_iff]
  refine and_congr_right fun _ => ⟨fun h t ht a ha => h a (List.mem_flatMap.mpr ⟨t, ht, ha⟩), fun h a ha => ?_⟩
  obtain ⟨t, ht, ha⟩ := List.mem_flatMap.mp ha
  exact h t ht a ha

/-! ## Ratios -/

namespace Ratio

theorem everywhere_of : (of e).Everywhere P ↔ e.Everywhere P := by
  simp [Everywhere, of, factors]

/-- Factors that are numbers, or have the shapes of other factors. -/
theorem Everywhere.of_shapes (hP : IsByShape P) (h : t.Everywhere P)
    (hu : ∀ a ∈ u.factors, (∃ q, a.shape = .number q) ∨ ∃ b ∈ t.factors, a.shape = b.shape) : u.Everywhere P := by
  intro a ha
  rcases hu a ha with ⟨q, hq⟩ | ⟨b, hb, hab⟩
  · exact hP.of_number hq
  · exact hP.of_shape (h b hb) hab.symm

theorem Everywhere.neg (hP : IsByShape P) (h : t.Everywhere P) : t.neg.Everywhere P :=
  h.of_shapes hP fun _ ha => (mem_factors_neg ha).imp_left fun hone => ⟨1, hone⟩

theorem everywhere_asRatio (hP : IsByShape P) (h : e.Everywhere P) : e.asRatio.Everywhere P := by
  obtain ⟨s, b, c⟩ := e
  unfold Expr.asRatio
  split
  · rename_i t ht
    obtain rfl : b = .sum [t] := ht
    have ht := (Expr.everywhere_sum.mp h).2 t List.mem_cons_self
    split
    · exact ht.neg hP
    · exact ht
  · exact everywhere_of.mpr h

theorem mem_factors_spliceFactors : a ∈ t.spliceFactors.factors ↔ ∃ e ∈ t.factors, a ∈ e.asRatio.factors := by
  rw [t.factors_spliceFactors_perm.mem_iff, List.mem_flatMap]

theorem Everywhere.spliceFactors (hP : IsByShape P) (h : t.Everywhere P) : t.spliceFactors.Everywhere P := fun a ha => by
  obtain ⟨e, he, ha⟩ := mem_factors_spliceFactors.mp ha
  exact everywhere_asRatio hP (h e he) a ha

theorem everywhere_asTerms (hP : IsByShape P) (h : e.Everywhere P) : ∀ u ∈ e.asTerms, u.Everywhere P := by
  obtain ⟨s, b, c⟩ := e
  unfold Expr.asTerms
  split
  · rename_i ts hts
    obtain rfl : b = .sum ts := hts
    have hts := (Expr.everywhere_sum.mp h).2
    split
    · exact List.forall_mem_map.mpr fun t ht => (hts t ht).neg hP
    · exact hts
  · exact List.forall_mem_singleton.mpr (everywhere_of.mpr h)

/-- **Splicing a term keeps the property**, at all nodes below. -/
theorem Everywhere.spliceTerm (hP : IsByShape P) (h : t.Everywhere P) : ∀ u ∈ t.spliceTerm, u.Everywhere P := by
  have hs := h.spliceFactors hP
  by_cases ht : ∃ e, t.spliceFactors = of e
  · obtain ⟨e, he⟩ := ht
    rw [spliceTerm_of he]
    exact everywhere_asTerms hP (everywhere_of.mp (he ▸ hs))
  · rw [spliceTerm_of_ne (not_exists.mp ht)]
    exact List.forall_mem_singleton.mpr hs

end Ratio

/-- **Flattening a sum keeps the property at all nodes below.** The node is the sum of what is spliced, or its only
factor, which has the property already. -/
theorem Expr.everywhere_flattenStep_sum (hP : IsByShape P) (h : ∀ t ∈ ts, t.Everywhere P)
    (hsum : (∀ e, ts.flatMap Ratio.spliceTerm ≠ [.of e]) → P ⟨s, .sum (ts.flatMap Ratio.spliceTerm), none⟩) :
    (flattenStep ⟨s, .sum ts, c⟩).Everywhere P := by
  have hterms : ∀ u ∈ ts.flatMap Ratio.spliceTerm, u.Everywhere P := fun u hu => by
    obtain ⟨t, ht, hu⟩ := List.mem_flatMap.mp hu
    exact (h t ht).spliceTerm hP u hu
  by_cases ht : ∃ e, ts.flatMap Ratio.spliceTerm = [.of e]
  · obtain ⟨e, he⟩ := ht
    rw [flattenStep_of he]
    rw [he] at hterms
    exact hP.of_shape (a := e) (Ratio.everywhere_of.mp (hterms _ List.mem_cons_self)) rfl
  · rw [flattenStep_of_ne (not_exists.mp ht)]
    exact everywhere_sum.mpr ⟨hsum (not_exists.mp ht), hterms⟩

end Isolate
