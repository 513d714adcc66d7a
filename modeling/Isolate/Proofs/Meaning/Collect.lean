import Isolate.Proofs.Meaning.Reduce

/-!
# Adding up like terms keeps the meaning

Like monomials have the same factors up to order, hence rests of the same value (`Monomial.value_rest_of_isLike`), so
adding their coefficients adds their values (`Monomial.total_addTo`).

* `Ratio.isDefined_collect`: collected terms are defined where the terms are, with the same total.
-/

namespace Isolate

variable {I : Interpretation}

namespace Monomial

variable {m n : Monomial}

/-- Factors that are the same up to order have one product. -/
theorem product_of_perm {as bs : List Expr} (h : (as.map Expr.bare).Perm (bs.map Expr.bare)) :
    product (as.map (Expr.value I)) = product (bs.map (Expr.value I)) := by
  have hbare : ∀ es : List Expr, es.map (Expr.value I) = (es.map Expr.bare).map (Expr.value I) := by
    intro es
    rw [List.map_map]
    exact List.map_congr_left fun e _ => (Expr.value_bare I e).symm
  rw [hbare as, hbare bs, product_eq_prod, product_eq_prod]
  exact (h.map _).prod_eq

/-- Like monomials have rests of one value. -/
theorem value_rest_of_isLike (h : n.isLike m = true) : n.rest.value I = m.rest.value I := by
  obtain ⟨hn, hd⟩ := perm_of_isLike h
  simp only [rest, Ratio.value_eq]
  rw [product_of_perm hn, product_of_perm hd]

/-- Adding a monomial adds its value. -/
theorem total_addTo (m : Monomial) (ms : List Monomial) :
    total ((m.addTo ms).map (value I)) = total (ms.map (value I)) + m.value I := by
  induction ms with
  | nil => simp [addTo]
  | cons n ns ih =>
    unfold addTo
    split
    · rename_i h
      simp only [List.map_cons, total_cons, value, rest]
      have hv : Ratio.value I ⟨m.numerator, m.denominator⟩ = Ratio.value I ⟨n.numerator, n.denominator⟩ :=
        (value_rest_of_isLike h).symm
      rw [hv]
      ring
    · rw [List.map_cons, total_cons, ih, List.map_cons, total_cons]
      ring

theorem total_addAll (ms acc : List Monomial) :
    total ((addAll ms acc).map (value I)) = total (acc.map (value I)) + total (ms.map (value I)) := by
  induction ms generalizing acc with
  | nil => simp [addAll]
  | cons m ms ih =>
    rw [addAll, List.foldl_cons, ← addAll, ih, total_addTo, List.map_cons, total_cons]
    ring

end Monomial

namespace Ratio

/-- **Collected terms are defined where the terms are, and have the same total there.** -/
theorem isDefined_collect {ts : List (Ratio Expr)} (h : ∀ t ∈ ts, t.IsDefined I) :
    (∀ u ∈ collect ts, u.IsDefined I) ∧ total ((collect ts).map (value I)) = total (ts.map (value I)) := by
  rw [collect_eq]
  constructor
  · intro u hu
    obtain ⟨m, hm, rfl⟩ := List.mem_map.mp hu
    obtain ⟨t, ht, hmt⟩ := rest_of_mem_collect hm
    refine Monomial.isDefined_toRatio ?_
    rw [hmt]
    exact isDefined_split (h t ht)
  · have hv : ((Monomial.addAll (ts.map split) []).map Monomial.toRatio).map (value I) =
        (Monomial.addAll (ts.map split) []).map (Monomial.value I) := by
      rw [List.map_map]
      refine List.map_congr_left fun m hm => Monomial.value_toRatio ?_
      obtain ⟨t, -, hmt⟩ := rest_of_mem_collect hm
      rw [Monomial.IsUnsigned, hmt]
      exact isUnsigned_split t
    rw [hv, Monomial.total_addAll, List.map_nil, total_nil, zero_add, List.map_map]
    exact congrArg total (List.map_congr_left fun t _ => value_split t)

end Ratio

end Isolate
