import Isolate.Normal.Flatten
import Isolate.Proofs.Meaning.Terms

/-!
# Flattening keeps the meaning

A factor has the value of the ratio that is spliced for it (`Expr.value_asRatio`), and a term that of the terms that
are spliced for it (`Expr.value_asTerms`). A divisor is not zero where the expression is defined, so the ratio spliced
for it can be inverted; this is where the factors below a divisor come up.

* `Expr.keeps_flatten`: a flattened expression is defined where the expression is, with the same value.
-/

namespace Isolate

variable {I : Interpretation}

/-! ## Splicing factors -/

theorem Expr.isDefined_asRatio {e : Expr} (h : e.IsDefined I) : e.asRatio.IsDefined I := by
  obtain ⟨s, b, c⟩ := e
  unfold asRatio
  split
  · rename_i t hb
    obtain rfl : b = .sum [t] := hb
    have ht := isDefined_sum.mp h t List.mem_cons_self
    split
    · exact Ratio.isDefined_neg ht
    · exact ht
  · exact Ratio.isDefined_of.mpr h

theorem Expr.value_asRatio (e : Expr) : e.asRatio.value I = e.value I := by
  obtain ⟨s, b, c⟩ := e
  unfold asRatio
  split
  · rename_i t hb
    obtain rfl : b = .sum [t] := hb
    cases s <;> simp [value_sum, Sign.apply, Ratio.value_neg]
  · exact Ratio.value_of I _

namespace Ratio

theorem isDefined_prod {rs : List (Ratio Expr)} : (prod rs).IsDefined I ↔ ∀ r ∈ rs, r.IsDefined I := by
  simp only [isDefined_iff, prod, List.mem_flatMap, forall_exists_index, and_imp]
  constructor
  · exact fun h r hr => ⟨fun e he => h.1 e r hr he, fun d hd => h.2 d r hr hd⟩
  · exact fun h => ⟨fun e r hr he => (h r hr).1 e he, fun d r hr hd => (h r hr).2 d hd⟩

theorem value_prod (rs : List (Ratio Expr)) : (prod rs).value I = product (rs.map (value I)) := by
  induction rs with
  | nil => simp [prod, value_eq]
  | cons r rs ih =>
    have : prod (r :: rs) = r.mul (prod rs) := by simp [prod, mul]
    rw [this, value_mul, ih, List.map_cons, product_cons]

/-- The ratios spliced for a list of factors have the product of the factors. -/
theorem value_prod_asRatio (es : List Expr) :
    (prod (es.map Expr.asRatio)).value I = product (es.map (Expr.value I)) := by
  rw [value_prod, List.map_map]
  exact congrArg product (List.map_congr_left fun e _ => Expr.value_asRatio e)

/-- Splicing the factors of a ratio keeps where it is defined, and its value there. -/
theorem isDefined_spliceFactors {t : Ratio Expr} (h : t.IsDefined I) :
    t.spliceFactors.IsDefined I ∧ t.spliceFactors.value I = t.value I := by
  obtain ⟨hn, hd⟩ := isDefined_iff.mp h
  have hdef : ∀ es : List Expr, (∀ e ∈ es, e.IsDefined I) → (prod (es.map Expr.asRatio)).IsDefined I := by
    intro es he
    rw [isDefined_prod]
    intro r hr
    obtain ⟨e, hm, rfl⟩ := List.mem_map.mp hr
    exact Expr.isDefined_asRatio (he e hm)
  have h0 : (prod (t.denominator.map Expr.asRatio)).value I ≠ 0 := by
    rw [value_prod_asRatio, product_ne_zero]
    intro q hq
    obtain ⟨d, hm, rfl⟩ := List.mem_map.mp hq
    exact (hd d hm).2
  constructor
  · exact isDefined_mul.mpr ⟨hdef _ hn, isDefined_inv (hdef _ fun d hm => (hd d hm).1) h0⟩
  · rw [spliceFactors, value_mul, value_inv, value_prod_asRatio, value_prod_asRatio, value_eq, Rat.div_def]

end Ratio

/-! ## Splicing terms -/

theorem Expr.isDefined_asTerms {e : Expr} (h : e.IsDefined I) : ∀ t ∈ e.asTerms, t.IsDefined I := by
  obtain ⟨s, b, c⟩ := e
  unfold asTerms
  split
  · rename_i ts hb
    obtain rfl : b = .sum ts := hb
    have hts := isDefined_sum.mp h
    split
    · intro u hu
      obtain ⟨t, ht, rfl⟩ := List.mem_map.mp hu
      exact Ratio.isDefined_neg (hts t ht)
    · exact hts
  · intro t ht
    rw [List.mem_singleton.mp ht]
    exact Ratio.isDefined_of.mpr h

theorem Expr.value_asTerms (e : Expr) : total (e.asTerms.map (Ratio.value I)) = e.value I := by
  obtain ⟨s, b, c⟩ := e
  unfold asTerms
  split
  · rename_i ts hb
    obtain rfl : b = .sum ts := hb
    rw [value_sum]
    cases s with
    | pos => simp [Sign.apply]
    | neg =>
      simp only [if_true, List.map_map, Sign.apply]
      rw [← total_map_neg]
      exact congrArg total (List.map_congr_left fun t _ => Ratio.value_neg I t)
  · simp

namespace Ratio

/-- Splicing a term keeps where it is defined, and the total there. -/
theorem isDefined_spliceTerm {t : Ratio Expr} (h : t.IsDefined I) :
    (∀ u ∈ t.spliceTerm, u.IsDefined I) ∧ total (t.spliceTerm.map (value I)) = t.value I := by
  obtain ⟨hs, hv⟩ := isDefined_spliceFactors h
  unfold spliceTerm
  split
  · rename_i e he
    rw [he] at hs hv
    have he : e.IsDefined I := isDefined_of.mp hs
    refine ⟨Expr.isDefined_asTerms he, ?_⟩
    rw [Expr.value_asTerms, ← hv]
    exact (value_of I e).symm
  · refine ⟨fun u hu => ?_, by simp [hv]⟩
    rwa [List.mem_singleton.mp hu]

theorem isDefined_spliceTerms {ts : List (Ratio Expr)} (h : ∀ t ∈ ts, t.IsDefined I) :
    (∀ u ∈ ts.flatMap spliceTerm, u.IsDefined I) ∧
      total ((ts.flatMap spliceTerm).map (value I)) = total (ts.map (value I)) := by
  induction ts with
  | nil => simp
  | cons t ts ih =>
    obtain ⟨ht, hts⟩ := List.forall_mem_cons.mp h
    obtain ⟨hd, hv⟩ := isDefined_spliceTerm ht
    obtain ⟨hds, hvs⟩ := ih hts
    rw [List.flatMap_cons]
    refine ⟨fun u hu => ?_, ?_⟩
    · rcases List.mem_append.mp hu with hu | hu
      · exact hd u hu
      · exact hds u hu
    · rw [List.map_append, total_append, hv, hvs, List.map_cons, total_cons]

end Ratio

/-! ## Flattening -/

namespace Expr

/-- A sum that is just one factor has the value of the factor, the signs multiplied. -/
theorem keeps_only {s : Sign} {e : Expr} {c : Option Summary} :
    Keeps I ⟨s, .sum [⟨[e], []⟩], c⟩ ⟨e.sign * s, e.shape, none⟩ := by
  intro h
  have he : e.IsDefined I := Ratio.isDefined_of.mp (isDefined_sum.mp h _ List.mem_cons_self)
  refine ⟨isDefined_shape.mpr he, ?_⟩
  rw [value_sum, value_mk, Sign.mul_comm, Sign.apply_mul, ← value_eq]
  have : Ratio.value I ⟨[e], []⟩ = e.value I := Ratio.value_of I e
  simp [this]

theorem keeps_flattenStep (e : Expr) : e.Keeps I (flattenStep e) := by
  obtain ⟨s, b, c⟩ := e
  unfold flattenStep
  split
  · rename_i ts hb
    obtain rfl : b = .sum ts := hb
    have hk : Keeps I ⟨s, .sum ts, c⟩ ⟨s, .sum (ts.flatMap Ratio.spliceTerm), none⟩ :=
      keeps_sum Ratio.isDefined_spliceTerms
    split
    · rename_i only ho
      rw [ho] at hk
      exact hk.trans keeps_only
    · exact hk
  · exact Keeps.refl _

/-- **Flattening keeps the meaning.** -/
theorem keeps_flatten (e : Expr) : e.Keeps I e.flatten :=
  (isBottomUp_rebuildUp flattenStep).keeps keeps_flattenStep e

end Expr

end Isolate
