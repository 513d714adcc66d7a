import Isolate.Proofs.Meaning.Flatten
import Isolate.Proofs.Meaning.Reduce
import Isolate.Proofs.Reordering.Ordered
import Isolate.Proofs.Reordering.Spliced
import Isolate.Proofs.Settling.Splicing

/-!
# Flattening and order

Flattening leaves no term without factors where there was none (`Expr.everywhere_isFilled_flatten`), and no divisor
vanishes where a tree is defined, so what is spliced for akin factors is akin.

* `Expr.Akin.flatten`: akin trees whose terms all have factors are akin when they are flattened.
* `Expr.Reorders.akin_flatten`: so are trees that differ only in the order of terms and factors.
-/

namespace Isolate

variable {I : Interpretation}

/-! ## Terms with factors -/

namespace Expr

theorem IsFilled.factors_asRatio {e : Expr} (h : e.IsFilled) : e.asRatio.factors ≠ [] := by
  by_cases h1 : e.termCount? = some 1
  · obtain ⟨ts, hts, hlen⟩ := termCount?_eq_some.mp h1
    obtain ⟨t, rfl⟩ := List.length_eq_one_iff.mp hlen
    have ht := h _ hts t List.mem_cons_self
    rw [asRatio_of_sum hts]
    split
    · exact Ratio.factors_ne_nil_of_corr (Ratio.corr_akin_symm (Ratio.corr_neg_self ht)) ht
    · exact ht
  · rw [asRatio_of_termCount? h1]
    exact List.cons_ne_nil _ _

end Expr

/-- The term has a factor, and so has every term below. -/
def Ratio.IsFull (t : Ratio Expr) : Prop := t.factors ≠ [] ∧ ∀ e ∈ t.factors, e.Everywhere Expr.IsFilled

theorem Expr.isByShape_isFilled : IsByShape IsFilled where
  congr hs ha ts hts := ha ts (hs.trans hts)
  number _ _ _ := nofun

theorem Expr.everywhere_isFilled_sum {s : Sign} {ts : List (Ratio Expr)} {c : Option Summary} :
    (⟨s, .sum ts, c⟩ : Expr).Everywhere IsFilled ↔ ∀ t ∈ ts, t.IsFull := by
  have hnode : IsFilled ⟨s, .sum ts, c⟩ ↔ ∀ t ∈ ts, t.factors ≠ [] :=
    ⟨fun h => h ts rfl, fun h us hus => Shape.sum.inj hus ▸ h⟩
  rw [everywhere_sum, hnode]
  exact forall₂_and.symm

namespace Ratio

variable {t : Ratio Expr} {e : Expr}

theorem IsFull.neg (h : t.IsFull) : t.neg.IsFull :=
  ⟨factors_ne_nil_of_corr (corr_akin_symm (corr_neg_self h.1)) h.1, Everywhere.neg Expr.isByShape_isFilled h.2⟩

theorem isFull_of : (of e).IsFull ↔ e.Everywhere Expr.IsFilled := by
  simp [IsFull, of, factors]

theorem isFull_asRatio (h : e.Everywhere Expr.IsFilled) : e.asRatio.IsFull :=
  ⟨(Expr.everywhere_iff.mp h).1.factors_asRatio, everywhere_asRatio Expr.isByShape_isFilled h⟩

theorem IsFull.spliceFactors (h : t.IsFull) : t.spliceFactors.IsFull := by
  obtain ⟨e, he⟩ := List.exists_mem_of_ne_nil _ h.1
  obtain ⟨a, ha⟩ := List.exists_mem_of_ne_nil _ (isFull_asRatio (h.2 e he)).1
  exact ⟨List.ne_nil_of_mem (mem_factors_spliceFactors.mpr ⟨e, he, ha⟩),
    Everywhere.spliceFactors Expr.isByShape_isFilled h.2⟩

theorem IsFull.spliceTerm (h : t.IsFull) : ∀ u ∈ t.spliceTerm, u.IsFull := by
  have hs := h.spliceFactors
  by_cases ht : ∃ e, t.spliceFactors = of e
  · obtain ⟨e, he⟩ := ht
    rw [spliceTerm_of he]
    rw [he, isFull_of] at hs
    obtain ⟨s, b, c⟩ := e
    unfold Expr.asTerms
    split
    · rename_i ts hts
      obtain rfl : b = .sum ts := hts
      have hts := Expr.everywhere_isFilled_sum.mp hs
      split
      · intro u hu
        obtain ⟨t, ht, rfl⟩ := List.mem_map.mp hu
        exact (hts t ht).neg
      · exact hts
    · exact List.forall_mem_singleton.mpr (isFull_of.mpr hs)
  · rw [spliceTerm_of_ne (not_exists.mp ht)]
    exact List.forall_mem_singleton.mpr hs

end Ratio

namespace Expr

variable {e : Expr}

theorem everywhere_isFilled_flattenStep (h : e.Everywhere IsFilled) : (flattenStep e).Everywhere IsFilled := by
  obtain ⟨s, b, c⟩ := e
  cases b with
  | sum ts =>
    have hterms := everywhere_isFilled_sum.mp h
    refine everywhere_flattenStep_sum isByShape_isFilled (fun t ht => (hterms t ht).2) fun _ us hus u hu => ?_
    obtain rfl := Shape.sum.inj hus
    obtain ⟨t, ht, hu⟩ := List.mem_flatMap.mp hu
    exact ((hterms t ht).spliceTerm u hu).1
  | _ => exact h

theorem everywhere_isFilled_flatten (h : e.Everywhere IsFilled) : e.flatten.Everywhere IsFilled := by
  induction e using Expr.induction with
  | h e ih =>
    obtain ⟨hnode, hchildren⟩ := everywhere_iff.mp h
    rw [flatten_eq]
    refine everywhere_isFilled_flattenStep (everywhere_iff.mpr ⟨fun us hus u hu => ?_, fun a ha => ?_⟩)
    · obtain ⟨s, b, c⟩ := e
      cases b with
      | sum ts =>
        obtain rfl := Shape.sum.inj hus
        obtain ⟨t, ht, rfl⟩ := List.mem_map.mp hu
        simpa using hnode ts rfl t ht
      | _ => cases hus
    · rw [children, Shape.children_map] at ha
      obtain ⟨b, hb, rfl⟩ := List.mem_map.mp ha
      exact ih b hb (hchildren b hb)

/-! ## Flattening a tree -/

end Expr

/-- What vanishes is zero. -/
theorem Ratio.value_of_vanishes {t : Ratio Expr} (h : t.Vanishes) : t.value I = 0 := by
  obtain ⟨-, e, he, h0⟩ := h
  by_contra hne
  refine Ratio.value_ne_zero.mp hne e (List.mem_append_left _ he) ?_
  rw [Expr.value_eq_abs, Expr.value_of_number? h0]
  cases e.sign <;> rfl

/-- A zero is still there after a pass that leaves zeros. -/
theorem Ratio.Vanishes.map {t : Ratio Expr} {g : Expr → Expr} (hg : ∀ e : Expr, e.number? = some 0 → (g e).number? = some 0)
    (h : t.Vanishes) : (t.map g).Vanishes := by
  obtain ⟨hlen, e, he, h0⟩ := h
  exact ⟨by rwa [factors_map, List.length_map], g e, List.mem_map_of_mem he, hg e h0⟩

/-- Operands that a pass makes akin, the signs changed alike, make the signs of the products change alike. -/
theorem Ratio.sign_map_mul {t u : Ratio Expr} {g : Expr → Expr} {R : Expr → Expr → Prop} (h : t.Corr R u)
    (hg : ∀ x ∈ t.factors, ∀ y, R x y → (g x).sign * x.sign = (g y).sign * y.sign) :
    (t.map g).sign * t.sign = (u.map g).sign * u.sign := by
  have hprod : ∀ r : Ratio Expr, (r.map g).sign * r.sign = (r.factors.map fun e => (g e).sign * e.sign).prod := by
    intro r
    rw [List.prod_map_mul, ← sign_eq_prod, sign_eq_prod, factors_map, List.map_map]
    rfl
  rw [hprod, hprod]
  exact (h.factors.perm_map hg).prod_eq

namespace Expr

variable {a b : Expr} {s s' : Sign} {ts us : List (Ratio Expr)} {c c' : Option Summary}

theorem isOfSums_flattenStep : IsOfSums flattenStep := fun e he => by
  obtain ⟨s, b, c⟩ := e
  cases b with
  | sum ts => exact absurd rfl (he ts)
  | _ => rfl

theorem number?_flatten {e : Expr} (h : e.number? = some 0) : e.flatten.number? = some 0 := by
  obtain ⟨s, b, c⟩ := e
  cases b with
  | number q => exact h
  | _ => simp [number?] at h

/-- A defined divisor does not vanish when it is spliced. -/
theorem not_vanishes_divisor {t : Ratio Expr} (h : t.IsDefined I) :
    ∀ d ∈ (t.map flatten).denominator, ¬d.asRatio.Vanishes := by
  intro d hd hv
  obtain ⟨x, hx, rfl⟩ := List.mem_map.mp hd
  obtain ⟨hdef, h0⟩ := (Ratio.isDefined_iff.mp h).2 x hx
  rw [← (keeps_flatten x hdef).2, ← value_asRatio] at h0
  exact h0 (Ratio.value_of_vanishes hv)

/-- **Flattening makes akin trees of akin trees**, where they are defined and every term has a factor; and it does the same
to the signs in front. -/
theorem Akin.flatten (h : a.Akin b) (hdef : a.IsDefined I) (hfilled : a.Everywhere IsFilled) :
    a.flatten.Akin b.flatten ∧ a.flatten.sign * a.sign = b.flatten.sign * b.sign := by
  induction a using Expr.induction generalizing b with
  | h a ih =>
    have hchild : ∀ x ∈ a.children, ∀ y, x.Akin y →
        x.flatten.Akin y.flatten ∧ x.flatten.sign * x.sign = y.flatten.sign * y.sign := fun x hx y hxy =>
      ih x hx hxy (((isDefined_iff I a).mp hdef).1 x hx) ((everywhere_iff.mp hfilled).2 x hx)
    by_cases ha : ∃ ts, a.shape = .sum ts
    · obtain ⟨s, p, c⟩ := a
      obtain ⟨ts, rfl⟩ := ha
      obtain ⟨us, hus, hc⟩ := h.sum rfl
      rw [flatten_eq, flatten_eq b, hus]
      refine akin_flattenStep ((hc.imp fun t ht u htu => ?_).map fun _ _ h => h)
      have hmem : ∀ x ∈ t.factors, x ∈ children ⟨s, .sum ts, c⟩ := fun x hx => List.mem_flatMap.mpr ⟨t, ht, hx⟩
      have hflatfilled : ∀ x ∈ t.factors, x.flatten.IsFilled := fun x hx =>
        (everywhere_iff.mp (everywhere_isFilled_flatten ((everywhere_iff.mp hfilled).2 x (hmem x hx)))).1
      refine Ratio.akin_spliceFactors (Ratio.corr_map (htu.2.imp fun x hx y hxy => ?_))
        (not_vanishes_divisor (isDefined_sum.mp hdef t ht)) ?_
      · exact ⟨(hchild x (hmem x hx) y hxy).1, .inr (hflatfilled x hx)⟩
      · by_cases hv : t.Vanishes
        · refine .inr ⟨hv.map fun e => number?_flatten, fun e he => ?_⟩
          rw [Ratio.factors_map] at he
          obtain ⟨x, hx, rfl⟩ := List.mem_map.mp he
          exact (hflatfilled x hx).factors_asRatio
        · have hsign := Ratio.sign_map_mul htu.2 fun x hx y hxy => (hchild x (hmem x hx) y hxy).2
          rw [htu.sign_eq hv, mul_left_inj] at hsign
          exact .inl hsign
    · obtain ⟨hakin, hsa, hsb⟩ := (isBottomUp_rebuildUp flattenStep).akin_of_not_sum isOfSums_flattenStep h
        (not_exists.mp ha) fun x hx y _ hxy hs => by
          obtain ⟨hakin, hsign⟩ := hchild x hx y hxy
          rw [hs, mul_left_inj] at hsign
          exact ⟨hakin, hsign⟩
      refine ⟨hakin, ?_⟩
      rw [Expr.flatten, Expr.flatten, hsa, hsb, Sign.mul_self, Sign.mul_self]

end Expr

/-! ## Trees in another order -/

namespace Expr

variable {a b : Expr}

/-- **Trees that differ in order are akin when they are flattened**, where they are defined. -/
theorem Reorders.akin_flatten (h : a.Reorders b) (hdef : a.IsDefined I) :
    a.flatten.Akin b.flatten ∧ a.flatten.sign = b.flatten.sign := by
  induction a using Expr.induction generalizing b with
  | h a ih =>
    obtain ⟨hs, hshape⟩ := reorders_iff.mp h
    have hchild : ∀ x ∈ a.children, ∀ y, x.Reorders y → x.flatten.Akin y.flatten ∧ x.flatten.sign = y.flatten.sign :=
      fun x hx y hxy => ih x hx hxy (((isDefined_iff I a).mp hdef).1 x hx)
    by_cases ha : ∃ ts, a.shape = .sum ts
    · obtain ⟨s, p, c⟩ := a
      obtain ⟨s', r, c'⟩ := b
      obtain ⟨ts, rfl⟩ := ha
      obtain rfl : s = s' := hs
      obtain ⟨us, rfl, hc⟩ := Shape.Reorders.sum hshape
      have hterms : Corr (fun t u => t.spliceFactors.Akin u.spliceFactors) (ts.map (Ratio.map Expr.flatten))
          (us.map (Ratio.map Expr.flatten)) := by
        refine (hc.imp fun t ht u htu => ?_).map fun _ _ h => h
        have hfactor : ∀ x ∈ t.factors, ∀ y, x.Reorders y → x.flatten.Akin y.flatten ∧ x.flatten.sign = y.flatten.sign :=
          fun x hx => hchild x (List.mem_flatMap.mpr ⟨t, ht, hx⟩)
        refine Ratio.akin_spliceFactors (Ratio.corr_map (htu.imp fun x hx y hxy => ?_))
          (not_vanishes_divisor (isDefined_sum.mp hdef t ht)) (.inl ?_)
        · exact ⟨(hfactor x hx y hxy).1, .inl (hfactor x hx y hxy).2⟩
        · exact Ratio.sign_eq_of_corr (Ratio.corr_map (htu.imp fun x hx y hxy => (hfactor x hx y hxy).2))
      rw [flatten_eq, flatten_eq ⟨s, .sum us, c'⟩]
      exact ⟨(akin_flattenStep hterms).1, mul_right_cancel (akin_flattenStep hterms).2⟩
    · have hnot := not_exists.mp ha
      have hmap := hshape.map_eq hnot fun x hx y hxy => gathered_eq_iff.mpr (hchild x hx y hxy).symm
      obtain ⟨hakin, hsa, hsb⟩ := (isBottomUp_rebuildUp flattenStep).akin_of_map_eq isOfSums_flattenStep hnot
        (hshape.not_sum hnot) (by rwa [Shape.map_map, Shape.map_map])
      exact ⟨hakin, (hsa.trans hs).trans hsb.symm⟩

end Expr

end Isolate
