import Isolate.Proofs.Meaning.Terms
import Isolate.Proofs.Monomial

/-!
# Reducing keeps the meaning

The value of a monomial is its coefficient times the ratio of its factors (`Monomial.value`). A ratio has the value of
the monomial that it is split into (`Ratio.value_split`), cancelling keeps products across the fraction bar
(`product_cancel`), and a monomial without signs has the value of the ratio that it is written as
(`Monomial.value_toRatio`).

* `Ratio.isDefined_reduce`: a reduced ratio is defined where the ratio is, with the same value.
-/

namespace Isolate

variable {I : Interpretation}

/-! ## Parting products -/

theorem Expr.value_of_number? {e : Expr} {q : Rat} (h : e.number? = some q) : e.abs.value I = q := by
  obtain ⟨s, b, c⟩ := e
  cases b with
  | number v => simp_all [number?, abs, value_mk, Sign.apply, Shape.map, Interpretation.apply]
  | _ => simp [number?] at h

theorem Expr.value_of_divisor? {e : Expr} {q : Rat} (h : e.divisor? = some q) : e.abs.value I = q :=
  value_of_number? (Option.eq_some_of_filter_eq_some h)

/-- A product of factors, parted into signs, numbers and what is left. -/
theorem product_part (f : Expr → Option Rat) (hf : ∀ e q, f e = some q → e.abs.value I = q) (es : List Expr) :
    product (es.map (Expr.value I)) = (signOf es).apply (product (es.filterMap f) *
      product (((es.filter fun e => (f e).isNone).map Expr.abs).map (Expr.value I))) := by
  induction es with
  | nil => simp [signOf, Sign.apply]
  | cons e es ih =>
    rw [List.map_cons, product_cons, ih, signOf_cons, Sign.apply_mul, Expr.value_eq_abs e]
    cases h : f e with
    | none =>
      simp only [List.filterMap_cons_none h, List.filter_cons, h, Option.isNone_none, if_true, List.map_cons,
        product_cons]
      cases e.sign <;> cases signOf es <;> simp [Sign.apply] <;> ring
    | some q =>
      simp only [List.filterMap_cons_some h, List.filter_cons, h, Option.isNone_some, Bool.false_eq_true, if_false,
        product_cons, hf e q h]
      cases e.sign <;> cases signOf es <;> simp [Sign.apply] <;> ring

namespace Monomial

/-! ## The value of a monomial -/

/-- The value of a monomial. -/
def value (I : Interpretation) (m : Monomial) : Rat := m.coefficient * m.rest.value I

end Monomial

namespace Ratio

/-- A ratio has the value of its monomial. -/
theorem value_split (t : Ratio Expr) : t.split.value I = t.value I := by
  rw [value_eq I t, product_part Expr.number? (fun _ _ => Expr.value_of_number?) t.numerator,
    product_part Expr.divisor? (fun _ _ => Expr.value_of_divisor?) t.denominator, Monomial.value, value_eq]
  simp only [Monomial.rest, split, sign_eq, magnitude_eq, Sign.apply_mul]
  cases signOf t.numerator <;> cases signOf t.denominator <;> simp only [Sign.apply] <;> ring

/-- The factors of the monomial of a ratio are factors of the ratio, without their signs. -/
theorem isDefined_split {t : Ratio Expr} (h : t.IsDefined I) : t.split.rest.IsDefined I := by
  rw [isDefined_iff] at h ⊢
  constructor
  · intro e he
    obtain ⟨a, ha, rfl⟩ := List.mem_map.mp he
    exact (Expr.isDefined_abs a).mpr (h.1 a (List.mem_of_mem_filter ha))
  · intro d hd
    obtain ⟨a, ha, rfl⟩ := List.mem_map.mp hd
    obtain ⟨hd, h0⟩ := h.2 a (List.mem_of_mem_filter ha)
    rw [Expr.value_eq_abs, Ne, Sign.apply_eq_zero] at h0
    exact ⟨(Expr.isDefined_abs a).mpr hd, h0⟩

end Ratio

/-! ## Cancelling -/

/-- A factor found in a list can be taken out of its product. -/
theorem product_erase {es : List Expr} {d : Expr} (h : es.contains d = true) :
    product (es.map (Expr.value I)) = d.value I * product ((es.erase d).map (Expr.value I)) := by
  obtain ⟨e, hbare, hes⟩ := exists_perm_erase h
  rw [product_eq_prod, (hes.map _).prod_eq, ← product_eq_prod, List.map_cons, product_cons, Expr.value_eq_of_bare hbare]

/-- Cancelling keeps the products across the fraction bar. -/
theorem product_cancel (ns ds : List Expr) :
    product ((cancel ns ds).1.map (Expr.value I)) * product (ds.map (Expr.value I)) =
      product (ns.map (Expr.value I)) * product ((cancel ns ds).2.map (Expr.value I)) := by
  induction ds generalizing ns with
  | nil => rfl
  | cons d ds ih =>
    unfold cancel
    split
    · rename_i h
      rw [product_erase h, List.map_cons, product_cons]
      linear_combination d.value I * ih (ns.erase d)
    · simp only [List.map_cons, product_cons]
      linear_combination d.value I * ih ns

namespace Monomial

variable {m : Monomial}

theorem isDefined_reduce (h : m.rest.IsDefined I) : m.reduce.rest.IsDefined I := by
  obtain ⟨hn, hd⟩ := cancel_sublist m.numerator m.denominator
  rw [Ratio.isDefined_iff] at h ⊢
  exact ⟨fun e he => h.1 e (hn.mem he), fun d hm => h.2 d (hd.mem hm)⟩

/-- Cancelling keeps the value of a monomial that is defined. -/
theorem value_reduce (h : m.rest.IsDefined I) : m.reduce.value I = m.value I := by
  have hne : ∀ ds : List Expr, (∀ d ∈ ds, d.value I ≠ 0) → product (ds.map (Expr.value I)) ≠ 0 := by
    intro ds hds
    rw [product_ne_zero]
    intro q hq
    obtain ⟨d, hd, rfl⟩ := List.mem_map.mp hq
    exact hds d hd
  have h0 := hne m.denominator h.2
  have h1 := hne (cancel m.numerator m.denominator).2 (isDefined_reduce h).2
  have hc := product_cancel (I := I) m.numerator m.denominator
  rw [value, value, Ratio.value_eq, Ratio.value_eq]
  congr 1
  exact (div_eq_div_iff h1 h0).mpr hc

/-! ## Writing a monomial -/

/-- A minus at the first factor, if that is positive, is a minus in front of the product. -/
theorem product_negateFirst {es : List Expr} (h : es ≠ []) (hs : ∀ e ∈ es, e.sign = .pos) :
    product ((negateFirst es).map (Expr.value I)) = -product (es.map (Expr.value I)) := by
  cases es with
  | nil => exact absurd rfl h
  | cons e es =>
    have : Expr.value I { e with sign := .neg } = -e.value I := by
      rw [Expr.value_eq_abs e, hs e List.mem_cons_self, Expr.value_eq_abs]
      rfl
    simp only [negateFirst, List.map_cons, product_cons, this, neg_mul]

theorem product_above : product (m.above.map (Expr.value I)) =
    |m.coefficient.num| * product (m.numerator.map (Expr.value I)) := by
  rw [above, List.map_append, product_append]
  congr 1
  split
  · simp [Expr.value_number]
  · rename_i h
    obtain ⟨hone, -⟩ := not_or.mp h
    have hnum : |m.coefficient.num| = 1 := by rw [Int.abs_eq_natAbs, not_not.mp hone, Nat.cast_one]
    rw [hnum, List.map_nil, product_nil, Int.cast_one]

theorem product_below : product (m.below.map (Expr.value I)) =
    m.coefficient.den * product (m.denominator.map (Expr.value I)) := by
  rw [below, List.map_append, product_append]
  congr 1
  split
  · simp [Expr.value_number]
  · rename_i h
    simp [Decidable.not_not.mp h]

/-- A monomial without signs has the value of the ratio that it is written as. -/
theorem value_toRatio (h : m.IsUnsigned) : m.toRatio.value I = m.value I := by
  by_cases h0 : m.coefficient = 0
  · rw [toRatio_of_eq_zero h0, value, h0]
    simp [Ratio.value_eq, Expr.value_number]
  · have hc : m.coefficient = m.coefficient.num / m.coefficient.den := (Rat.num_div_den _).symm
    rw [toRatio_of_ne_zero h0, value, Ratio.value_eq, Ratio.value_eq, product_below]
    simp only [rest]
    split
    · rename_i hneg
      rw [product_negateFirst above_ne_nil (sign_above h), product_above, abs_of_neg (Rat.num_neg.mpr hneg)]
      conv_rhs => rw [hc]
      push_cast
      ring
    · rename_i hneg
      rw [product_above, abs_of_nonneg (Rat.num_nonneg.mpr (not_lt.mp hneg))]
      conv_rhs => rw [hc]
      ring

theorem isDefined_toRatio (h : m.rest.IsDefined I) : m.toRatio.IsDefined I := by
  constructor
  · intro e he
    rcases mem_toRatio he with ⟨q, hq⟩ | ⟨a, ha, hea⟩
    · exact Expr.isDefined_of_number hq
    · exact (Expr.isDefined_of_shape hea).mpr (h.1 a ha)
  · intro d hd
    by_cases h0 : m.coefficient = 0
    · rw [toRatio_of_eq_zero h0] at hd
      cases hd
    · rw [toRatio_of_ne_zero h0] at hd
      rcases List.mem_append.mp hd with hd | hd
      · split at hd
        · rw [List.mem_singleton.mp hd, Expr.value_number]
          exact_mod_cast m.coefficient.den_ne_zero
        · cases hd
      · exact h.2 d hd

end Monomial

/-! ## Reduced ratios -/

/-- **A reduced ratio is defined where the ratio is, and has the same value there.** -/
theorem Ratio.isDefined_reduce {t : Ratio Expr} (h : t.IsDefined I) :
    t.reduce.IsDefined I ∧ t.reduce.value I = t.value I := by
  have hs := isDefined_split h
  constructor
  · exact Monomial.isDefined_toRatio (Monomial.isDefined_reduce hs)
  · rw [reduce, Monomial.value_toRatio (Monomial.isUnsigned_reduce (isUnsigned_split t)), Monomial.value_reduce hs,
      value_split]

end Isolate
