import Isolate.Proofs.Meaning.Terms
import Isolate.Proofs.Settling.Canonical
import Mathlib

/-!
# Lowest terms

The coefficient of a ratio is the product of the signs of its factors, its numbers and the inverses of its divisors, none
of which is zero (`Ratio.coefficient`). Cancelling leaves the factors of each side that the other side has not got, as
multisets (`coe_cancel`) and in their order (`cancel_sublist`).

* `Ratio.reduce_lowest`: reducing writes a ratio in lowest terms (`Ratio.IsLowest`), and zero for a ratio whose
  coefficient is zero; what has been reduced stays as it is.
-/

namespace Isolate

/-! ## Cancelling -/

section Cancelling

variable {α : Type} [DecidableEq α] {f : Expr → α} {ns ds : List Expr}

/-- **Cancelling leaves the two multiset differences**, up to a map that tells apart what is compared. -/
theorem coe_cancel (hf : ∀ a b : Expr, a.bare = b.bare → f a = f b)
    (h : ∀ a ∈ ns, ∀ d ∈ ds, f a = f d → a.bare = d.bare) :
    ((cancel ns ds).1.map f : Multiset α) = (ns.map f : Multiset α) - (ds.map f : Multiset α) ∧
      ((cancel ns ds).2.map f : Multiset α) = (ds.map f : Multiset α) - (ns.map f : Multiset α) := by
  induction ds generalizing ns with
  | nil => simp [cancel]
  | cons d ds ih =>
    unfold cancel
    split
    · rename_i hd
      obtain ⟨n, hn, hns⟩ := exists_perm_erase hd
      have hapart : ∀ a ∈ ns.erase d, ∀ c ∈ ds, f a = f c → a.bare = c.bare := fun a ha c hc =>
        h a (List.mem_of_mem_erase ha) c (List.mem_cons_of_mem _ hc)
      have hleft := ih hapart
      have hcoe : (ns.map f : Multiset α) = f d ::ₘ ((ns.erase d).map f : Multiset α) := by
        rw [Multiset.coe_eq_coe.mpr (hns.map f), List.map_cons, hf n d hn, Multiset.cons_coe]
      rw [hleft.1, hleft.2, hcoe, List.map_cons, ← Multiset.cons_coe]
      simp
    · rename_i hd
      have hleft := ih fun a ha c hc => h a ha c (List.mem_cons_of_mem _ hc)
      have hnew : f d ∉ (ns.map f : Multiset α) := by
        rw [Multiset.mem_coe, List.mem_map]
        rintro ⟨n, hn, hnd⟩
        have hbare := h n hn d List.mem_cons_self hnd
        exact hd (List.contains_iff_exists_mem_beq.mpr ⟨n, hn, (Expr.beq_iff d n).mpr hbare.symm⟩)
      simp only [List.map_cons, ← Multiset.cons_coe]
      constructor
      · rw [hleft.1, Multiset.sub_cons, Multiset.erase_of_notMem hnew]
      · rw [hleft.2]
        refine Multiset.ext.mpr fun k => ?_
        rw [Multiset.count_cons, Multiset.count_sub, Multiset.count_sub, Multiset.count_cons]
        split
        · rename_i hk
          rw [hk, Multiset.count_eq_zero_of_notMem hnew]
          rfl
        · rfl

end Cancelling

/-! ## Coefficients -/

theorem signOf_apply (es : List Expr) : (signOf es).apply 1 = (es.map fun e => e.sign.apply 1).prod := by
  induction es with
  | nil => rfl
  | cons e es ih =>
    rw [signOf_cons, Sign.apply_mul, ih, List.map_cons, List.prod_cons]
    cases e.sign <;> simp [Sign.apply]

namespace Ratio

/-- The signs of all factors, the numbers above the line and the inverses of the divisors below it, multiplied. -/
def coefficient (t : Ratio Expr) : Rat :=
  (t.factors.map fun e => e.sign.apply 1).prod * (t.numerator.filterMap Expr.number?).prod *
    ((t.denominator.filterMap Expr.divisor?).map (·⁻¹)).prod

theorem split_coefficient (t : Ratio Expr) : t.split.coefficient = t.coefficient := by
  have hsign : (t.factors.map fun e => e.sign.apply 1).prod = t.sign.apply 1 := (signOf_apply t.factors).symm
  rw [coefficient, hsign, split, magnitude_eq, product_eq_prod, product_eq_prod, ← List.prod_inv]
  cases t.sign <;> simp [Sign.apply, div_eq_mul_inv]

theorem coefficient_zero : (⟨[.number 0], []⟩ : Ratio Expr).coefficient = 0 := by
  simp [coefficient, Expr.number?, Expr.number, Expr.ofShape]

theorem reduce_of_coefficient_eq_zero {t : Ratio Expr} (h : t.coefficient = 0) : t.reduce = ⟨[.number 0], []⟩ :=
  Monomial.toRatio_of_eq_zero (m := t.split.reduce) ((split_coefficient t).trans h)

/-- The product of `t` in lowest terms is `u`, with the coefficient `p / q` apart from its sign. Both stand in front, unless
they are one, and only the first factor may have a minus. The factors behind them, which are no numbers, keep their order
and are those that the other side has not got. -/
structure IsLowest [DecidableEq Expr] (t u : Ratio Expr) (p q : Nat) : Prop where
  value : |t.coefficient| = p / q
  denominator_pos : 0 < q
  coprime : p.Coprime q
  numerator : (u.numerator.map fun e => e.abs.bare) =
    (if p ≠ 1 ∨ u.others.numerator = [] then [Expr.number p] else []) ++ u.others.numerator
  denominator : (u.denominator.map fun e => e.abs.bare) = (if q ≠ 1 then [Expr.number q] else []) ++ u.others.denominator
  numerator_sublist : u.others.numerator.Sublist t.others.numerator
  denominator_sublist : u.others.denominator.Sublist t.others.denominator
  numerator_sub : (u.others.numerator : Multiset Expr) = t.others.numerator - t.others.denominator
  denominator_sub : (u.others.denominator : Multiset Expr) = t.others.denominator - t.others.numerator
  disjoint : u.others.numerator.Disjoint u.others.denominator
  sign : ∀ e ∈ u.numerator.head?, e.sign = .neg ↔ t.coefficient < 0
  signs : ∀ e ∈ u.numerator.tail ++ u.denominator, e.sign = .pos

end Ratio

/-! ## Written monomials -/

namespace Monomial

variable {m : Monomial}

theorem map_abs_bare_negateFirst (es : List Expr) :
    ((negateFirst es).map fun e => e.abs.bare) = es.map fun e => e.abs.bare := by
  cases es with
  | nil => rfl
  | cons e es => rfl

theorem map_abs_bare_numerator (h0 : m.coefficient ≠ 0) :
    (m.toRatio.numerator.map fun e => e.abs.bare) = m.above.map fun e => e.abs.bare := by
  rw [numerator_toRatio h0]
  split
  · exact map_abs_bare_negateFirst m.above
  · rfl

theorem map_bare_above (m : Monomial) : m.above.map Expr.bare =
    (if m.coefficient.num.natAbs ≠ 1 ∨ (m.rest.map Expr.bare).numerator = [] then
      [Expr.number (m.coefficient.num.natAbs : Nat)] else []) ++ (m.rest.map Expr.bare).numerator := by
  have hempty : (m.rest.map Expr.bare).numerator = [] ↔ m.numerator.isEmpty = true := by
    rw [List.isEmpty_iff]
    exact List.map_eq_nil_iff
  simp only [above, List.map_append, hempty]
  split
  · rw [List.map_singleton, Expr.bare_number, Int.cast_natCast]
    rfl
  · rfl

theorem map_bare_below (m : Monomial) : m.below.map Expr.bare =
    (if m.coefficient.den ≠ 1 then [Expr.number (m.coefficient.den : Nat)] else []) ++
      (m.rest.map Expr.bare).denominator := by
  rw [below, List.map_append]
  split
  · rw [List.map_singleton, Expr.bare_number, Int.cast_natCast]
    rfl
  · rfl

/-- The first factor of a written monomial has the sign of the coefficient. -/
theorem sign_head_toRatio (h : m.IsUnsigned) (h0 : m.coefficient ≠ 0) :
    ∀ e ∈ m.toRatio.numerator.head?, e.sign = .neg ↔ m.coefficient < 0 := by
  intro e he
  obtain ⟨a, as, habove⟩ := List.exists_cons_of_ne_nil (above_ne_nil (m := m))
  have ha : a.sign = .pos := sign_above h a (by rw [habove]; exact List.mem_cons_self)
  rw [numerator_toRatio h0, habove] at he
  split at he
  · rename_i hneg
    obtain rfl : { a with sign := .neg } = e := by simpa [negateFirst] using he
    simp [hneg]
  · rename_i hpos
    obtain rfl : a = e := by simpa using he
    simp [ha, hpos]

end Monomial

namespace Ratio

variable [DecidableEq Expr]

/-- Of the factors that are no numbers, cancelling leaves the multiset differences. -/
theorem coe_cancel_split (t : Ratio Expr) :
    ((cancel t.split.numerator t.split.denominator).1.map Expr.bare : Multiset Expr) =
        (t.split.numerator.map Expr.bare : Multiset Expr) - (t.split.denominator.map Expr.bare : Multiset Expr) ∧
      ((cancel t.split.numerator t.split.denominator).2.map Expr.bare : Multiset Expr) =
        (t.split.denominator.map Expr.bare : Multiset Expr) - (t.split.numerator.map Expr.bare : Multiset Expr) :=
  coe_cancel (fun _ _ => id) fun _ _ _ _ => id

/-- What is not zero is reduced to lowest terms. -/
theorem isLowest_reduce (t : Ratio Expr) (h0 : t.coefficient ≠ 0) :
    t.IsLowest t.reduce t.coefficient.num.natAbs t.coefficient.den := by
  have hreduced := Monomial.isReduced_reduce t
  have hcoefficient : t.split.reduce.coefficient = t.coefficient := split_coefficient t
  have hm0 : t.split.reduce.coefficient ≠ 0 := hcoefficient ▸ h0
  have hothers : t.reduce.others = t.split.reduce.rest.map Expr.bare := by
    rw [others_eq, reduce, Monomial.split_toRatio hreduced hm0]
  obtain ⟨hn, hd⟩ := cancel_sublist t.split.numerator t.split.denominator
  obtain ⟨hnsub, hdsub⟩ := t.coe_cancel_split
  have hunsigned := hreduced.unsigned
  have hlowest : t.reduce.IsReduced := Monomial.isReduced_toRatio hreduced hm0
  exact {
    value := by
      rw [Nat.cast_natAbs, Int.cast_abs, ← Nat.abs_cast t.coefficient.den, ← abs_div, Rat.num_div_den]
    denominator_pos := t.coefficient.den_pos
    coprime := t.coefficient.reduced
    numerator := by
      rw [hothers, ← hcoefficient, ← Monomial.map_bare_above, ← Expr.map_bare_abs_of_pos (Monomial.sign_above hunsigned)]
      exact Monomial.map_abs_bare_numerator hm0
    denominator := by
      rw [hothers, ← hcoefficient, ← Monomial.map_bare_below, ← Expr.map_bare_abs_of_pos (Monomial.sign_below hunsigned), reduce,
        Monomial.denominator_toRatio hm0]
    numerator_sublist := by
      rw [hothers, others_eq]
      exact hn.map Expr.bare
    denominator_sublist := by
      rw [hothers, others_eq]
      exact hd.map Expr.bare
    numerator_sub := by
      rw [hothers, others_eq]
      exact hnsub
    denominator_sub := by
      rw [hothers, others_eq]
      exact hdsub
    disjoint := by
      intro k hn hd
      obtain ⟨a, ha, rfl⟩ := List.mem_map.mp hn
      obtain ⟨b, hb, hab⟩ := List.mem_map.mp hd
      obtain ⟨ha, hnumber⟩ := List.mem_filter.mp ha
      exact hlowest.disjoint a ha b (List.mem_of_mem_filter hb) (Option.isNone_iff_eq_none.mp hnumber) hab.symm
    sign := by
      rw [← hcoefficient]
      exact Monomial.sign_head_toRatio hunsigned hm0
    signs := hlowest.signs }

/-- **Reducing writes a ratio in lowest terms**, and zero if its coefficient is zero. It divides by no zero, and what has
been reduced stays as it is. -/
theorem reduce_lowest (t : Ratio Expr) :
    (∀ d ∈ t.denominator.filterMap Expr.divisor?, d ≠ 0) ∧
    (t.coefficient = 0 → t.reduce = ⟨[.number 0], []⟩) ∧
    (t.coefficient ≠ 0 → ∃ p q, t.IsLowest t.reduce p q) ∧
    t.reduce.reduce = t.reduce := by
  refine ⟨fun d hd => ?_, reduce_of_coefficient_eq_zero, fun h0 => ⟨_, _, t.isLowest_reduce h0⟩, ?_⟩
  · obtain ⟨e, -, he⟩ := List.mem_filterMap.mp hd
    simpa using (Option.filter_eq_some_iff.mp he).2
  · by_cases h0 : t.coefficient = 0
    · rw [reduce_of_coefficient_eq_zero h0, reduce_of_coefficient_eq_zero coefficient_zero]
    · have hreduced := Monomial.isReduced_reduce t
      have hsplit : t.reduce.split = t.split.reduce :=
        Monomial.split_toRatio hreduced fun h => h0 ((split_coefficient t).symm.trans h)
      rw [reduce, hsplit, hreduced.reduce_eq, reduce]

end Ratio

end Isolate
