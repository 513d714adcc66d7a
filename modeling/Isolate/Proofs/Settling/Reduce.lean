import Isolate.Normal.Simplify
import Isolate.Proofs.Monomial
import Isolate.Proofs.Settling.Weight
import Mathlib.Data.Rat.Lemmas

/-!
# The weight of reduced sums

A monomial is written with at most two numbers. The numbers of a ratio pay for them: one that is not whole weighs as
much as both, and among whole ones the numerator of the coefficient comes from the numerator of the ratio and the
denominator from the denominator (`weight_toRatio_split_le`). Cancelling pays for both at once. Two like terms that are
added up are lighter together (`weight_merge_le`).

* `Expr.weight_reduceStep_le`: reducing a sum adds no weight.
-/

namespace Isolate

open Isolate.Expr (load)

/-! ## Written monomials -/

namespace Monomial

variable {m n : Monomial}

/-- What a coefficient weighs in front of factors; `alone` tells whether there are none in the numerator. -/
def cost (c : Rat) (alone : Bool) : Nat := (if c.num.natAbs ≠ 1 ∨ alone then 2 else 0) + if c.den ≠ 1 then 2 else 0

theorem cost_le (c : Rat) (alone : Bool) : cost c alone ≤ 4 := by
  unfold cost
  split <;> split <;> omega

theorem weight_number (n : Int) : (Expr.number n).weight = 2 := by
  rw [Expr.weight_eq]
  simp [Expr.number, Expr.ofShape, Shape.base, Expr.children, Shape.children]

theorem load_negateFirst (es : List Expr) : load (negateFirst es) = load es := by
  cases es with
  | nil => rfl
  | cons e es =>
    rw [negateFirst, Expr.load_cons, Expr.load_cons]
    exact congrArg (· + load es) (Expr.weight_of_shape rfl)

theorem negateFirst_ne_nil {es : List Expr} (h : es ≠ []) : negateFirst es ≠ [] := by
  cases es with
  | nil => exact absurd rfl h
  | cons e es => exact List.cons_ne_nil _ _

theorem weight_toRatio_of_eq_zero (h : m.coefficient = 0) : m.toRatio.weight = 3 := by
  rw [toRatio_of_eq_zero h]
  decide

theorem weight_toRatio_of_ne_zero (h : m.coefficient ≠ 0) :
    m.toRatio.weight = 1 + cost m.coefficient m.numerator.isEmpty + load m.rest.factors := by
  have hnumber : ∀ (p : Prop) [Decidable p] (n : Int), load (if p then [Expr.number n] else []) = if p then 2 else 0 := by
    intro p _ n
    split
    · rw [Expr.load_cons, weight_number, Expr.load_nil]
    · rfl
  have habove : load (if m.coefficient < 0 then negateFirst m.above else m.above) = load m.above := by
    split
    · exact load_negateFirst _
    · rfl
  have hne : (if m.coefficient < 0 then negateFirst m.above else m.above) ≠ [] := by
    split
    · exact negateFirst_ne_nil above_ne_nil
    · exact above_ne_nil
  rw [toRatio_of_ne_zero h, Ratio.weight, Ratio.base, Ratio.factors, Expr.load_append, habove,
    if_neg (by simpa using hne), above, below, Expr.load_append, Expr.load_append, hnumber, hnumber, cost]
  simp only [rest, Ratio.factors, Expr.load_append]
  omega

theorem load_rest (m : Monomial) : load m.rest.factors = load m.numerator + load m.denominator := Expr.load_append ..

theorem weight_toRatio_le (m : Monomial) :
    m.toRatio.weight ≤ 1 + cost m.coefficient m.numerator.isEmpty + load m.rest.factors := by
  by_cases h : m.coefficient = 0
  · rw [weight_toRatio_of_eq_zero h, h]
    simp [cost]
  · exact (weight_toRatio_of_ne_zero h).le

end Monomial

/-! ## What numbers pay for -/

/-- The numbers among factors, if `f` finds them. -/
def numerals (f : Expr → Option Rat) (es : List Expr) : List Expr := es.filter fun e => (f e).isSome

theorem Expr.weight_of_number? {e : Expr} {q : Rat} (h : e.number? = some q) :
    e.weight = if q.den = 1 then 2 else 5 := by
  obtain ⟨s, b, c⟩ := e
  cases b with
  | number v =>
    obtain rfl : v = q := by simpa [number?] using h
    rw [weight_eq]
    simp [Shape.base, children, Shape.children]
  | _ => simp [number?] at h

theorem Expr.two_le_load {es : List Expr} (h : es ≠ []) : 2 ≤ load es := by
  cases es with
  | nil => exact absurd rfl h
  | cons e es =>
    have := e.two_le_weight
    rw [load_cons]
    omega

variable {f : Expr → Option Rat}

theorem load_part (f : Expr → Option Rat) (es : List Expr) :
    load es = load (numerals f es) + load ((es.filter fun e => (f e).isNone).map Expr.abs) := by
  induction es with
  | nil => rfl
  | cons e es ih =>
    rw [numerals] at ih ⊢
    cases h : f e with
    | none =>
      simp only [List.filter_cons, h, Option.isSome_none, Option.isNone_none, Bool.false_eq_true, if_false, if_true,
        List.map_cons, Expr.load_cons, Expr.weight_abs]
      omega
    | some q =>
      simp only [List.filter_cons, h, Option.isSome_some, Option.isNone_some, Bool.false_eq_true, if_false, if_true,
        Expr.load_cons]
      omega

theorem filterMap_of_numerals {es : List Expr} (h : numerals f es = []) : es.filterMap f = [] := by
  rw [numerals, List.filter_eq_nil_iff] at h
  rw [List.filterMap_eq_nil_iff]
  intro e he
  simpa using h e he

/-- A product of numbers is whole, or the numbers weigh as much as one that is not. -/
theorem whole_or_five_le (hf : ∀ e q, f e = some q → e.number? = some q) (es : List Expr) :
    (∃ n : Int, product (es.filterMap f) = n) ∨ 5 ≤ load (numerals f es) := by
  induction es with
  | nil => exact .inl ⟨1, by simp⟩
  | cons e es ih =>
    rw [numerals] at ih ⊢
    cases h : f e with
    | none => simpa [List.filter_cons, h] using ih
    | some q =>
      have hw := Expr.weight_of_number? (hf e q h)
      simp only [List.filter_cons, h, Option.isSome_some, if_true, Expr.load_cons, List.filterMap_cons_some h,
        product_cons]
      by_cases hq : q.den = 1
      · rcases ih with ⟨n, hn⟩ | h5
        · refine .inl ⟨q.num * n, ?_⟩
          rw [hn, Int.cast_mul, (Rat.den_eq_one_iff q).mp hq]
        · exact .inr (by omega)
      · rw [if_neg hq] at hw
        exact .inr (by omega)

/-! ## Coefficients in lowest terms -/

theorem Sign.natAbs_num_apply (s : Sign) (q : Rat) : (s.apply q).num.natAbs = q.num.natAbs := by cases s <;> simp [apply]

theorem Sign.den_apply (s : Sign) (q : Rat) : (s.apply q).den = q.den := by cases s <;> simp [apply]

theorem natAbs_num_inv_intCast {d : Int} (h : d ≠ 0) : ((d : Rat)⁻¹).num.natAbs = 1 := by
  rw [Rat.inv_intCast_num, Int.natAbs_sign_of_ne_zero h]

theorem product_divisors_ne_zero (es : List Expr) : product (es.filterMap Expr.divisor?) ≠ 0 := by
  induction es with
  | nil => simp
  | cons e es ih =>
    cases h : e.divisor? with
    | none => rwa [List.filterMap_cons_none h]
    | some q =>
      rw [List.filterMap_cons_some h, product_cons]
      exact mul_ne_zero (by simpa using (Option.filter_eq_some_iff.mp h).2) ih

namespace Ratio

theorem load_numerator (t : Ratio Expr) :
    load t.numerator = load (numerals Expr.number? t.numerator) + load t.split.numerator := load_part _ _

theorem load_denominator (t : Ratio Expr) :
    load t.denominator = load (numerals Expr.divisor? t.denominator) + load t.split.denominator := load_part _ _

variable {t : Ratio Expr} {n d : Int}

theorem coefficient_split (hn : product (t.numerator.filterMap Expr.number?) = n)
    (hd : product (t.denominator.filterMap Expr.divisor?) = d) : t.split.coefficient = t.sign.apply (n / d : Rat) := by
  rw [split, magnitude_eq, hn, hd]

/-- Without numbers above the bar the coefficient has the numerator one. -/
theorem natAbs_num_coefficient_split (hd : product (t.denominator.filterMap Expr.divisor?) = d)
    (h : numerals Expr.number? t.numerator = []) : t.split.coefficient.num.natAbs = 1 := by
  have hn : product (t.numerator.filterMap Expr.number?) = (1 : Int) := by
    rw [filterMap_of_numerals h, product_nil, Int.cast_one]
  have hd0 : d ≠ 0 := by
    have h0 := product_divisors_ne_zero t.denominator
    rw [hd] at h0
    exact_mod_cast h0
  rw [coefficient_split hn hd, Sign.natAbs_num_apply, Int.cast_one, one_div, natAbs_num_inv_intCast hd0]

/-- Without divisors the coefficient has the denominator one. -/
theorem den_coefficient_split (hn : product (t.numerator.filterMap Expr.number?) = n)
    (h : numerals Expr.divisor? t.denominator = []) : t.split.coefficient.den = 1 := by
  have hd : product (t.denominator.filterMap Expr.divisor?) = (1 : Int) := by
    rw [filterMap_of_numerals h, product_nil, Int.cast_one]
  rw [coefficient_split hn hd, Sign.den_apply, Int.cast_one, div_one, Rat.den_intCast]

theorem isEmpty_numerator_of_split (h : numerals Expr.number? t.numerator = [])
    (hempty : t.split.numerator.isEmpty = true) : t.numerator.isEmpty = true := by
  by_contra hne
  have h0 : load t.numerator = 0 := by
    rw [load_numerator, h, List.isEmpty_iff.mp hempty]
    rfl
  have := Expr.two_le_load (mt List.isEmpty_iff.mpr hne)
  omega

/-- The numbers of a ratio pay for its coefficient. -/
theorem cost_split_le (t : Ratio Expr) :
    Monomial.cost t.split.coefficient t.split.numerator.isEmpty ≤
      (if t.numerator.isEmpty then 3 else 0) + load (numerals Expr.number? t.numerator) +
        load (numerals Expr.divisor? t.denominator) := by
  have hcost := Monomial.cost_le t.split.coefficient t.split.numerator.isEmpty
  have hdivisor : ∀ e q, Expr.divisor? e = some q → e.number? = some q := fun e q => Option.eq_some_of_filter_eq_some
  rcases whole_or_five_le (f := Expr.number?) (fun _ _ => id) t.numerator with ⟨n, hn⟩ | h5
  swap
  · omega
  rcases whole_or_five_le hdivisor t.denominator with ⟨d, hd⟩ | h5
  swap
  · omega
  have habove : (if t.split.coefficient.num.natAbs ≠ 1 ∨ t.split.numerator.isEmpty = true then 2 else 0) ≤
      (if t.numerator.isEmpty = true then 3 else 0) + load (numerals Expr.number? t.numerator) := by
    split
    · rename_i hwritten
      by_cases hN : numerals Expr.number? t.numerator = []
      · have hempty := hwritten.resolve_left fun h => h (natAbs_num_coefficient_split hd hN)
        rw [if_pos (isEmpty_numerator_of_split hN hempty)]
        omega
      · have := Expr.two_le_load hN
        omega
    · exact Nat.zero_le _
  have hbelow : (if t.split.coefficient.den ≠ 1 then 2 else 0) ≤ load (numerals Expr.divisor? t.denominator) := by
    split
    · rename_i hwritten
      exact Expr.two_le_load fun hD => hwritten (den_coefficient_split hn hD)
    · exact Nat.zero_le _
  rw [Monomial.cost]
  omega

theorem weight_eq (t : Ratio Expr) :
    t.weight = 1 + (if t.numerator.isEmpty then 3 else 0) + (load t.numerator + load t.denominator) := by
  rw [weight, base, factors, Expr.load_append]

/-- A ratio is no lighter than what its monomial is written as. -/
theorem weight_toRatio_split_le (t : Ratio Expr) : t.split.toRatio.weight ≤ t.weight := by
  have hcost := t.cost_split_le
  have hw := t.split.weight_toRatio_le
  have hn := t.load_numerator
  have hd := t.load_denominator
  have hrest := t.split.load_rest
  have ht := t.weight_eq
  omega

end Ratio

/-! ## Cancelling -/

theorem load_erase {d : Expr} {es : List Expr} (h : es.contains d = true) :
    load es = d.weight + load (es.erase d) := by
  obtain ⟨e, hbare, hes⟩ := exists_perm_erase h
  rw [Expr.load_perm hes, Expr.load_cons, Expr.weight_of_bare hbare]

/-- Cancelling takes two factors at a time. -/
theorem cancel_eq_self_or (ns ds : List Expr) :
    cancel ns ds = (ns, ds) ∨ load (cancel ns ds).1 + load (cancel ns ds).2 + 4 ≤ load ns + load ds := by
  induction ds generalizing ns with
  | nil => exact .inl rfl
  | cons d ds ih =>
    have := d.two_le_weight
    unfold cancel
    split
    · rename_i h
      have := load_erase h
      rw [Expr.load_cons]
      rcases ih (ns.erase d) with h | h
      · simp only [h]
        exact .inr (by omega)
      · exact .inr (by omega)
    · simp only [Expr.load_cons]
      rcases ih ns with h | h
      · rw [h]
        exact .inl rfl
      · exact .inr (by omega)

/-- Reducing a ratio adds no weight. -/
theorem Ratio.weight_reduce_le (t : Ratio Expr) : t.reduce.weight ≤ t.weight := by
  have hsplit := t.weight_toRatio_split_le
  rw [reduce]
  rcases cancel_eq_self_or t.split.numerator t.split.denominator with h | h
  · have : t.split.reduce = t.split := by rw [Monomial.reduce, h]
    rwa [this]
  · have hw := t.split.reduce.weight_toRatio_le
    have hcost := Monomial.cost_le t.split.reduce.coefficient t.split.reduce.numerator.isEmpty
    have hrest : load t.split.reduce.rest.factors =
        load (cancel t.split.numerator t.split.denominator).1 +
          load (cancel t.split.numerator t.split.denominator).2 := Monomial.load_rest _
    have hn := t.load_numerator
    have hd := t.load_denominator
    have ht := t.weight_eq
    omega

/-! ## Like terms -/

namespace Monomial

variable {m n : Monomial}

theorem load_of_perm {as bs : List Expr} (h : (as.map Expr.bare).Perm (bs.map Expr.bare)) : load as = load bs := by
  have hbare : ∀ es : List Expr, load es = load (es.map Expr.bare) := by
    intro es
    rw [load, load, List.map_map]
    exact congrArg List.sum (List.map_congr_left fun e _ => (Expr.weight_bare e).symm)
  rw [hbare as, hbare bs, Expr.load_perm h]

/-- Two coefficients before the same factors cost more than their sum, if a term is counted for each. -/
theorem cost_add_le (c d : Rat) (alone : Bool) (l : Nat) (hl : alone = false → 2 ≤ l) :
    cost (c + d) alone + l ≤ 1 + cost c alone + cost d alone + 2 * l := by
  have hle := cost_le (c + d) alone
  cases alone with
  | true =>
    have hc : ∀ c : Rat, 2 ≤ cost c true := fun c => by simp [cost]
    have := hc c
    have := hc d
    omega
  | false =>
    have := hl rfl
    by_cases h : (c + d).den = 1
    · have : cost (c + d) false ≤ 2 := by
        rw [cost, if_neg (not_not_intro h)]
        split <;> omega
      omega
    · -- a sum that is not whole has a summand that is not
      have hne : c.den ≠ 1 ∨ d.den ≠ 1 := by
        by_contra hno
        simp only [ne_eq, not_or, Decidable.not_not] at hno
        rw [← (Rat.den_eq_one_iff c).mp hno.1, ← (Rat.den_eq_one_iff d).mp hno.2] at h
        exact h (by exact_mod_cast Rat.den_intCast (c.num + d.num))
      have hden : ∀ c : Rat, c.den ≠ 1 → 2 ≤ cost c false := fun c hc => by rw [cost, if_pos hc]; omega
      rcases hne with h | h
      · have := hden _ h
        omega
      · have := hden _ h
        omega

theorem isEmpty_numerator_of_isLike (h : n.isLike m = true) : n.numerator.isEmpty = m.numerator.isEmpty := by
  have hlen := (perm_of_isLike h).1.length_eq
  rw [List.length_map, List.length_map] at hlen
  rw [Bool.eq_iff_iff, List.isEmpty_iff_length_eq_zero, List.isEmpty_iff_length_eq_zero, hlen]

/-- Like terms that are added up are no heavier than they were. -/
theorem weight_merge_le (h : n.isLike m = true) :
    (toRatio { n with coefficient := n.coefficient + m.coefficient }).weight ≤ n.toRatio.weight + m.toRatio.weight := by
  obtain ⟨hn, hd⟩ := perm_of_isLike h
  have hln := load_of_perm hn
  have hld := load_of_perm hd
  have hempty := isEmpty_numerator_of_isLike h
  have hu := weight_toRatio_le { n with coefficient := n.coefficient + m.coefficient }
  have h3n := n.toRatio.three_le_weight
  have h3m := m.toRatio.three_le_weight
  simp only [load_rest] at hu
  by_cases hn0 : n.coefficient = 0
  · by_cases hm0 : m.coefficient = 0
    · rw [weight_toRatio_of_eq_zero (show n.coefficient + m.coefficient = 0 by rw [hn0, hm0, add_zero])]
      omega
    · have hm := weight_toRatio_of_ne_zero hm0
      rw [hn0, zero_add, hempty] at hu
      rw [load_rest] at hm
      rw [hn0, zero_add]
      omega
  · have hnw := weight_toRatio_of_ne_zero hn0
    rw [load_rest] at hnw
    by_cases hm0 : m.coefficient = 0
    · rw [hm0, add_zero] at hu
      rw [hm0, add_zero]
      omega
    · have hmw := weight_toRatio_of_ne_zero hm0
      rw [load_rest, ← hempty] at hmw
      have hcost := cost_add_le n.coefficient m.coefficient n.numerator.isEmpty (load n.numerator + load n.denominator)
        fun he => by
          have hne : n.numerator ≠ [] := by simpa using he
          have := Expr.two_le_load hne
          omega
      omega

/-- The weight of monomials as they are written. -/
def writtenWeight (ms : List Monomial) : Nat := termsWeight (ms.map toRatio)

theorem writtenWeight_addTo_le (m : Monomial) (ns : List Monomial) :
    writtenWeight (m.addTo ns) ≤ m.toRatio.weight + writtenWeight ns := by
  induction ns with
  | nil => rfl
  | cons n ns ih =>
    simp only [writtenWeight] at ih ⊢
    unfold addTo
    split
    · rename_i h
      have := weight_merge_le h
      simp only [List.map_cons, termsWeight_cons]
      omega
    · simp only [List.map_cons, termsWeight_cons]
      omega

theorem writtenWeight_addAll_le (ms acc : List Monomial) :
    writtenWeight (addAll ms acc) ≤ writtenWeight ms + writtenWeight acc := by
  induction ms generalizing acc with
  | nil => simp [addAll]
  | cons m ms ih =>
    have := ih (m.addTo acc)
    have := writtenWeight_addTo_le m acc
    have hm : writtenWeight (m :: ms) = m.toRatio.weight + writtenWeight ms := rfl
    rw [addAll, List.foldl_cons, ← addAll]
    omega

end Monomial

/-- Collecting like terms adds no weight. -/
theorem Ratio.termsWeight_collect_le (ts : List (Ratio Expr)) : termsWeight (collect ts) ≤ termsWeight ts := by
  have hadd := Monomial.writtenWeight_addAll_le (ts.map split) []
  have hsplit : Monomial.writtenWeight (ts.map split) ≤ termsWeight ts := by
    rw [Monomial.writtenWeight, termsWeight, List.map_map, List.map_map]
    exact List.sum_le_sum fun t _ => t.weight_toRatio_split_le
  rw [collect_eq]
  exact hadd.trans (by simpa [Monomial.writtenWeight] using hsplit)

/-- **Reducing a sum adds no weight.** -/
theorem Expr.weight_reduceStep_le (e : Expr) : (reduceStep e).weight ≤ e.weight := by
  obtain ⟨s, b, c⟩ := e
  cases b with
  | sum ts =>
    have hcollect := Ratio.termsWeight_collect_le (ts.map Ratio.reduce)
    have hreduce : termsWeight (ts.map Ratio.reduce) ≤ termsWeight ts := by
      rw [termsWeight, List.map_map]
      exact List.sum_le_sum fun t _ => t.weight_reduce_le
    simp only [reduceStep, weight_sum]
    omega
  | _ => rfl

end Isolate
