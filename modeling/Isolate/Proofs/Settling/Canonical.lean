import Isolate.Proofs.Settling.Fixed
import Isolate.Proofs.Tree.Order

/-!
# The canonical shape

In canonical shape, the terms of every sum are flat, reduced and unlike each other (`Expr.AreCanonical`). A reduced ratio
has its coefficient in lowest terms in front, a minus at the first factor at most, and nothing to cancel
(`Ratio.IsReduced`). This is how a reduced monomial is written (`Monomial.isReduced_toRatio`), and a node that every step
leaves has the terms that its monomials are written as.

* `Equation.isCanonical_normalize`: where normalising ends, every node is in canonical shape.
-/

namespace Isolate

open Isolate.Expr (bare)

/-! ## What canonical means -/

namespace Ratio

/-- The coefficient is in lowest terms at the front, only the first factor may have a minus, and no factor but numbers
stands on both sides. -/
structure IsReduced (t : Ratio Expr) : Prop where
  numerator_ne_nil : t.numerator ≠ []
  numbers : ∀ e ∈ t.numerator.tail, e.number? = none
  divisors : ∀ e ∈ t.denominator.tail, e.divisor? = none
  number : ∀ e ∈ t.numerator, ∀ p, e.number? = some p → ∃ n : Nat, p = n ∧ 0 < n ∧ (n = 1 → t.numerator.length = 1)
  divisor : ∀ e ∈ t.denominator, ∀ q, e.divisor? = some q → ∃ n : Nat, q = n ∧ 2 ≤ n
  coprime : ∀ a ∈ t.numerator, ∀ b ∈ t.denominator, ∀ p q : Nat, a.number? = some (p : Rat) →
    b.divisor? = some (q : Rat) → p.Coprime q
  signs : ∀ e ∈ t.numerator.tail ++ t.denominator, e.sign = .pos
  disjoint : ∀ a ∈ t.numerator, ∀ b ∈ t.denominator, a.number? = none → a.abs.bare ≠ b.abs.bare

/-- The factors that are no numbers, without their signs; a zero divisor is one of them. -/
def others (t : Ratio Expr) : Ratio Expr :=
  ⟨(t.numerator.filter fun e => e.number?.isNone).map fun e => e.abs.bare,
    (t.denominator.filter fun e => e.divisor?.isNone).map fun e => e.abs.bare⟩

/-- Do two terms have the same factors, apart from numbers, up to order? -/
def IsLike (t u : Ratio Expr) : Prop :=
  t.others.numerator.Perm u.others.numerator ∧ t.others.denominator.Perm u.others.denominator

end Ratio

namespace Expr

/-- The terms of a sum in canonical shape. -/
structure AreCanonical (ts : List (Ratio Expr)) : Prop where
  ne_nil : ts ≠ []
  not_factor : ∀ a, ts ≠ [⟨[a], []⟩]
  flat : ∀ t ∈ ts, t.IsFlat
  reduced : ∀ t ∈ ts, t.IsReduced
  unlike : ts.Pairwise fun t u => ¬t.IsLike u

/-- If the node is a sum, its terms are canonical. -/
def IsCanonical (e : Expr) : Prop := ∀ ts, e.shape = .sum ts → AreCanonical ts

end Expr

/-! ## Reduced monomials are written canonically -/

namespace Monomial

variable {m n : Monomial} {e : Expr}

theorem abs_of_mem_negateFirst {es : List Expr} (h : e ∈ negateFirst es) : ∃ a ∈ es, e.abs = a.abs := by
  cases es with
  | nil => cases h
  | cons a es =>
    rcases List.mem_cons.mp h with rfl | h
    · exact ⟨a, List.mem_cons_self, rfl⟩
    · exact ⟨e, List.mem_cons_of_mem _ h, rfl⟩

/-- The factors above the bar, with the minus of the coefficient. -/
theorem numerator_toRatio (h : m.coefficient ≠ 0) :
    m.toRatio.numerator = if m.coefficient < 0 then negateFirst m.above else m.above := by
  rw [toRatio_of_ne_zero h]

theorem denominator_toRatio (h : m.coefficient ≠ 0) : m.toRatio.denominator = m.below := by
  rw [toRatio_of_ne_zero h]

theorem abs_of_mem_numerator (h0 : m.coefficient ≠ 0) (h : e ∈ m.toRatio.numerator) : ∃ a ∈ m.above, e.abs = a.abs := by
  rw [numerator_toRatio h0] at h
  split at h
  · exact abs_of_mem_negateFirst h
  · exact ⟨e, h, rfl⟩

theorem tail_numerator (h0 : m.coefficient ≠ 0) : m.toRatio.numerator.tail = m.above.tail := by
  rw [numerator_toRatio h0]
  split
  · cases m.above <;> rfl
  · rfl

theorem length_numerator (h0 : m.coefficient ≠ 0) : m.toRatio.numerator.length = m.above.length := by
  rw [numerator_toRatio h0]
  split
  · cases m.above <;> rfl
  · rfl

theorem mem_of_mem_tail_above (h : e ∈ m.above.tail) : e ∈ m.numerator := by
  rw [above] at h
  split at h
  · exact h
  · exact List.mem_of_mem_tail h

theorem mem_of_mem_tail_below (h : e ∈ m.below.tail) : e ∈ m.denominator := by
  rw [below] at h
  split at h
  · exact h
  · exact List.mem_of_mem_tail h

/-- The only number above the bar is the numerator of the coefficient. -/
theorem number_of_mem_above (h : m.IsReduced) (he : e ∈ m.above) {p : Rat} (hp : e.number? = some p) :
    p = m.coefficient.num.natAbs ∧ (m.coefficient.num.natAbs = 1 → m.above.length = 1) := by
  rcases List.mem_append.mp he with he | he
  · split at he
    · rename_i hwritten
      rw [List.mem_singleton.mp he] at hp
      refine ⟨by simpa [Expr.number?, Expr.number, Expr.ofShape] using hp.symm, fun hone => ?_⟩
      have hempty := List.isEmpty_iff.mp (hwritten.resolve_left fun hne => hne hone)
      rw [above, if_pos hwritten, hempty]
      rfl
    · cases he
  · rw [h.numbers e he] at hp
    cases hp

/-- The only divisor below the bar is the denominator of the coefficient. -/
theorem divisor_of_mem_below (h : m.IsReduced) (he : e ∈ m.below) {q : Rat} (hq : e.divisor? = some q) :
    q = m.coefficient.den ∧ m.coefficient.den ≠ 1 := by
  rcases List.mem_append.mp he with he | he
  · split at he
    · rename_i hwritten
      rw [List.mem_singleton.mp he] at hq
      have hnumber := Option.eq_some_of_filter_eq_some hq
      exact ⟨by simpa [Expr.number?, Expr.number, Expr.ofShape] using hnumber.symm, hwritten⟩
    · cases he
  · rw [h.divisors e he] at hq
    cases hq

theorem mem_numerator_of_mem_above (he : e ∈ m.above) (hn : e.number? = none) : e ∈ m.numerator := by
  rcases List.mem_append.mp he with he | he
  · split at he
    · rw [List.mem_singleton.mp he] at hn
      cases hn
    · cases he
  · exact he

/-- Nothing above the bar of a reduced monomial stands below it. -/
theorem bare_ne_of_mem (h : m.IsReduced) {a b : Expr} (ha : a ∈ m.above) (hb : b ∈ m.below) (hn : a.number? = none) :
    a.bare ≠ b.bare := by
  intro hab
  have ha := mem_numerator_of_mem_above ha hn
  rcases List.mem_append.mp hb with hb | hb
  · split at hb
    · rw [List.mem_singleton.mp hb] at hab
      rw [← Expr.number?_bare, hab] at hn
      cases hn
    · cases hb
  · have hcontains : (cancel m.numerator m.denominator).1.contains b = false :=
      contains_cancel (by rw [h.cancelled]; exact hb)
    rw [h.cancelled] at hcontains
    exact Bool.eq_false_iff.mp hcontains
      (List.contains_iff_exists_mem_beq.mpr ⟨a, ha, (Expr.beq_iff b a).mpr hab.symm⟩)

/-- **A reduced monomial is written as a reduced ratio.** -/
theorem isReduced_toRatio (h : m.IsReduced) (h0 : m.coefficient ≠ 0) : m.toRatio.IsReduced where
  numerator_ne_nil := by
    rw [numerator_toRatio h0]
    split
    · exact negateFirst_ne_nil above_ne_nil
    · exact above_ne_nil
  numbers e he := by
    rw [tail_numerator h0] at he
    exact h.numbers e (mem_of_mem_tail_above he)
  divisors e he := by
    rw [denominator_toRatio h0] at he
    exact h.divisors e (mem_of_mem_tail_below he)
  number e he p hp := by
    obtain ⟨a, ha, hea⟩ := abs_of_mem_numerator h0 he
    obtain ⟨rfl, hone⟩ := number_of_mem_above h ha (show a.abs.number? = some p by rw [← hea]; exact hp)
    refine ⟨_, rfl, Int.natAbs_pos.mpr (Rat.num_ne_zero.mpr h0), fun h1 => ?_⟩
    rw [length_numerator h0]
    exact hone h1
  divisor e he q hq := by
    rw [denominator_toRatio h0] at he
    obtain ⟨rfl, hne⟩ := divisor_of_mem_below h he hq
    have := m.coefficient.den_pos
    exact ⟨_, rfl, by omega⟩
  coprime a ha b hb p q hp hq := by
    obtain ⟨a', ha', haa⟩ := abs_of_mem_numerator h0 ha
    rw [denominator_toRatio h0] at hb
    obtain ⟨hp, -⟩ := number_of_mem_above h ha' (show a'.abs.number? = some _ by rw [← haa]; exact hp)
    obtain ⟨hq, -⟩ := divisor_of_mem_below h hb hq
    rw [Nat.cast_inj.mp hp, Nat.cast_inj.mp hq]
    exact m.coefficient.reduced
  signs e he := by
    rw [tail_numerator h0, denominator_toRatio h0] at he
    rcases List.mem_append.mp he with he | he
    · exact sign_above h.unsigned e (List.mem_of_mem_tail he)
    · exact sign_below h.unsigned e he
  disjoint a ha b hb hn hab := by
    obtain ⟨a', ha', haa⟩ := abs_of_mem_numerator h0 ha
    rw [denominator_toRatio h0] at hb
    rw [haa, Expr.abs_of_pos (sign_above h.unsigned a' ha'), Expr.abs_of_pos (sign_below h.unsigned b hb)] at hab
    exact bare_ne_of_mem h ha' hb (show a'.abs.number? = none by rw [← haa]; exact hn) hab

end Monomial

/-! ## Terms and their analyses -/

namespace Ratio

theorem isReduced_of_bare {t : Ratio Expr} (h : (t.map bare).IsReduced) : t.IsReduced where
  numerator_ne_nil hn := h.numerator_ne_nil (by rw [map, hn]; rfl)
  numbers e he := by
    rw [← Expr.number?_bare]
    exact h.numbers e.bare (by rw [map, ← List.map_tail]; exact List.mem_map_of_mem he)
  divisors e he := by
    rw [← Expr.divisor?_bare]
    exact h.divisors e.bare (by rw [map, ← List.map_tail]; exact List.mem_map_of_mem he)
  number e he p hp := by
    obtain ⟨n, hn, hpos, hone⟩ := h.number e.bare (List.mem_map_of_mem he) p (by rw [Expr.number?_bare, hp])
    exact ⟨n, hn, hpos, fun h1 => by simpa [map] using hone h1⟩
  divisor e he q hq := h.divisor e.bare (List.mem_map_of_mem he) q (by rw [Expr.divisor?_bare, hq])
  coprime a ha b hb p q hp hq := h.coprime a.bare (List.mem_map_of_mem ha) b.bare (List.mem_map_of_mem hb) p q
    (by rw [Expr.number?_bare, hp]) (by rw [Expr.divisor?_bare, hq])
  signs e he := by
    rw [← Expr.sign_bare]
    refine h.signs e.bare ?_
    rw [map, ← List.map_tail, ← List.map_append]
    exact List.mem_map_of_mem he
  disjoint a ha b hb hn hab := by
    refine h.disjoint a.bare (List.mem_map_of_mem ha) b.bare (List.mem_map_of_mem hb) (by rw [Expr.number?_bare, hn]) ?_
    rw [Expr.bare_abs, Expr.bare_abs, hab]

theorem others_eq (t : Ratio Expr) : t.others = t.split.rest.map bare := by
  simp [others, split, Monomial.rest, map, Function.comp_def]

theorem others_bare (t : Ratio Expr) : (t.map bare).others = t.others := by
  simp [others, map, List.filter_map, Function.comp_def]

end Ratio

/-! ## Nodes that are left -/

namespace Expr

/-- A node that is left when neutral terms are dropped has a term. -/
theorem ne_nil_of_neutralStep {e : Expr} (h : (neutralStep e).bare = e.bare) : e.shape ≠ .sum [] := by
  obtain ⟨s, b, c⟩ := e
  rintro rfl
  simp [neutralStep, number, ofShape, Shape.map] at h

/-- The bare terms of a node that is left when it is reduced are collected. -/
theorem collect_of_reduceStep {e : Expr} (h : (reduceStep e).bare = e.bare) {ts : List (Ratio Expr)}
    (hts : e.shape = .sum ts) :
    Ratio.collect ((ts.map (Ratio.map bare)).map Ratio.reduce) = ts.map (Ratio.map bare) := by
  obtain ⟨s, b, c⟩ := e
  obtain rfl : b = .sum ts := hts
  have hterms : (Ratio.collect (ts.map Ratio.reduce)).map (Ratio.map bare) = ts.map (Ratio.map bare) := by
    simpa [reduceStep, Shape.map] using h
  have hreduce : (ts.map (Ratio.map bare)).map Ratio.reduce = (ts.map Ratio.reduce).map (Ratio.map bare) := by
    rw [List.map_map, List.map_map]
    exact List.map_congr_left fun t _ => Ratio.reduce_bare t
  rw [hreduce, Ratio.collect_bare, hterms]

/-- **A node that every step leaves is in canonical shape.** -/
theorem IsLeft.isCanonical {e : Expr} (h : e.IsLeft) : e.IsCanonical := by
  intro ts hts
  let us := ts.map (Ratio.map bare)
  have hcollect : Ratio.collect (us.map Ratio.reduce) = us := collect_of_reduceStep h.reduce hts
  let ms := Monomial.addAll ((us.map Ratio.reduce).map Ratio.split) []
  have hus : us = ms.map Monomial.toRatio := hcollect.symm
  have hzero : ∀ u ∈ us, isZeroTerm u = false := by
    intro u hu
    obtain ⟨t, ht, rfl⟩ := List.mem_map.mp hu
    rw [isZeroTerm_bare]
    exact not_isZeroTerm_of_neutralStep h.neutral hts t ht
  have hreduced : ∀ m ∈ ms, m.IsReduced ∧ m.coefficient ≠ 0 := by
    intro m hm
    obtain ⟨t, ht, hr⟩ := Ratio.rest_of_mem_collect hm
    obtain ⟨u, -, rfl⟩ := List.mem_map.mp ht
    refine ⟨(Monomial.isReduced_split_reduce u).congr hr, fun h0 => ?_⟩
    have hz := hzero m.toRatio (hus ▸ List.mem_map_of_mem hm)
    rw [Monomial.toRatio_of_eq_zero h0] at hz
    exact absurd hz (by decide)
  obtain ⟨hflat, hfactor⟩ := h.flat ts hts
  refine ⟨fun hnil => ne_nil_of_neutralStep h.neutral (hnil ▸ hts), hfactor, hflat, fun t ht => ?_, ?_⟩
  · have hu : t.map bare ∈ us := List.mem_map_of_mem ht
    rw [hus] at hu
    obtain ⟨m, hm, hmt⟩ := List.mem_map.mp hu
    obtain ⟨hr, h0⟩ := hreduced m hm
    exact Ratio.isReduced_of_bare (hmt ▸ Monomial.isReduced_toRatio hr h0)
  · -- terms that have the same factors come from monomials that are like each other
    have hpairwise : us.Pairwise fun t u => ¬t.IsLike u := by
      rw [hus, List.pairwise_map]
      refine (Monomial.unlike_addAll _ List.Pairwise.nil).imp_of_mem fun {m n} hm hn hmn => ?_
      rintro ⟨hnum, hden⟩
      obtain ⟨hrm, hm0⟩ := hreduced m hm
      obtain ⟨hrn, hn0⟩ := hreduced n hn
      simp only [Ratio.others_eq, Monomial.split_toRatio hrm hm0, Monomial.split_toRatio hrn hn0] at hnum hden
      rw [Monomial.isLike_of_perm hnum hden] at hmn
      cases hmn
    exact (List.pairwise_map.mp hpairwise).imp fun {t u} htu => by
      simpa only [Ratio.IsLike, Ratio.others_bare] using htu

end Expr

namespace Equation

/-- **Where normalising ends with success, every node is in canonical shape.** -/
theorem isCanonical_normalize {q r : Equation} {limit : Int} {rounds : Nat}
    (h : q.normalize usualPasses .bijective limit = (r, .ok rounds)) : ∀ e ∈ r.sides, e.Everywhere Expr.IsCanonical :=
  fun _ he => (Expr.everywhere_isLeft (tidy_of_mem (tidy_of_normalize h) he)).imp fun _ => Expr.IsLeft.isCanonical

/-- The equation `sin(0 - 4*x/6) + 1*y/0/2 = 0`. -/
def unreduced : Equation :=
  ⟨[.sum [.of (.call "sin" [.sum [.of (.number 0), (⟨[.number 4, .var "x"], [.number 6]⟩ : Ratio Expr).neg]]),
    ⟨[.number 1, .var "y"], [.number 0, .number 2]⟩], .number 0]⟩

theorem isCanonical_normalize_unreduced :
    (unreduced.normalize usualPasses .bijective 64).2 = .ok 2 ∧
      ∀ e ∈ (unreduced.normalize usualPasses .bijective 64).1.sides, e.Everywhere Expr.IsCanonical := by
  have h : (unreduced.normalize usualPasses .bijective 64).2 = .ok 2 := by cbv
  exact ⟨h, isCanonical_normalize (Prod.ext rfl h)⟩

end Equation

end Isolate
