import Isolate.Proofs.Meaning.Normalize
import Isolate.Proofs.Settling.Canonical
import Isolate.Proofs.Settling.Kinds

/-!
# Constants are folded

A tree is constant if it is built from numbers and sums alone (`Expr.IsConstant`), and rounds keep it so. In canonical
shape, such a tree is a number, or one fraction in lowest terms (`Expr.isFolded_of_isCanonical`): the factors of a sum
are then numbers, since a fraction would have been spliced; terms that consist of numbers are all like each other, so
there is one of them.

* `Equation.isFolded_normalize`: normalising folds every constant side to its value.
-/

namespace Isolate

variable {I : Interpretation} {v : Rat} {e a : Expr}

namespace Expr

/-- Built from numbers and sums alone. -/
def IsConstant (e : Expr) : Prop := e.Everywhere fun a => (∃ q, a.shape = .number q) ∨ ∃ ts, a.shape = .sum ts

/-- A number of the given value, or a sum of that value with one fraction of whole numbers, which is in lowest terms and
not whole itself. -/
inductive IsFolded (v : Rat) : Expr → Prop
  | number {s : Sign} {q : Rat} {c : Option Summary} (value : s.apply q = v) : IsFolded v ⟨s, .number q, c⟩
  | fraction {s t : Sign} {p q : Nat} {c cp cq : Option Summary} (pos : 0 < p) (not_whole : 2 ≤ q)
      (coprime : p.Coprime q) (value : s.apply (t.apply (p / q)) = v) :
      IsFolded v ⟨s, .sum [⟨[⟨t, .number p, cp⟩], [⟨.pos, .number q, cq⟩]⟩], c⟩

theorem isByKind_constant : IsByKind fun a => (∃ q, a.shape = .number q) ∨ ∃ ts, a.shape = .sum ts where
  number _ q _ := .inl ⟨q, rfl⟩
  sum _ ts _ := .inr ⟨ts, rfl⟩
  map_iff e g _ _ := by cases h : e.shape <;> simp [Shape.map]

theorem isConstant_number (s : Sign) (q : Rat) (c : Option Summary) : (⟨s, .number q, c⟩ : Expr).IsConstant :=
  isByKind_constant.isByShape.of_number rfl

theorem isConstant_sum {s : Sign} {ts : List (Ratio Expr)} {c : Option Summary} :
    (⟨s, .sum ts, c⟩ : Expr).IsConstant ↔ ∀ t ∈ ts, ∀ a ∈ t.factors, a.IsConstant := isByKind_constant.sum_iff

/-- A folded factor that cannot be spliced is a number. -/
theorem IsFolded.number?_ne_none (h : a.IsFolded v) (hflat : a.termCount? ≠ some 1) : a.number? ≠ none := by
  cases h with
  | number => exact Option.some_ne_none _
  | fraction => exact absurd rfl hflat

theorem mk_number {q : Rat} (h : a.number? = some q) : a = ⟨a.sign, .number q, a.summary⟩ := by
  obtain ⟨s, b, c⟩ := a
  cases b <;> simp_all [number?]

/-- A number that is no zero counts as a divisor. -/
theorem divisor?_ne_none (hn : a.number? ≠ none) (h0 : a.value I ≠ 0) : a.divisor? ≠ none := by
  obtain ⟨q, hq⟩ := Option.ne_none_iff_exists'.mp hn
  have hne : q ≠ 0 := by
    rintro rfl
    rw [value_eq_abs, value_of_number? hq, Ne, Sign.apply_eq_zero] at h0
    exact h0 rfl
  rw [divisor?, hq, Option.filter_some, if_pos (by simpa using hne)]
  exact Option.some_ne_none _

end Expr

/-! ## Terms of numbers -/

namespace Ratio

variable {t u : Ratio Expr}

/-- All factors are numbers, and the divisors are not zero. -/
structure IsNumeric (t : Ratio Expr) : Prop where
  number : ∀ e ∈ t.numerator, e.number? ≠ none
  divisor : ∀ e ∈ t.denominator, e.divisor? ≠ none

theorem IsNumeric.others_eq (h : t.IsNumeric) : t.others = ⟨[], []⟩ := by
  have hn : (t.numerator.filter fun e => e.number?.isNone) = [] :=
    List.filter_eq_nil_iff.mpr fun e he hnone => h.number e he (Option.isNone_iff_eq_none.mp hnone)
  have hd : (t.denominator.filter fun e => e.divisor?.isNone) = [] :=
    List.filter_eq_nil_iff.mpr fun e he hnone => h.divisor e he (Option.isNone_iff_eq_none.mp hnone)
  rw [others, hn, hd]
  rfl

/-- Terms of numbers are like each other. -/
theorem IsNumeric.isLike (ht : t.IsNumeric) (hu : u.IsNumeric) : t.IsLike u := by
  rw [IsLike, ht.others_eq, hu.others_eq]
  exact ⟨.refl _, .refl _⟩

/-- A list of which all but the head lack a property that all have is no longer than one. -/
theorem eq_nil_or_singleton {p : Expr → Option Rat} {es : List Expr} (h : ∀ e ∈ es, p e ≠ none)
    (htail : ∀ e ∈ es.tail, p e = none) : es = [] ∨ ∃ e, es = [e] := by
  match es with
  | [] => exact .inl rfl
  | [e] => exact .inr ⟨e, rfl⟩
  | e :: d :: ds => exact absurd (htail d List.mem_cons_self) (h d (by simp))

/-- A reduced term of numbers is a whole number or a fraction in lowest terms. -/
theorem IsReduced.numeric (h : t.IsReduced) (hn : t.IsNumeric) :
    (∃ e, t = ⟨[e], []⟩) ∨ ∃ (s : Sign) (p q : Nat) (c d : Option Summary), 0 < p ∧ 2 ≤ q ∧ p.Coprime q ∧
      t = ⟨[⟨s, .number p, c⟩], [⟨.pos, .number q, d⟩]⟩ := by
  obtain ⟨ns, ds⟩ := t
  obtain rfl | ⟨e, rfl⟩ := eq_nil_or_singleton hn.number h.numbers
  · exact absurd rfl h.numerator_ne_nil
  obtain rfl | ⟨d, rfl⟩ := eq_nil_or_singleton hn.divisor h.divisors
  · exact .inl ⟨e, rfl⟩
  obtain ⟨p', hp'⟩ := Option.ne_none_iff_exists'.mp (hn.number e List.mem_cons_self)
  obtain ⟨q', hq'⟩ := Option.ne_none_iff_exists'.mp (hn.divisor d List.mem_cons_self)
  obtain ⟨p, rfl, hpos, -⟩ := h.number e List.mem_cons_self p' hp'
  obtain ⟨q, rfl, htwo⟩ := h.divisor d List.mem_cons_self q' hq'
  have hcoprime := h.coprime e List.mem_cons_self d List.mem_cons_self p q hp' hq'
  have hsign : d.sign = .pos := h.signs d (List.mem_append_right _ List.mem_cons_self)
  refine .inr ⟨e.sign, p, q, e.summary, d.summary, hpos, htwo, hcoprime, ?_⟩
  rw [← hsign, ← Expr.mk_number hp', ← Expr.mk_number (Option.eq_some_of_filter_eq_some hq')]

end Ratio

/-! ## Constant trees in canonical shape -/

namespace Expr

theorem value_fraction (s t : Sign) (p q : Rat) (c cp cq : Option Summary) :
    (⟨s, .sum [⟨[⟨t, .number p, cp⟩], [⟨.pos, .number q, cq⟩]⟩], c⟩ : Expr).value I = s.apply (t.apply (p / q)) := by
  rw [value_sum]
  cases t <;> simp [Ratio.value_eq, value_mk, Shape.map, Interpretation.apply, Sign.apply, neg_div]

/-- **A constant in canonical shape is a number or a fraction in lowest terms**, and shows its value. -/
theorem isFolded_of_isCanonical (hc : e.Everywhere IsCanonical) (hk : e.IsConstant) (hd : e.IsDefined I) :
    e.IsFolded (e.value I) := by
  induction e using Expr.induction with
  | h e ih =>
    obtain ⟨hcanonical, hcbelow⟩ := everywhere_iff.mp hc
    obtain ⟨hkind, hkbelow⟩ := everywhere_iff.mp hk
    obtain ⟨s, b, c⟩ := e
    obtain ⟨q, rfl⟩ | ⟨ts, rfl⟩ : (∃ q, b = .number q) ∨ ∃ ts, b = .sum ts := hkind
    · exact .number (value_mk s (.number q) c).symm
    · have hts := hcanonical ts rfl
      have hdefined := isDefined_sum.mp hd
      -- the factors are folded, and fractions among them would have been spliced
      have hnumeric : ∀ t ∈ ts, t.IsNumeric := by
        intro t ht
        have hnumber : ∀ a ∈ t.factors, a.number? ≠ none := fun a ha =>
          have hmem : a ∈ children ⟨s, .sum ts, c⟩ := List.mem_flatMap.mpr ⟨t, ht, ha⟩
          (ih a hmem (hcbelow a hmem) (hkbelow a hmem) ((hdefined t ht).1 a ha)).number?_ne_none ((hts.flat t ht).1 a ha)
        exact ⟨fun a ha => hnumber a (List.mem_append_left _ ha),
          fun a ha => divisor?_ne_none (hnumber a (List.mem_append_right _ ha)) ((hdefined t ht).2 a ha)⟩
      -- terms of numbers are like each other, so there is one
      obtain ⟨t, rfl⟩ : ∃ t, ts = [t] := by
        match ts with
        | [] => exact absurd rfl hts.ne_nil
        | [t] => exact ⟨t, rfl⟩
        | t :: u :: us =>
          refine absurd ((hnumeric t (by simp)).isLike (hnumeric u (by simp))) ?_
          exact (List.pairwise_cons.mp hts.unlike).1 u List.mem_cons_self
      obtain ⟨a, rfl⟩ | ⟨s', p, q, cp, cq, hpos, htwo, hcoprime, rfl⟩ :=
        (hts.reduced t List.mem_cons_self).numeric (hnumeric t List.mem_cons_self)
      · exact absurd rfl (hts.not_factor a)
      · exact .fraction hpos htwo hcoprime (value_fraction ..).symm

end Expr

namespace Equation

/-- **Constant arithmetic is folded completely.** Where normalising ends with success, every side that was built from
numbers and sums alone, with no divisor zero, has become a number or a fraction in lowest terms of the same value. -/
theorem isFolded_normalize {q r : Equation} {limit : Int} {rounds : Nat}
    (h : q.normalize usualPasses .bijective limit = (r, .ok rounds)) :
    List.Forall₂ (fun e a => ∀ I, e.IsConstant → e.IsDefined I → a.IsFolded (e.value I)) q.sides r.sides := by
  refine (isNormalOf_normalize h).imp fun e a ha I hk hd => ?_
  have hcanonical := (Expr.everywhere_isLeft ha.1).imp fun _ => Expr.IsLeft.isCanonical
  have hconstant : a.IsConstant := ha.keeps (Expr.Everywhere.tidy Expr.isByKind_constant) hk
  obtain ⟨hdefined, hvalue⟩ : a.IsDefined I ∧ a.value I = e.value I := by
    refine ha.keeps (P := fun a => a.IsDefined I ∧ a.value I = e.value I) (fun {b} hb => ?_) ⟨hd, rfl⟩
    obtain ⟨hb', hv⟩ := Expr.keeps_tidy b hb.1
    exact ⟨hb', hv.trans hb.2⟩
  exact hvalue ▸ Expr.isFolded_of_isCanonical hcanonical hconstant hdefined

/-- The equation `-(1/2 - 3/4) / (5/(-6)) = 2*(1 - 1)/7`. -/
def constants : Equation :=
  ⟨[.div (Expr.neg (((Expr.number 1).div (.number 2)).sub ((Expr.number 3).div (.number 4))))
      ((Expr.number 5).div (Expr.neg (.number 6))),
    (Expr.mul (.number 2) ((Expr.number 1).sub (.number 1))).div (.number 7)]⟩

theorem isFolded_normalize_constants :
    (constants.normalize usualPasses .bijective 64).2 = .ok 3 ∧
      (∀ e ∈ constants.sides, e.IsConstant ∧ e.IsDefined allThree) ∧
        ∃ a b, (constants.normalize usualPasses .bijective 64).1.sides = [a, b] ∧ a.IsFolded (-3 / 10) ∧ b.IsFolded 0 := by
  have h : (constants.normalize usualPasses .bijective 64).2 = .ok 3 := by cbv
  have hconstant : ∀ e ∈ constants.sides, e.IsConstant := by
    simp [constants, Expr.div, Expr.sub, Expr.add, Expr.mul, Expr.sum, Expr.number, Expr.neg, Expr.ofShape,
      Expr.isConstant_sum, Expr.isConstant_number, Ratio.factors, Ratio.of]
  have hdefined : constants.IsDefined allThree := by
    simp [constants, IsDefined, Expr.div, Expr.sub, Expr.add, Expr.mul, Expr.sum, Expr.number, Expr.neg, Expr.ofShape,
      Expr.isDefined_sum, Ratio.isDefined_iff, Expr.isDefined_number, Expr.value_mk, Ratio.of,
      Interpretation.apply, Shape.map, Ratio.map, Ratio.quotient, Sign.apply, Sign.flip, allThree]
  have hvalues : constants.sides.map (Expr.value allThree) = [-3 / 10, 0] := by
    simp [constants, Expr.div, Expr.sub, Expr.add, Expr.mul, Expr.sum, Expr.number, Expr.neg, Expr.ofShape,
      Expr.value_mk, Ratio.of, Interpretation.apply, Shape.map, Ratio.map, Ratio.quotient, Sign.apply, Sign.flip]
    norm_num
  refine ⟨h, fun e he => ⟨hconstant e he, hdefined e he⟩, ?_⟩
  obtain ⟨a, as, ha, htail, hr⟩ := List.forall₂_cons_left_iff.mp (isFolded_normalize (q := constants) (Prod.ext rfl h))
  obtain ⟨b, bs, hb, hnil, rfl⟩ := List.forall₂_cons_left_iff.mp htail
  obtain rfl := List.forall₂_nil_left_iff.mp hnil
  obtain ⟨hva, hvb, -⟩ := List.cons.inj hvalues |>.imp id List.cons.inj
  refine ⟨a, b, hr, hva ▸ ha allThree (hconstant _ (by simp [constants])) (hdefined _ (by simp [constants])), ?_⟩
  exact hvb ▸ hb allThree (hconstant _ (by simp [constants])) (hdefined _ (by simp [constants]))

end Equation

end Isolate
