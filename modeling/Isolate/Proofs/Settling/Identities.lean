import Isolate.Proofs.Settling.Passes

/-!
# Neutral elements

Adding zero to a variable or a number, multiplying it by one or dividing it by one (`Expr.neutralForms`) all come to the
same: rounds leave it alone in the form that reducing gives it as a term (`Expr.alone`). A number that stands alone from
the start goes through no step, so it need not have that form.

* `Equation.normalize_neutralForms`: the neutral elements go, and what they leave is like the normal form of the variable
  or number just if it is a variable, or a whole number that is not negative and no zero with a minus.
-/

namespace Isolate

open Ratio (of)

namespace Expr

variable {x y a b e : Expr} {f g : Expr → Expr}

/-- A variable or a number. -/
def IsLeaf (x : Expr) : Prop := (∃ name, x.shape = .var name) ∨ ∃ v, x.shape = .number v

/-- The ways to write an expression with a neutral element. -/
def neutralForms (x : Expr) : List Expr := [x.add (.number 0), x.mul (.number 1), x.div (.number 1)]

/-- What neutral elements leave: the reduced term, taken out of its sum if it is just one factor. -/
def alone (x : Expr) : Expr :=
  match (of x).reduce with
  | ⟨[a], []⟩ => a
  | t => .sum [t]

/-! ## Trees of leaves -/

theorem IsLeaf.children_eq (h : x.IsLeaf) : x.children = [] := by
  rcases h with ⟨name, h⟩ | ⟨v, h⟩ <;> rw [children, h, Shape.children]

theorem IsLeaf.of_shape (h : a.IsLeaf) (hs : b.shape = a.shape) : b.IsLeaf := by
  rwa [IsLeaf, hs]

theorem isLeaf_number (s : Sign) (q : Rat) (c : Option Summary) : IsLeaf ⟨s, .number q, c⟩ := .inr ⟨q, rfl⟩

theorem IsLeaf.termCount? (h : x.IsLeaf) : x.termCount? = none := by
  rcases h with ⟨name, h⟩ | ⟨v, h⟩ <;> simp [Expr.termCount?, h]

theorem IsLeaf.everywhere_isCanonical (h : x.IsLeaf) : x.Everywhere IsCanonical := by
  refine everywhere_iff.mpr ⟨fun ts hts => ?_, fun a ha => ?_⟩
  · rcases h with ⟨name, h⟩ | ⟨v, h⟩ <;> rw [h] at hts <;> cases hts
  · rw [h.children_eq] at ha
    cases ha

theorem tidy_of_isCanonical (h : x.Everywhere IsCanonical) : x.tidy = x.analyze := by
  rw [← tidy_analyze, tidy_of_everywhere_isLeft (h.imp fun _ => IsCanonical.isLeft)]

theorem isFlat_of_leaves {t : Ratio Expr} (h : ∀ a ∈ t.factors, a.IsLeaf) : t.IsFlat := by
  refine ⟨fun a ha => by simp [(h a ha).termCount?], ?_⟩
  rintro a rfl
  exact (h a List.mem_cons_self).termCount?

theorem IsLeaf.bare_of_step (h : a.IsLeaf) (hg : IsBottomUp f g) (hf : IgnoresAnalysis f) (hstep : f a = a) :
    (g a).bare = a.bare := by
  rw [hg.bare_step hf (by rw [h.children_eq]; exact List.forall_mem_nil _), hstep]

theorem IsLeaf.steps (h : a.IsLeaf) : flattenStep a = a ∧ reduceStep a = a ∧ neutralStep a = a := by
  obtain ⟨s, b, c⟩ := a
  rcases h with ⟨name, h⟩ | ⟨v, h⟩ <;> obtain rfl := h <;> exact ⟨rfl, rfl, rfl⟩

/-- A round of a flat node with variables and numbers for operands reduces it and drops what is neutral. -/
theorem bare_tidy_of_leaves (hflat : e.IsFlat) (h : ∀ a ∈ e.children, a.IsLeaf) :
    e.tidy.bare = (neutralStep (reduceStep e)).bare := by
  have hf := isBottomUp_rebuildUp flattenStep
  have hr := isBottomUp_editUp reduceStep
  have hn := isBottomUp_rebuildUp neutralStep
  have hflatten : e.flatten.bare = e.bare :=
    (hf.bare_step ignoresAnalysis_flattenStep fun a ha =>
      (h a ha).bare_of_step hf ignoresAnalysis_flattenStep (h a ha).steps.1).trans (flattenStep_of_isFlat hflat)
  have hreduce : (e.flatten.editUp reduceStep .all).bare = (reduceStep e).bare :=
    ((hr.ignoresAnalysis ignoresAnalysis_reduceStep).congr hflatten).trans
      (hr.bare_step ignoresAnalysis_reduceStep fun a ha =>
        (h a ha).bare_of_step hr ignoresAnalysis_reduceStep (h a ha).steps.2.1)
  rw [bare_tidy, (hn.ignoresAnalysis ignoresAnalysis_neutralStep).congr hreduce]
  refine hn.bare_step ignoresAnalysis_neutralStep fun a ha => ?_
  have hleaf : a.IsLeaf := by
    rcases shape_of_mem_reduceStep ha with hq | ⟨b, hb, hab⟩
    · exact .inr hq
    · exact (h b hb).of_shape hab
  exact hleaf.bare_of_step hn ignoresAnalysis_neutralStep hleaf.steps.2.2

end Expr

/-! ## The terms of the neutral forms -/

namespace Ratio

variable {x : Expr}

/-- One changes neither coefficient nor factors, wherever it stands. -/
theorem split_mul_one (x : Expr) : (⟨[x, .number 1], []⟩ : Ratio Expr).split = (of x).split := by
  have hone : (Expr.number 1).number? = some 1 := rfl
  have hsign : (⟨[x, .number 1], []⟩ : Ratio Expr).sign = (of x).sign := by
    cases h : x.sign <;> simp [sign, of, factors, h] <;> rfl
  have hmagnitude : (⟨[x, .number 1], []⟩ : Ratio Expr).magnitude = (of x).magnitude := by
    cases h : x.number? <;> simp [magnitude_eq, of, h, hone]
  rw [split, split, hsign, hmagnitude]
  cases h : x.number? <;> simp [of, h, hone]

theorem split_div_one (x : Expr) : (⟨[x], [.number 1]⟩ : Ratio Expr).split = (of x).split := by
  have hone : (Expr.number 1).divisor? = some 1 := rfl
  have hsign : (⟨[x], [.number 1]⟩ : Ratio Expr).sign = (of x).sign := by
    cases h : x.sign <;> simp [sign, of, factors, h] <;> rfl
  have hmagnitude : (⟨[x], [.number 1]⟩ : Ratio Expr).magnitude = (of x).magnitude := by
    simp [magnitude_eq, of, List.filterMap_cons, hone]
  rw [split, split, hsign, hmagnitude]
  simp [of, List.filter_cons, hone]

theorem split_var (s : Sign) (name : String) (c : Option Summary) :
    (of (⟨s, .var name, c⟩ : Expr)).split = ⟨s.apply 1, [⟨.pos, .var name, c⟩], []⟩ := by
  cases s <;> simp [split, of, sign, factors, magnitude, List.filterMap_cons, Expr.number?, Expr.abs]

theorem split_number (s : Sign) (v : Rat) (c : Option Summary) :
    (of (⟨s, .number v, c⟩ : Expr)).split = ⟨s.apply v, [], []⟩ := by
  cases s <;> simp [split, of, sign, factors, magnitude, Expr.number?]

/-- A variable is its own reduced term. -/
theorem reduce_var (s : Sign) (name : String) (c : Option Summary) :
    (of (⟨s, .var name, c⟩ : Expr)).reduce = of ⟨s, .var name, c⟩ := by
  rw [reduce, split_var]
  cases s <;> simp [Monomial.reduce, cancel, Monomial.toRatio, Sign.apply, Monomial.negateFirst, of]

/-- A number is written as its value. -/
theorem reduce_number (s : Sign) (v : Rat) (c : Option Summary) :
    (of (⟨s, .number v, c⟩ : Expr)).reduce = (⟨s.apply v, [], []⟩ : Monomial).toRatio := by
  rw [reduce, split_number]
  rfl

/-- The value of a number without other factors, as it is written. -/
theorem toRatio_value (w : Rat) : (⟨w, [], []⟩ : Monomial).toRatio =
    ⟨[⟨if w < 0 then .neg else .pos, .number (w.num.natAbs : Int), none⟩],
      if w.den = 1 then [] else [.number (w.den : Int)]⟩ := by
  by_cases h0 : w = 0
  · subst h0
    rfl
  · rw [Monomial.toRatio_of_ne_zero h0]
    by_cases hneg : w < 0 <;> by_cases hden : w.den = 1 <;>
      simp [Monomial.above, Monomial.below, Monomial.negateFirst, hneg, hden, Expr.number, Expr.ofShape]

theorem isReduced_value (w : Rat) : (⟨w, [], []⟩ : Monomial).IsReduced :=
  ⟨by simp [Monomial.IsUnsigned, Monomial.rest, factors], by simp, by simp, rfl⟩

theorem split_toRatio_value (w : Rat) : (⟨w, [], []⟩ : Monomial).toRatio.split = ⟨w, [], []⟩ := by
  by_cases h0 : w = 0
  · subst h0
    exact split_number .pos 0 none
  · exact Monomial.split_toRatio (isReduced_value w) h0

/-- A term that is collected alone is left. -/
theorem collect_reduce (t : Ratio Expr) : collect [t.reduce] = [t.reduce] := by
  have hred := Monomial.isReduced_reduce t
  show [t.reduce.split.toRatio] = _
  by_cases h0 : t.split.reduce.coefficient = 0
  · rw [reduce, Monomial.toRatio_of_eq_zero h0, ← of, Expr.number, Expr.ofShape, split_number]
    rfl
  · rw [reduce, Monomial.split_toRatio hred h0]

end Ratio

namespace Expr

variable {x y a : Expr}

/-- A zero beside a variable or a number is added to the number, or dropped. -/
theorem neutralStep_collect_zero (h : x.IsLeaf) :
    neutralStep (.sum (Ratio.collect [(of x).reduce, (of (.number 0)).reduce])) = neutralStep (.sum [(of x).reduce]) := by
  obtain ⟨t, b, k⟩ := x
  have hzero : (of (number 0)).reduce = (⟨0, [], []⟩ : Monomial).toRatio := Ratio.reduce_number .pos 0 none
  obtain ⟨name, hb⟩ | ⟨v, hb⟩ := h <;> obtain rfl := hb
  · have hunlike : (⟨t.apply 1, [⟨.pos, .var name, k⟩], []⟩ : Monomial).isLike ⟨0, [], []⟩ = false := by
      simp [Monomial.isLike, Monomial.sortFactors]
    have hterms : Ratio.collect [of ⟨t, .var name, k⟩, (⟨0, [], []⟩ : Monomial).toRatio] =
        [(of ⟨t, .var name, k⟩).reduce, ⟨[number 0], []⟩] := by
      rw [Ratio.collect_eq, List.map_cons, List.map_singleton, Ratio.split_var, Ratio.split_toRatio_value, Ratio.reduce,
        Ratio.split_var]
      simp only [Monomial.addAll, List.foldl_cons, List.foldl_nil, Monomial.addTo, hunlike]
      rfl
    rw [hzero, Ratio.reduce_var, hterms, Ratio.reduce_var]
    simp [neutralStep, sum, ofShape, isZeroTerm, of, number?, number]
  · have hlike : (⟨t.apply v, [], []⟩ : Monomial).isLike ⟨0, [], []⟩ = true := by
      simp [Monomial.isLike, Monomial.sortFactors]
    rw [Ratio.reduce_number, hzero, Ratio.collect_eq, List.map_cons, List.map_singleton, Ratio.split_toRatio_value,
      Ratio.split_toRatio_value]
    simp [Monomial.addAll, Monomial.addTo, hlike]

/-- Reduced and rid of what is neutral, all neutral forms come to the same. -/
theorem neutralStep_neutralForm (h : x.IsLeaf) (hy : y ∈ x.neutralForms) :
    neutralStep (reduceStep y) = neutralStep (.sum [(of x).reduce]) := by
  simp only [neutralForms, List.mem_cons, List.not_mem_nil, or_false] at hy
  obtain rfl | rfl | rfl := hy
  · exact neutralStep_collect_zero h
  · have hterms : Ratio.collect [Ratio.reduce ⟨[x, number 1], []⟩] = [(of x).reduce] := by
      rw [show Ratio.reduce ⟨[x, number 1], []⟩ = (of x).reduce by rw [Ratio.reduce, Ratio.split_mul_one]; rfl,
        Ratio.collect_reduce]
    exact congrArg (fun ts => neutralStep (.sum ts)) hterms
  · have hterms : Ratio.collect [Ratio.reduce ⟨[x], [number 1]⟩] = [(of x).reduce] := by
      rw [show Ratio.reduce ⟨[x], [number 1]⟩ = (of x).reduce by rw [Ratio.reduce, Ratio.split_div_one]; rfl,
        Ratio.collect_reduce]
    exact congrArg (fun ts => neutralStep (.sum ts)) hterms

/-! ## What is left -/

/-- One reduced term of variables and numbers, if it is not just a factor, makes a sum in canonical shape. -/
theorem everywhere_isCanonical_sum {t : Ratio Expr} (h : t.IsReduced) (hleaves : ∀ a ∈ t.factors, a.IsLeaf)
    (hne : ∀ a, t ≠ ⟨[a], []⟩) : (sum [t]).Everywhere IsCanonical := by
  refine everywhere_iff.mpr ⟨?_, fun a ha => ?_⟩
  · rintro ts ⟨⟩
    refine ⟨List.cons_ne_nil _ _, fun a ha => hne a (List.cons.inj ha).1, ?_, ?_, List.pairwise_singleton ..⟩
    · exact List.forall_mem_singleton.mpr (isFlat_of_leaves hleaves)
    · exact List.forall_mem_singleton.mpr h
  · exact (hleaves a (by simpa [children, Shape.children, sum, ofShape] using ha)).everywhere_isCanonical

/-- What is left is a variable or a number, zero with a plus at most, or a fraction in lowest terms. -/
theorem alone_cases (h : x.IsLeaf) :
    (x.alone.IsLeaf ∧ (of x).reduce = of x.alone ∧ (isZeroTerm (of x.alone) = true → x.alone = .number 0)) ∨
      ∃ t, (of x).reduce = t ∧ x.alone = .sum [t] ∧ (sum [t]).Everywhere IsCanonical := by
  obtain ⟨s, b, c⟩ := x
  obtain ⟨name, hb⟩ | ⟨v, hb⟩ := h <;> obtain rfl := hb
  · have hreduce := Ratio.reduce_var s name c
    have halone : alone ⟨s, .var name, c⟩ = ⟨s, .var name, c⟩ := by rw [alone, hreduce]; rfl
    rw [halone]
    exact .inl ⟨.inl ⟨name, rfl⟩, hreduce, fun hzero => by simp [isZeroTerm, of, number?] at hzero⟩
  · have hreduce := (Ratio.reduce_number s v c).trans (Ratio.toRatio_value _)
    by_cases hden : (s.apply v).den = 1
    · rw [if_pos hden] at hreduce
      have halone : alone ⟨s, .number v, c⟩ =
          ⟨if s.apply v < 0 then .neg else .pos, .number ((s.apply v).num.natAbs : Int), none⟩ := by rw [alone, hreduce]
      rw [halone]
      refine .inl ⟨isLeaf_number .., hreduce, fun hzero => ?_⟩
      have hvalue : s.apply v = 0 := by simpa [isZeroTerm, of, number?] using hzero
      rw [hvalue]
      rfl
    · have h0 : s.apply v ≠ 0 := fun h0 => hden (by rw [h0]; rfl)
      have hreduced := Monomial.isReduced_toRatio (Ratio.isReduced_value (s.apply v)) h0
      rw [Ratio.toRatio_value, if_neg hden] at hreduced
      rw [if_neg hden] at hreduce
      refine .inr ⟨_, hreduce, by rw [alone, hreduce], everywhere_isCanonical_sum hreduced ?_ fun a ha => ?_⟩
      · simp [Ratio.factors, isLeaf_number, number, ofShape]
      · simp at ha

/-- The neutral forms of a variable or a number are flat. -/
theorem isFlat_neutralForm (h : x.IsLeaf) (hy : y ∈ x.neutralForms) : y.IsFlat ∧ ∀ a ∈ y.children, a.IsLeaf := by
  have hterms : ∃ ts, y = .sum ts ∧ (∀ t ∈ ts, ∀ a ∈ t.factors, a.IsLeaf) ∧ ∀ a, ts ≠ [⟨[a], []⟩] := by
    simp only [neutralForms, List.mem_cons, List.not_mem_nil, or_false] at hy
    obtain rfl | rfl | rfl := hy <;> exact ⟨_, rfl, by simp [of, Ratio.factors, h, isLeaf_number, number, ofShape], by simp⟩
  obtain ⟨ts, rfl, hleaves, hne⟩ := hterms
  refine ⟨?_, fun a ha => ?_⟩
  · rintro us ⟨⟩
    exact ⟨fun t ht => isFlat_of_leaves (hleaves t ht), hne⟩
  · obtain ⟨t, ht, ha⟩ := List.mem_flatMap.mp ha
    exact hleaves t ht a ha

/-- A sum that is just a variable or a number is that, after a round. -/
theorem tidy_sum_of (h : a.IsLeaf) : (sum [of a]).tidy = a.analyze := by
  have hflatten : (sum [of a]).flatten.bare = a.flatten.bare := by
    have hself : a.flatten.bare = a.bare :=
      h.bare_of_step (isBottomUp_rebuildUp flattenStep) ignoresAnalysis_flattenStep h.steps.1
    have hleaf : (sum [of a]).flatten.bare = (flattenStep (sum [of a])).bare :=
      (isBottomUp_rebuildUp flattenStep).bare_step ignoresAnalysis_flattenStep fun b hb => by
        obtain rfl : b = a := by simpa [children, Shape.children, sum, ofShape, Ratio.factors, of] using hb
        exact hself
    have hsplice : [of a].flatMap Ratio.spliceTerm = [of a] :=
      Ratio.flatMap_spliceTerm_of_isFlat (List.forall_mem_singleton.mpr (isFlat_of_leaves (List.forall_mem_singleton.mpr h)))
    have hstep : flattenStep (sum [of a]) = ⟨a.sign * .pos, a.shape, none⟩ := by
      simp only [flattenStep, sum, ofShape, hsplice]
      rfl
    rw [hleaf, hself, hstep, bare_mk, bare_eq a, Sign.mul_comm, Sign.pos_mul]
  rw [tidy, analyze_congr hflatten, ← tidy, tidy_of_isCanonical h.everywhere_isCanonical]

/-- **After two rounds, neutral elements are gone.** -/
theorem tidy_tidy_neutralForm (h : x.IsLeaf) (hy : y ∈ x.neutralForms) : y.tidy.tidy = x.alone.analyze := by
  obtain ⟨hflat, hleaves⟩ := isFlat_neutralForm h hy
  have hround := bare_tidy_of_leaves hflat hleaves
  rw [neutralStep_neutralForm h hy] at hround
  obtain ⟨ha, hreduce, hnumber⟩ | ⟨t, hreduce, halone, ht⟩ := alone_cases h
  · rw [hreduce] at hround
    by_cases hzero : isZeroTerm (of x.alone) = true
    · have hleft : neutralStep (sum [of x.alone]) = x.alone := by
        simp only [neutralStep, sum, ofShape, List.filter_cons, hzero]
        exact (hnumber hzero).symm
      rw [tidy_congr (hround.trans (congrArg bare hleft)), tidy_of_isCanonical ha.everywhere_isCanonical]
    · have hleft : neutralStep (sum [of x.alone]) = sum [of x.alone] := by
        simp only [neutralStep, sum, ofShape, List.filter_cons, hzero]
        rfl
      rw [tidy_congr (hround.trans (congrArg bare hleft)), tidy_sum_of ha]
  · rw [hreduce] at hround
    have hleft := ((everywhere_iff.mp ht).1.isLeft).neutral
    rw [tidy_congr (hround.trans hleft), tidy_of_isCanonical ht, halone]

theorem tidy_alone (h : x.IsLeaf) : x.alone.tidy = x.alone.analyze := by
  obtain ⟨ha, -⟩ | ⟨t, -, halone, ht⟩ := alone_cases h
  · exact tidy_of_isCanonical ha.everywhere_isCanonical
  · rw [halone, tidy_of_isCanonical ht]

end Expr

namespace Equation

variable {x y : Expr} {limit limit' : Int}

/-- Only that number matches a number, and nothing is observed. -/
theorem run_matcher_number {mode : MatchMode} {a b : Expr} {w : Rat} (hb : b.shape = .number w) (names : Names) :
    (a.matcher mode b).run names = (decide (a.sign = b.sign ∧ a.number? = some w), names) := by
  obtain ⟨s, b', c⟩ := a
  rw [Expr.matcher_eq]
  simp only [hb]
  by_cases hs : s = b.sign
  · rw [if_pos hs]
    cases b' with
    | number v =>
      show (decide (v = w), names) = _
      simp [hs, Expr.number?]
    | _ =>
      show (false, names) = _
      simp [Expr.number?]
  · rw [if_neg hs]
    show (false, names) = _
    simp [hs]

theorem number?_arrange_analyze (a : Expr) : a.analyze.arrange.number? = a.number? := by
  rw [Expr.arrange_eq, Expr.analyze_eq]
  obtain ⟨s, b, c⟩ := a
  cases b <;> rfl

/-- Something is like a number just if it is that number. -/
theorem isLike_number_iff {a : Expr} {t : Sign} {w : Rat} {c : Option Summary} :
    isLike .bijective ⟨[a.analyze]⟩ ⟨[(⟨t, .number w, c⟩ : Expr).analyze]⟩ = true ↔ a.sign = t ∧ a.number? = some w := by
  have hnumber : (⟨t, .number w, c⟩ : Expr).analyze.arrange.shape = .number w := by
    rw [Expr.arrange_eq, Expr.analyze_eq]
    rfl
  have hrun : ∀ names, (a.analyze.arrange.matcher .bijective (⟨t, .number w, c⟩ : Expr).analyze.arrange).run names = _ :=
    run_matcher_number hnumber
  have hsign : a.analyze.arrange.sign = a.sign := by rw [Expr.arrange_eq, Expr.analyze_eq]
  have hsign' : (⟨t, .number w, c⟩ : Expr).analyze.arrange.sign = t := by rw [Expr.arrange_eq, Expr.analyze_eq]
  rw [hsign, hsign', number?_arrange_analyze] at hrun
  rw [isLike_iff]
  simp only [Comparable.sides, Matcher.run_bind, hrun]
  by_cases hmatch : a.sign = t ∧ a.number? = some w
  · rw [decide_eq_true hmatch]
    exact iff_of_true ⟨rfl, rfl, rfl⟩ hmatch
  · rw [decide_eq_false hmatch]
    exact iff_of_false (fun h => by cases h.2.1) hmatch

/-- A value is written with the sign and the number given just if the number is whole, not negative, and no zero with a
minus. -/
theorem written_iff {s : Sign} {v : Rat} (hden : (s.apply v).den = 1) :
    ((if s.apply v < 0 then Sign.neg else .pos) = s ∧ (((s.apply v).num.natAbs : Int) : Rat) = v) ↔
      (∃ n : Nat, v = n) ∧ (v = 0 → s = .pos) := by
  obtain ⟨z, hz⟩ : ∃ z : Int, s.apply v = z := ⟨_, ((Rat.den_eq_one_iff _).mp hden).symm⟩
  have hv : v = s.apply z := by rw [← hz]; cases s <;> simp [Sign.apply]
  simp only [hz, Rat.num_intCast, Int.cast_lt_zero]
  rw [hv]
  have hwhole : ∀ u : Int, (∃ n : Nat, (u : Rat) = n) ↔ 0 ≤ u := by
    intro u
    constructor
    · rintro ⟨n, hn⟩
      rw [show u = n by exact_mod_cast hn]
      exact Int.natCast_nonneg n
    · intro hu
      exact ⟨u.toNat, by exact_mod_cast (Int.toNat_of_nonneg hu).symm⟩
  cases s with
  | pos =>
    rw [Sign.apply, hwhole]
    by_cases hneg : z < 0
    · simp [hneg]
    · simp [hneg, not_lt.mp hneg]
  | neg =>
    rw [Sign.apply, ← Int.cast_neg, hwhole]
    by_cases hneg : z < 0
    · simp [hneg, hneg.le, hneg.ne, abs_of_neg]
    · simp [hneg]
      omega

/-- What neutral elements leave is like the variable or number itself just if that is written so already. -/
theorem isLike_alone_iff (h : x.IsLeaf) : isLike .bijective ⟨[x.alone.analyze]⟩ ⟨[x.analyze]⟩ = true ↔
    ∀ v, x.shape = .number v → (∃ n : Nat, v = n) ∧ (v = 0 → x.sign = .pos) := by
  obtain ⟨s, b, c⟩ := x
  obtain ⟨name, hb⟩ | ⟨v, hb⟩ := h <;> obtain rfl := hb
  · have halone : Expr.alone ⟨s, .var name, c⟩ = ⟨s, .var name, c⟩ := by rw [Expr.alone, Ratio.reduce_var]; rfl
    rw [halone, isLike_self]
    exact iff_of_true rfl fun v hv => by cases hv
  · rw [isLike_number_iff, Expr.alone, Ratio.reduce_number, Ratio.toRatio_value]
    have hshape : (∀ v', (Shape.number v : Shape Expr) = .number v' → (∃ n : Nat, v' = n) ∧ (v' = 0 → s = .pos)) ↔
        (∃ n : Nat, v = n) ∧ (v = 0 → s = .pos) := by simp
    refine Iff.trans ?_ hshape.symm
    by_cases hden : (s.apply v).den = 1
    · rw [← written_iff hden]
      simp [hden, Expr.number?]
    · simp only [hden, if_false]
      refine iff_of_false (fun h => by cases h.2) fun h => hden ?_
      obtain ⟨n, rfl⟩ := h.1
      cases s <;> simp [Sign.apply]

/-- **Neutral elements disappear.** Normalising a sum of a variable or a number with zero, its product with one and its
quotient by one ends with the same equation. It is like the normal form of the variable or number itself just if that is a
variable, or a whole number that is not negative and no zero with a minus: a number that stands alone is not brought into
the form that other numbers end in. -/
theorem normalize_neutralForms (h : x.IsLeaf) (hlimit : 3 ≤ limit) (hlimit' : 1 ≤ limit') :
    ∃ r r' : Equation,
      (∀ y ∈ x.neutralForms, ∃ n, (⟨[y]⟩ : Equation).normalize usualPasses .bijective limit = (r, .ok n)) ∧
        (∃ n, (⟨[x]⟩ : Equation).normalize usualPasses .bijective limit' = (r', .ok n)) ∧
          (isLike .bijective r r' = true ↔
            ∀ v, x.shape = .number v → (∃ n : Nat, v = n) ∧ (v = 0 → x.sign = .pos)) := by
  refine ⟨⟨[x.alone.analyze]⟩, ⟨[x.analyze]⟩, fun y hy => ?_, ?_, isLike_alone_iff h⟩
  · have hrounds : (⟨[y]⟩ : Equation).afterRounds 2 = ⟨[x.alone.analyze]⟩ := by
      rw [← iterate_tidy_analyze]
      show (⟨[y.analyze.tidy.tidy]⟩ : Equation) = _
      rw [Expr.tidy_analyze, Expr.tidy_tidy_neutralForm h hy]
    rw [← hrounds]
    refine normalize_of_afterRounds ?_ (by omega)
    rw [hrounds]
    show (⟨[x.alone.analyze.tidy]⟩ : Equation) = _
    rw [Expr.tidy_analyze, Expr.tidy_alone h]
  · refine normalize_of_afterRounds (n := 0) ?_ (by omega)
    show (⟨[x.analyze.tidy]⟩ : Equation) = ⟨[x.analyze]⟩
    rw [Expr.tidy_analyze, Expr.tidy_of_isCanonical h.everywhere_isCanonical]

/-- The number `-3`, as three with a minus in front. -/
def negatedThree : Expr := (Expr.number 3).neg

theorem normalize_neutralForms_negatedThree : negatedThree.IsLeaf ∧
    ∃ r r' : Equation,
      (∀ y ∈ negatedThree.neutralForms, ∃ n, (⟨[y]⟩ : Equation).normalize usualPasses .bijective 64 = (r, .ok n)) ∧
        (∃ n, (⟨[negatedThree]⟩ : Equation).normalize usualPasses .bijective 64 = (r', .ok n)) ∧
          isLike .bijective r r' = true := by
  have hleaf : negatedThree.IsLeaf := .inr ⟨3, rfl⟩
  obtain ⟨r, r', hforms, hself, hlike⟩ :=
    normalize_neutralForms hleaf (show (3 : Int) ≤ 64 by decide) (show (1 : Int) ≤ 64 by decide)
  refine ⟨hleaf, r, r', hforms, hself, hlike.mpr fun v hv => ?_⟩
  obtain rfl : 3 = v := by simpa [negatedThree, Expr.neg, Expr.number, Expr.ofShape] using hv
  exact ⟨⟨3, rfl⟩, fun h => by norm_num at h⟩

/-- One half is left as it is when it stands alone, but `1/2 + 0` becomes a quotient of one by two. -/
theorem normalize_half_unlike :
    ((⟨[(Expr.number (1 / 2)).add (.number 0)]⟩ : Equation).normalize usualPasses .bijective 64).2 = .ok 2 ∧
      ((⟨[.number (1 / 2)]⟩ : Equation).normalize usualPasses .bijective 64).2 = .ok 1 ∧
        isLike .bijective
          ((⟨[(Expr.number (1 / 2)).add (.number 0)]⟩ : Equation).normalize usualPasses .bijective 64).1
          ((⟨[.number (1 / 2)]⟩ : Equation).normalize usualPasses .bijective 64).1 = false := by
  refine ⟨by cbv, by cbv, by cbv⟩

end Equation

end Isolate
