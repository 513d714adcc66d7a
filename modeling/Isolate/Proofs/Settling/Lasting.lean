import Isolate.Proofs.Settling.Canonical

/-!
# Canonical trees are left

The canonical shape is all that rounds bring about: a reduced ratio is how the monomial that is split off it is written
(`Ratio.IsReduced.reduce_bare`), and collecting leaves terms that are unlike each other (`Expr.AreCanonical.collect_reduce`), so
no step changes a node in canonical shape (`Expr.isLeft_iff_isCanonical`).

* `Expr.tidy_eq_self_iff`: a round leaves an analysed tree just if all of its nodes are in canonical shape.
* `Ratio.IsReduced.neg` and `Ratio.IsReduced.filter`: what else is reduced.
-/

namespace Isolate

namespace Ratio

variable {t : Ratio Expr}

namespace IsReduced

/-! ## The numbers of a reduced ratio -/

theorem abs_bare_of_number {e : Expr} {q : Rat} (h : e.number? = some q) : e.abs.bare = .number q := by
  obtain ⟨s, b, c⟩ := e
  unfold Expr.number? at h
  split at h
  · rename_i v hb
    obtain rfl : b = .number v := hb
    obtain rfl := Option.some.inj h
    rfl
  · cases h

/-- The numbers above the bar, and how they are written with the other factors there. -/
theorem exists_numbers (h : t.IsReduced) : ∃ n : Nat, 0 < n ∧ product (t.numerator.filterMap Expr.number?) = n ∧
    (n ≠ 1 → ∃ a ∈ t.numerator, a.number? = some (n : Rat)) ∧
    ((if n ≠ 1 ∨ t.split.numerator.isEmpty then [Expr.number (n : Int)] else []) ++ t.split.numerator).map Expr.bare =
      t.numerator.map fun e => e.abs.bare := by
  obtain ⟨ns, ds⟩ := t
  obtain ⟨a, as, rfl⟩ := List.exists_cons_of_ne_nil h.numerator_ne_nil
  have hnone : ∀ e ∈ as, e.number? = none := h.numbers
  have hothers : (as.filter fun e => e.number?.isNone) = as :=
    List.filter_eq_self.mpr fun e he => by rw [hnone e he]; rfl
  have hvalues : as.filterMap Expr.number? = [] := List.filterMap_eq_nil_iff.mpr hnone
  have hsplit : (⟨a :: as, ds⟩ : Ratio Expr).split.numerator =
      ((a :: as).filter fun e => e.number?.isNone).map Expr.abs := rfl
  rw [hsplit, List.filterMap_cons, List.filter_cons, hothers, hvalues]
  cases hnumber : a.number? with
  | some q =>
    obtain ⟨n, rfl, hpos, hone⟩ := h.number a List.mem_cons_self q hnumber
    have hwritten : ¬n = 1 ∨ as = [] := by
      by_cases h1 : n = 1
      · exact .inr (by simpa using hone h1)
      · exact .inl h1
    refine ⟨n, hpos, by simp, fun _ => ⟨a, List.mem_cons_self, hnumber⟩, ?_⟩
    simp [hwritten, abs_bare_of_number hnumber, Function.comp_def]
  | none => exact ⟨1, Nat.one_pos, by simp, fun hne => absurd rfl hne, by simp⟩

/-- The divisors below the bar, and how they are written with the other factors there. -/
theorem exists_divisors (h : t.IsReduced) : ∃ n : Nat, 0 < n ∧ product (t.denominator.filterMap Expr.divisor?) = n ∧
    (n ≠ 1 → ∃ b ∈ t.denominator, b.divisor? = some (n : Rat)) ∧
    ((if n ≠ 1 then [Expr.number (n : Int)] else []) ++ t.split.denominator).map Expr.bare =
      t.denominator.map fun e => e.abs.bare := by
  obtain ⟨ns, ds⟩ := t
  cases ds with
  | nil => exact ⟨1, Nat.one_pos, by simp, fun hne => absurd rfl hne, by simp [split]⟩
  | cons b bs =>
    have hnone : ∀ e ∈ bs, e.divisor? = none := h.divisors
    have hothers : (bs.filter fun e => e.divisor?.isNone) = bs :=
      List.filter_eq_self.mpr fun e he => by rw [hnone e he]; rfl
    have hvalues : bs.filterMap Expr.divisor? = [] := List.filterMap_eq_nil_iff.mpr hnone
    have hsplit : (⟨ns, b :: bs⟩ : Ratio Expr).split.denominator =
        ((b :: bs).filter fun e => e.divisor?.isNone).map Expr.abs := rfl
    rw [hsplit, List.filterMap_cons, List.filter_cons, hothers, hvalues]
    cases hdivisor : b.divisor? with
    | some q =>
      obtain ⟨n, rfl, htwo⟩ := h.divisor b List.mem_cons_self q hdivisor
      have hne : n ≠ 1 := by omega
      refine ⟨n, by omega, by simp, fun _ => ⟨b, List.mem_cons_self, hdivisor⟩, ?_⟩
      simp [hne, abs_bare_of_number (Option.eq_some_of_filter_eq_some hdivisor)]
    | none => exact ⟨1, Nat.one_pos, by simp, fun hne => absurd rfl hne, by simp⟩

/-! ## Reducing what is reduced -/

theorem sign_eq (h : t.IsReduced) {a : Expr} {as : List Expr} (hcons : t.numerator = a :: as) : t.sign = a.sign := by
  have hsigns : (∀ e ∈ as, e.sign = .pos) ∧ ∀ e ∈ t.denominator, e.sign = .pos := by
    have hall := h.signs
    rw [hcons, List.tail_cons] at hall
    exact List.forall_mem_append.mp hall
  rw [Ratio.sign_eq, hcons, signOf_cons, signOf_eq_pos hsigns.1, signOf_eq_pos hsigns.2]
  cases a.sign <;> rfl

/-- Nothing is cancelled. -/
theorem isReduced_split (h : t.IsReduced) : t.split.IsReduced where
  unsigned := t.isUnsigned_split
  numbers e he := by
    obtain ⟨a, ha, rfl⟩ := List.mem_map.mp he
    exact Option.isNone_iff_eq_none.mp (List.mem_filter.mp ha).2
  divisors e he := by
    obtain ⟨a, ha, rfl⟩ := List.mem_map.mp he
    exact Option.isNone_iff_eq_none.mp (List.mem_filter.mp ha).2
  cancelled := by
    refine cancel_eq_self fun d hd => Bool.eq_false_iff.mpr fun hcontains => ?_
    obtain ⟨e, he, hde⟩ := List.contains_iff_exists_mem_beq.mp hcontains
    obtain ⟨b, hb, rfl⟩ := List.mem_map.mp hd
    obtain ⟨a, ha, rfl⟩ := List.mem_map.mp he
    obtain ⟨ha, hnumber⟩ := List.mem_filter.mp ha
    exact h.disjoint a ha b (List.mem_filter.mp hb).1 (Option.isNone_iff_eq_none.mp hnumber)
      ((Expr.beq_iff _ _).mp hde).symm

/-- The coefficient of a reduced ratio in lowest terms, and how the ratio is written with it. -/
theorem above_below (h : t.IsReduced) : t.split.coefficient ≠ 0 ∧ (t.split.coefficient < 0 ↔ t.sign = .neg) ∧
    t.split.above.map Expr.bare = (t.numerator.map fun e => e.abs.bare) ∧
      t.split.below.map Expr.bare = t.denominator.map fun e => e.abs.bare := by
  obtain ⟨n, hn, hnumbers, hfirst, habove⟩ := h.exists_numbers
  obtain ⟨m, hm, hdivisors, hfirst', hbelow⟩ := h.exists_divisors
  have hcoprime : n.Coprime m := by
    by_cases hn1 : n = 1
    · rw [hn1]
      exact Nat.coprime_one_left m
    by_cases hm1 : m = 1
    · rw [hm1]
      exact Nat.coprime_one_right n
    obtain ⟨a, ha, hna⟩ := hfirst hn1
    obtain ⟨b, hb, hmb⟩ := hfirst' hm1
    exact h.coprime a ha b hb n m hna hmb
  have hcoefficient : t.split.coefficient = t.sign.apply ((n : Int) / (m : Int)) := by
    rw [split, magnitude_eq, hnumbers, hdivisors]
    simp
  have hnum : t.split.coefficient.num.natAbs = n := by
    rw [hcoefficient, Sign.natAbs_num_apply, Rat.num_div_eq_of_coprime (by omega) (by simpa using hcoprime)]
    simp
  have hden : t.split.coefficient.den = m := by
    have hd := Rat.den_div_eq_of_coprime (a := n) (b := m) (by omega) (by simpa using hcoprime)
    rw [hcoefficient, Sign.den_apply]
    exact Int.ofNat_inj.mp hd
  have hpos : (0 : Rat) < (n : Int) / (m : Int) := by positivity
  refine ⟨fun h0 => ?_, ?_, ?_, ?_⟩
  · rw [h0] at hnum
    simp at hnum
    omega
  · rw [hcoefficient]
    cases t.sign with
    | pos => exact iff_of_false (not_lt.mpr hpos.le) Sign.noConfusion
    | neg => exact iff_of_true (neg_lt_zero.mpr hpos) rfl
  · rw [Monomial.above, hnum]
    exact habove
  · rw [Monomial.below, hden]
    exact hbelow

/-- **A reduced ratio is how the monomial that is split off it is written**, analyses apart. -/
theorem toRatio_split (h : t.IsReduced) : t.split.toRatio.map Expr.bare = t.map Expr.bare := by
  obtain ⟨hne, hsign, habove, hbelow⟩ := h.above_below
  have hdenominator := Expr.map_bare_abs_of_pos fun e he => h.signs e (List.mem_append_right _ he)
  rw [Monomial.toRatio_of_ne_zero hne, map, map, hbelow, hdenominator]
  congr 1
  obtain ⟨a, as, hcons⟩ := List.exists_cons_of_ne_nil h.numerator_ne_nil
  have has : ∀ e ∈ as, e.sign = .pos := fun e he => h.signs e (List.mem_append_left _ (by rw [hcons]; exact he))
  rw [hcons, List.map_cons, Expr.map_bare_abs_of_pos has] at habove
  rw [hcons, List.map_cons]
  have hs := h.sign_eq hcons
  cases hsa : a.sign with
  | pos =>
    rw [if_neg (mt hsign.mp (by rw [hs, hsa]; exact Sign.noConfusion)), habove, Expr.abs_of_pos hsa]
  | neg =>
    rw [if_pos (hsign.mpr (hs.trans hsa)), ← Monomial.negateFirst_bare, habove, Monomial.negateFirst]
    congr 1
    obtain ⟨s, b, c⟩ := a
    obtain rfl : s = .neg := hsa
    rw [Expr.abs, Expr.bare_mk, Expr.bare_mk]

theorem reduce_eq (h : t.IsReduced) : t.reduce = t.split.toRatio := by rw [reduce, h.isReduced_split.reduce_eq]

/-- Reducing leaves a reduced ratio. -/
theorem reduce_bare (h : t.IsReduced) : t.reduce.map Expr.bare = t.map Expr.bare := by rw [h.reduce_eq, h.toRatio_split]

theorem split_reduce (h : t.IsReduced) : t.reduce.split = t.split := by
  rw [h.reduce_eq, Monomial.split_toRatio h.isReduced_split h.above_below.1]

/-! ## What else is reduced -/

/-- The opposite ratio is reduced. -/
theorem neg (h : t.IsReduced) : t.neg.IsReduced := by
  obtain ⟨ns, ds⟩ := t
  obtain ⟨a, as, rfl⟩ := List.exists_cons_of_ne_nil h.numerator_ne_nil
  have hmem : ∀ e ∈ a.neg :: as, ∃ b ∈ a :: as, e.number? = b.number? ∧ e.abs = b.abs := by
    refine List.forall_mem_cons.mpr ⟨⟨a, List.mem_cons_self, rfl, rfl⟩, fun e he => ?_⟩
    exact ⟨e, List.mem_cons_of_mem _ he, rfl, rfl⟩
  refine ⟨List.cons_ne_nil _ _, h.numbers, h.divisors, fun e he p hp => ?_, h.divisor, fun e he b hb p q hp hq => ?_,
    h.signs, fun e he b hb hn => ?_⟩
  · obtain ⟨b, hb, hnumber, -⟩ := hmem e he
    exact h.number b hb p (hnumber ▸ hp)
  · obtain ⟨b', hb', hnumber, -⟩ := hmem e he
    exact h.coprime b' hb' b hb p q (hnumber ▸ hp) hq
  · obtain ⟨b', hb', hnumber, habs⟩ := hmem e he
    rw [habs]
    exact h.disjoint b' hb' b hb (hnumber ▸ hn)

/-- Some of the factors make a reduced ratio, if one of them is above the bar. -/
theorem filter (h : t.IsReduced) {p : Expr → Bool} (hne : t.numerator.filter p ≠ []) :
    (⟨t.numerator.filter p, t.denominator.filter p⟩ : Ratio Expr).IsReduced := by
  have hn : (t.numerator.filter p).Sublist t.numerator := List.filter_sublist
  have hd : (t.denominator.filter p).Sublist t.denominator := List.filter_sublist
  refine ⟨hne, fun e he => h.numbers e (hn.tail.mem he), fun e he => h.divisors e (hd.tail.mem he),
    fun e he v hv => ?_, fun e he => h.divisor e (hd.mem he),
    fun a ha b hb => h.coprime a (hn.mem ha) b (hd.mem hb), fun e he => ?_,
    fun a ha b hb => h.disjoint a (hn.mem ha) b (hd.mem hb)⟩
  · obtain ⟨n, hvn, hpos, hone⟩ := h.number e (hn.mem he) v hv
    refine ⟨n, hvn, hpos, fun h1 => le_antisymm ?_ (List.length_pos_iff.mpr hne)⟩
    rw [← hone h1]
    exact hn.length_le
  · exact h.signs e (((hn.tail).append hd).mem he)

end IsReduced

theorem others_neg (h : t.IsReduced) : t.neg.others = t.others := by
  obtain ⟨ns, ds⟩ := t
  obtain ⟨a, as, rfl⟩ := List.exists_cons_of_ne_nil h.numerator_ne_nil
  have hnumber : a.neg.number? = a.number? := rfl
  have habs : a.neg.abs = a.abs := rfl
  simp only [neg, others, List.filter_cons, hnumber]
  split <;> simp [habs]

end Ratio

namespace Expr

variable {e : Expr} {ts : List (Ratio Expr)}

/-! ## Nodes in canonical shape -/

/-- The monomials of terms that are unlike each other are so too. -/
theorem unlike_split (h : ts.Pairwise fun t u => ¬t.IsLike u) :
    Monomial.Unlike (ts.map Ratio.split) := by
  refine List.pairwise_map.mpr (h.imp fun {t u} htu => Bool.eq_false_iff.mpr fun hlike => htu ?_)
  obtain ⟨hn, hd⟩ := Monomial.perm_of_isLike hlike
  rw [Ratio.IsLike, Ratio.others_eq, Ratio.others_eq]
  exact ⟨hn, hd⟩

/-- Collecting leaves the terms of a sum in canonical shape. -/
theorem AreCanonical.collect_reduce (h : AreCanonical ts) : Ratio.collect (ts.map Ratio.reduce) = ts.map Ratio.reduce := by
  have hsplit : (ts.map Ratio.reduce).map Ratio.split = ts.map Ratio.split := by
    rw [List.map_map]
    exact List.map_congr_left fun t ht => (h.reduced t ht).split_reduce
  rw [Ratio.collect_eq, hsplit, Monomial.addAll_of_unlike (by simpa using unlike_split h.unlike),
    List.nil_append, List.map_map]
  exact List.map_congr_left fun t ht => (h.reduced t ht).reduce_eq.symm

/-- A reduced ratio has no unit below the bar. -/
theorem dropUnit_of_isReduced {t : Ratio Expr} (h : t.IsReduced) : dropUnit t = t := by
  unfold dropUnit
  split
  · rename_i d hd
    rw [if_neg]
    intro hone
    have hdivisor : d.divisor? = some 1 := by rw [divisor?, number?, shape_of_isOne hone]; rfl
    obtain ⟨n, hn, htwo⟩ := h.divisor d (by rw [hd]; exact List.mem_cons_self) 1 hdivisor
    rw [← Nat.cast_one, Nat.cast_inj] at hn
    omega
  · rfl

/-- A reduced ratio has no ones beside other factors. -/
theorem dropOnes_of_isReduced {t : Ratio Expr} (h : t.IsReduced) : dropOnes t = t := by
  have hones : ∀ es : List Expr, (∀ e ∈ es, e.isOne = true → es.length = 1) → withoutOnes es = es := by
    intro es hes
    unfold withoutOnes
    split
    · rfl
    · rename_i hmany
      refine List.filter_eq_self.mpr fun e he => ?_
      rw [Bool.not_eq_true', Bool.eq_false_iff]
      intro hone
      obtain ⟨a, rfl⟩ := List.length_eq_one_iff.mp (hes e he hone)
      exact hmany a rfl
  have hn := hones t.numerator fun e he hone => by
    have hnumber : e.number? = some 1 := by rw [number?, shape_of_isOne hone]
    obtain ⟨n, hn, -, hlen⟩ := h.number e he 1 hnumber
    rw [← Nat.cast_one, Nat.cast_inj] at hn
    exact hlen hn.symm
  have hd := hones t.denominator fun e he hone => by
    have hdivisor : e.divisor? = some 1 := by rw [divisor?, number?, shape_of_isOne hone]; rfl
    obtain ⟨n, hn, htwo⟩ := h.divisor e he 1 hdivisor
    rw [← Nat.cast_one, Nat.cast_inj] at hn
    omega
  rw [dropOnes, hn, hd]

/-- A reduced ratio is not zero. -/
theorem isZeroTerm_of_isReduced {t : Ratio Expr} (h : t.IsReduced) : isZeroTerm t = false := by
  obtain ⟨ns, ds⟩ := t
  unfold isZeroTerm
  split
  · rename_i e he
    obtain ⟨rfl, rfl⟩ := (Ratio.mk.injEq _ _ _ _).mp he
    refine Bool.eq_false_iff.mpr fun hzero => ?_
    obtain ⟨n, hn, hpos, -⟩ := h.number e List.mem_cons_self 0 (by simpa using hzero)
    rw [← Nat.cast_zero, Nat.cast_inj] at hn
    omega
  · rfl

/-- **A node in canonical shape is left by every step.** -/
theorem IsCanonical.isLeft (h : e.IsCanonical) : e.IsLeft := by
  obtain ⟨s, b, c⟩ := e
  cases b with
  | sum ts =>
    have hts := h ts rfl
    have hdrop : ts.map dropUnit = ts :=
      (List.map_congr_left fun t ht => dropUnit_of_isReduced (hts.reduced t ht)).trans (List.map_id ts)
    have hones : ts.map dropOnes = ts :=
      (List.map_congr_left fun t ht => dropOnes_of_isReduced (hts.reduced t ht)).trans (List.map_id ts)
    have hzero : (ts.filter fun t => !isZeroTerm t) = ts :=
      List.filter_eq_self.mpr fun t ht => by rw [isZeroTerm_of_isReduced (hts.reduced t ht)]; rfl
    refine ⟨?_, ?_, ?_, ?_⟩
    · rintro us ⟨⟩
      exact ⟨hts.flat, hts.not_factor⟩
    · have hreduce : (ts.map Ratio.reduce).map (Ratio.map bare) = ts.map (Ratio.map bare) := by
        rw [List.map_map]
        exact List.map_congr_left fun t ht => (hts.reduced t ht).reduce_bare
      simp only [IsLeftBy, reduceStep, hts.collect_reduce, bare_mk, Shape.map, hreduce]
    · simp only [IsLeftBy, dropUnits, hdrop]
    · rw [IsLeftBy, neutralStep_sum, hzero]
      split
      · exact absurd rfl hts.ne_nil
      · rw [hones]
        rfl
  | _ =>
    refine ⟨?_, rfl, rfl, rfl⟩
    rintro us ⟨⟩

/-- **The steps leave just the nodes in canonical shape.** -/
theorem isLeft_iff_isCanonical : e.IsLeft ↔ e.IsCanonical := ⟨IsLeft.isCanonical, IsCanonical.isLeft⟩

/-- **A round leaves just the trees all of whose nodes are in canonical shape.** -/
theorem tidy_eq_self_iff (ha : e.analyze = e) : e.tidy = e ↔ e.Everywhere IsCanonical := by
  constructor
  · exact fun h => (everywhere_isLeft h).imp fun _ => isLeft_iff_isCanonical.mp
  · intro h
    have htidy := tidy_of_everywhere_isLeft (h.imp fun _ => isLeft_iff_isCanonical.mpr)
    rwa [ha] at htidy

end Expr

end Isolate
