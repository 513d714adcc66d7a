import Isolate.Proofs.Meaning.Normalize
import Isolate.Proofs.Reordering.Collected
import Isolate.Proofs.Settling.Passes

/-!
# Rounds and order

Dropping what is neutral makes akin trees of akin ones (`Expr.Akin.neutralUp`), so a round does, as long as it tells apart
what it compares. After the first round no term is empty, so that the next one can be taken on.

* `Expr.gathered_tidy`: a round makes the same of two trees, up to order, if flattening does.
* `Expr.Reorders.gathered_rounds`: so does any number of rounds, of trees that differ in order.
-/

namespace Isolate

variable {I : Interpretation}

namespace Expr

variable {a b e : Expr} {t u : Ratio Expr} {ts us : List (Ratio Expr)} {q : Rat}

/-! ## Dropping what is neutral -/

/-- A term is zero just if it is one factor that is zero. -/
theorem isZeroTerm_iff : isZeroTerm t = true ↔ t.factors.length = 1 ∧ ∃ e ∈ t.numerator, e.number? = some 0 := by
  match t with
  | ⟨[], ds⟩ => simp [isZeroTerm]
  | ⟨[e], []⟩ => simp [isZeroTerm, Ratio.factors]
  | ⟨[e], d :: ds⟩ => simp [isZeroTerm, Ratio.factors]
  | ⟨n :: m :: ns, ds⟩ => simp [isZeroTerm, Ratio.factors]

theorem isZeroTerm_of_corr (h : t.Corr Akin u) : isZeroTerm t = isZeroTerm u := by
  rw [Bool.eq_iff_iff, isZeroTerm_iff, isZeroTerm_iff, h.factors.length_eq, Ratio.exists_zero_of_corr h]

theorem isOfSums_neutralStep : IsOfSums neutralStep := fun e he => by
  obtain ⟨s, b, c⟩ := e
  cases b with
  | sum ts => exact absurd rfl (he ts)
  | _ => rfl

/-- The terms of a sum that are not zero once what is neutral has been dropped from their factors. -/
def keptTerms (ts : List (Ratio Expr)) : List (Ratio Expr) :=
  (ts.map (Ratio.map (rebuildUp neutralStep .all))).filter fun t => !isZeroTerm t

/-- What is left of a sum is zero, or a sum of what is not zero. -/
theorem neutralUp_sum (s : Sign) (ts : List (Ratio Expr)) (c : Option Summary) :
    rebuildUp neutralStep .all ⟨s, .sum ts, c⟩ =
      if keptTerms ts = [] then .number 0 else ⟨s, .sum ((keptTerms ts).map dropOnes), none⟩ := by
  rw [rebuildUp_all]
  refine (neutralStep_sum ..).trans ?_
  rw [← keptTerms]
  cases keptTerms ts <;> rfl

/-- A sign is lost only where a zero is left. -/
theorem sign_neutralUp (e : Expr) :
    (e.rebuildUp neutralStep .all).number? = some 0 ∨ (e.rebuildUp neutralStep .all).sign = e.sign := by
  obtain ⟨s, b, c⟩ := e
  cases b with
  | sum ts =>
    rw [neutralUp_sum]
    split
    · exact .inl rfl
    · exact .inr rfl
  | _ => rw [rebuildUp_all]; exact .inr rfl

theorem number?_neutralUp (h : e.number? = some q) : (e.rebuildUp neutralStep .all).number? = some q := by
  obtain ⟨s, b, c⟩ := e
  cases b with
  | number v => rw [rebuildUp_all]; exact h
  | _ => simp [number?] at h

/-- No sum becomes one. -/
theorem number?_of_isOne_neutralUp (h : (e.rebuildUp neutralStep .all).isOne = true) : e.number? = some 1 := by
  obtain ⟨s, b, c⟩ := e
  cases b with
  | number v =>
    rw [rebuildUp_all] at h
    cases s
    · simpa [isOne, neutralStep, Shape.map, number?] using h
    · simp [isOne, neutralStep, Shape.map] at h
  | sum ts =>
    rw [neutralUp_sum] at h
    split at h
    · simp [isOne, number, ofShape] at h
    · cases s <;> simp [isOne] at h
  | _ => rw [rebuildUp_all] at h; cases s <;> simp [isOne, neutralStep, Shape.map] at h

theorem withoutOnes_eq_self {es : List Expr} (h : es.length ≠ 1 → ∀ e ∈ es, e.isOne = false) : withoutOnes es = es := by
  unfold withoutOnes
  split
  · rfl
  · rename_i hne
    refine List.filter_eq_self.mpr fun e he => ?_
    rw [h (fun hlen => ?_) e he]
    · rfl
    · obtain ⟨a, rfl⟩ := List.length_eq_one_iff.mp hlen
      exact hne a rfl

/-- There are no ones to drop in what has been reduced. -/
theorem dropOnes_of_isWritten (h : t.IsWritten) :
    dropOnes (t.map (rebuildUp neutralStep .all)) = t.map (rebuildUp neutralStep .all) := by
  rcases h with h | rfl
  · have hn : withoutOnes (t.numerator.map (rebuildUp neutralStep .all)) =
        t.numerator.map (rebuildUp neutralStep .all) := by
      refine withoutOnes_eq_self fun hlen a ha => Bool.eq_false_iff.mpr fun h1 => ?_
      obtain ⟨e, he, rfl⟩ := List.mem_map.mp ha
      obtain ⟨n, hn, -, hone⟩ := h.number e he 1 (number?_of_isOne_neutralUp h1)
      exact hlen (by rw [List.length_map]; exact hone (by exact_mod_cast hn.symm))
    have hd : withoutOnes (t.denominator.map (rebuildUp neutralStep .all)) =
        t.denominator.map (rebuildUp neutralStep .all) := by
      refine withoutOnes_eq_self fun _ a ha => Bool.eq_false_iff.mpr fun h1 => ?_
      obtain ⟨e, he, rfl⟩ := List.mem_map.mp ha
      have hdivisor : e.divisor? = some 1 := by
        rw [divisor?, number?_of_isOne_neutralUp h1]
        rfl
      obtain ⟨n, hn, htwo⟩ := h.divisor e he 1 hdivisor
      have hone : n = 1 := by exact_mod_cast hn.symm
      omega
    rw [dropOnes, Ratio.map, hn, hd]
  · rfl

theorem dropOnes_keptTerms (h : ∀ t ∈ ts, t.IsWritten) : (keptTerms ts).map dropOnes = keptTerms ts := by
  refine (List.map_congr_left fun u hu => ?_).trans (List.map_id _)
  obtain ⟨t, ht, rfl⟩ := List.mem_map.mp (List.mem_filter.mp hu).1
  exact dropOnes_of_isWritten (h t ht)

/-- A defined divisor does not become zero. -/
theorem number?_divisor_ne_zero (h : t.IsDefined I) :
    ∀ d ∈ t.denominator, (d.rebuildUp neutralStep .all).number? ≠ some 0 := by
  intro d hd h0
  obtain ⟨hdef, hne⟩ := (Ratio.isDefined_iff.mp h).2 d hd
  rw [← ((isBottomUp_rebuildUp neutralStep).keeps keeps_neutralStep d hdef).2, value_eq_abs, value_of_number? h0] at hne
  exact hne ((Sign.apply_eq_zero _ 0).mpr rfl)

/-- **Terms stay akin when what is neutral drops**, if they are not zero: a factor whose sign is lost makes them vanish. -/
theorem akin_map_neutralUp (h : t.Akin u) (hdef : t.IsDefined I)
    (hc : t.Corr (fun x y => (x.rebuildUp neutralStep .all).Akin (y.rebuildUp neutralStep .all)) u)
    (hz : isZeroTerm (t.map (rebuildUp neutralStep .all)) = false) :
    (t.map (rebuildUp neutralStep .all)).Akin (u.map (rebuildUp neutralStep .all)) := by
  refine Ratio.akin_of_sign (Ratio.corr_map hc) fun hv => ?_
  have hzero : ∀ x ∈ t.factors, (x.rebuildUp neutralStep .all).number? ≠ some 0 := by
    intro x hx h0
    rcases List.mem_append.mp hx with hx | hx
    · have hex : ∃ e ∈ (t.map (rebuildUp neutralStep .all)).numerator, e.number? = some 0 :=
        ⟨_, List.mem_map_of_mem hx, h0⟩
      by_cases hlen : (t.map (rebuildUp neutralStep .all)).factors.length = 1
      · rw [isZeroTerm_iff.mpr ⟨hlen, hex⟩] at hz
        cases hz
      · exact hv ⟨hlen, hex⟩
    · exact number?_divisor_ne_zero hdef x hx h0
  have hkept : ∀ r : Ratio Expr, (∀ x ∈ r.factors, (x.rebuildUp neutralStep .all).number? ≠ some 0) →
      (r.map (rebuildUp neutralStep .all)).sign = r.sign := fun r hr =>
    Ratio.sign_map fun x hx => (sign_neutralUp x).resolve_left (hr x hx)
  have hzero' : ∀ y ∈ u.factors, (y.rebuildUp neutralStep .all).number? ≠ some 0 := by
    intro y hy
    obtain ⟨x, hx, hxy⟩ := hc.factors.symm.exists_related hy
    rw [← Akin.number? hxy]
    exact hzero x hx
  rw [hkept t hzero, hkept u hzero', h.sign_eq fun h0 => hv (h0.map fun _ => number?_neutralUp)]

/-- **Dropping what is neutral makes akin trees of akin ones**, where they are reduced and defined. -/
theorem Akin.neutralUp (h : a.Akin b) (ha : a.Everywhere IsWritten) (hb : b.Everywhere IsWritten) (hdef : a.IsDefined I) :
    (a.rebuildUp neutralStep .all).Akin (b.rebuildUp neutralStep .all) ∧
      (a.sign = b.sign → (a.rebuildUp neutralStep .all).sign = (b.rebuildUp neutralStep .all).sign) := by
  induction a using Expr.induction generalizing b with
  | h a ih =>
    obtain ⟨hna, hca⟩ := everywhere_iff.mp ha
    obtain ⟨hnb, hcb⟩ := everywhere_iff.mp hb
    by_cases hsum : ∃ ts, a.shape = .sum ts
    · obtain ⟨s, p, c⟩ := a
      obtain ⟨s', r, c'⟩ := b
      obtain ⟨ts, rfl⟩ := hsum
      obtain ⟨us, rfl, hc⟩ := h.sum rfl
      have hdefined := isDefined_sum.mp hdef
      have hmapped : Corr (fun t u => t.Corr Akin u ∧ (isZeroTerm t = false → t.Akin u))
          (ts.map (Ratio.map (rebuildUp neutralStep .all))) (us.map (Ratio.map (rebuildUp neutralStep .all))) := by
        refine (hc.imp_of_mem fun t ht u hu htu => ?_).map fun _ _ h => h
        have hcorr : t.Corr (fun x y => (x.rebuildUp neutralStep .all).Akin (y.rebuildUp neutralStep .all)) u :=
          Ratio.corr_imp_of_mem htu.2 fun x hx y hy hxy =>
            have hxc := List.mem_flatMap.mpr ⟨t, ht, hx⟩
            (ih x hxc hxy (hca x hxc) (hcb y (List.mem_flatMap.mpr ⟨u, hu, hy⟩)) ((hdefined t ht).1 x hx)).1
        exact ⟨Ratio.corr_map hcorr, akin_map_neutralUp htu (hdefined t ht) hcorr⟩
      have hkept : Corr Ratio.Akin (keptTerms ts) (keptTerms us) :=
        (hmapped.filter fun t _ u htu => congrArg not (isZeroTerm_of_corr htu.1)).imp fun t ht u htu =>
          htu.2 (by simpa using (List.mem_filter.mp ht).2)
      have hnil : keptTerms ts = [] ↔ keptTerms us = [] := by
        rw [← List.length_eq_zero_iff, hkept.length_eq, List.length_eq_zero_iff]
      rw [neutralUp_sum, neutralUp_sum, dropOnes_keptTerms (hna ts rfl), dropOnes_keptTerms (hnb us rfl)]
      by_cases h0 : keptTerms ts = []
      · rw [if_pos h0, if_pos (hnil.mp h0)]
        exact ⟨.refl _, fun _ => rfl⟩
      · rw [if_neg h0, if_neg (mt hnil.mpr h0)]
        exact ⟨akin_sum.mpr hkept, id⟩
    · obtain ⟨hakin, hsa, hsb⟩ := (isBottomUp_rebuildUp neutralStep).akin_of_not_sum isOfSums_neutralStep h
        (not_exists.mp hsum) fun x hx y hy hxy hs => by
          obtain ⟨hakin, hsign⟩ := ih x hx hxy (hca x hx) (hcb y hy) (((isDefined_iff I a).mp hdef).1 x hx)
          exact ⟨hakin, hsign hs⟩
      exact ⟨hakin, fun hs => by rw [hsa, hsb, hs]⟩

/-- Every term that is left has a factor. -/
theorem everywhere_isFilled_neutralUp (h : e.Everywhere IsWritten) :
    (e.rebuildUp neutralStep .all).Everywhere IsFilled := by
  induction e using Expr.induction with
  | h e ih =>
    obtain ⟨hnode, hchildren⟩ := everywhere_iff.mp h
    by_cases hsum : ∃ ts, e.shape = .sum ts
    · obtain ⟨s, p, c⟩ := e
      obtain ⟨ts, rfl⟩ := hsum
      rw [neutralUp_sum, dropOnes_keptTerms (hnode ts rfl)]
      split
      · refine everywhere_iff.mpr ⟨fun us hus => ?_, fun a ha => ?_⟩
        · cases hus
        · cases ha
      · refine everywhere_isFilled_sum.mpr fun u hu => ?_
        obtain ⟨t, ht, rfl⟩ := List.mem_map.mp (List.mem_filter.mp hu).1
        constructor
        · have ht : t.factors ≠ [] := by
            rcases hnode ts rfl t ht with h | rfl
            · exact fun h0 => h.numerator_ne_nil (List.append_eq_nil_iff.mp h0).1
            · exact List.cons_ne_nil _ _
          simpa using ht
        · intro a ha
          rw [Ratio.factors_map] at ha
          obtain ⟨x, hx, rfl⟩ := List.mem_map.mp ha
          have hxc := List.mem_flatMap.mpr ⟨t, ht, hx⟩
          exact ih x hxc (hchildren x hxc)
    · obtain ⟨c, hc⟩ := (isBottomUp_rebuildUp neutralStep).eq_of_not_sum isOfSums_neutralStep (not_exists.mp hsum)
      rw [hc]
      refine everywhere_iff.mpr ⟨fun ts hts => ?_, fun a ha => ?_⟩
      · cases hp : e.shape with
        | sum us => exact absurd ⟨us, hp⟩ hsum
        | _ => rw [hp] at hts; cases hts
      · rw [children, Shape.children_map] at ha
        obtain ⟨b, hb, rfl⟩ := List.mem_map.mp ha
        exact ih b hb (hchildren b hb)

theorem isFilled_bare (e : Expr) : e.bare.IsFilled ↔ e.IsFilled := by
  obtain ⟨s, b, c⟩ := e
  cases b <;> simp [IsFilled, Shape.map]

/-! ## A round -/

/-- In the tree that flattening makes, the factors of every sum are told apart once they are reduced. -/
def Discerns (e : Expr) : Prop := e.flatten.Everywhere IsDiscerned

theorem everywhere_isFilled_tidy (e : Expr) : e.tidy.Everywhere IsFilled :=
  (everywhere_congr isFilled_bare (bare_tidy e)).mpr (everywhere_isFilled_neutralUp (everywhere_isWritten _))

/-- **A round makes the same of two trees, up to order, if flattening does** and the factors are told apart. -/
theorem gathered_tidy (h : a.flatten.Akin b.flatten) (hs : a.flatten.sign = b.flatten.sign) (ha : a.Discerns)
    (hb : b.Discerns) (hdef : a.IsDefined I) : a.tidy.gathered = b.tidy.gathered := by
  have hreduced := ((isBottomUp_editUp reduceStep).keeps keeps_reduceStep _ (keeps_flatten a hdef).1).1
  obtain ⟨hakin, hsign⟩ := (h.reduceUp ha hb).neutralUp (everywhere_isWritten _) (everywhere_isWritten _) hreduced
  rw [← gathered_bare, bare_tidy, gathered_bare, ← gathered_bare b.tidy, bare_tidy, gathered_bare, gathered_eq_iff]
  exact ⟨hsign (by rw [sign_reduceUp, sign_reduceUp, hs]), hakin⟩

/-- **Any number of rounds makes the same of trees that differ in order, up to order**, if in each of them the factors are
told apart. -/
theorem Reorders.gathered_rounds (h : a.Reorders b) (hdef : a.IsDefined I) (ha : ∀ k, (tidy^[k] a.analyze).Discerns)
    (hb : ∀ k, (tidy^[k] b.analyze).Discerns) (k : Nat) :
    (tidy^[k + 1] a.analyze).gathered = (tidy^[k + 1] b.analyze).gathered ∧ (tidy^[k + 1] a.analyze).IsDefined I := by
  induction k with
  | zero =>
    have hflatten : ∀ e : Expr, e.analyze.flatten.bare = e.flatten.bare := fun e =>
      ignoresAnalysis_flatten.congr (bare_analyze e)
    have hsign : ∀ e : Expr, e.analyze.flatten.sign = e.flatten.sign := fun e => by
      rw [← sign_bare, hflatten, sign_bare]
    obtain ⟨hakin, hs⟩ := h.akin_flatten hdef
    have hdefined := (keeps_analyze a hdef).1
    refine ⟨gathered_tidy ?_ ?_ (ha 0) (hb 0) hdefined, (keeps_tidy _ hdefined).1⟩
    · exact (akin_of_bare (hflatten a)).trans (hakin.trans (akin_of_bare (hflatten b)).symm)
    · exact (hsign a).trans (hs.trans (hsign b).symm)
  | succ k ih =>
    obtain ⟨hgathered, hdefined⟩ := ih
    have hfilled : (tidy^[k + 1] a.analyze).Everywhere IsFilled := by
      rw [Function.iterate_succ_apply']
      exact everywhere_isFilled_tidy _
    rw [Function.iterate_succ_apply', Function.iterate_succ_apply' tidy (k + 1) b.analyze]
    obtain ⟨hs, hakin⟩ := gathered_eq_iff.mp hgathered
    obtain ⟨hflat, hsign⟩ := hakin.flatten hdefined hfilled
    rw [hs] at hsign
    exact ⟨gathered_tidy hflat (mul_right_cancel hsign) (ha _) (hb _) hdefined, (keeps_tidy _ hdefined).1⟩

end Expr

end Isolate
