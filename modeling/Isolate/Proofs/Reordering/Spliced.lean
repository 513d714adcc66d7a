import Isolate.Proofs.Reordering.Gathered
import Isolate.Proofs.Settling.Flat

/-!
# Splicing and order

What is spliced for akin factors is akin (`Ratio.akin_spliceFactors`), with two provisos. A sum that has one term may be
spliced for a factor with a minus that stands at another factor in the other tree; that goes well if the term has a factor
to take the minus (`Expr.IsFilled`), or if the minus stands at the same factor in both trees. And a divisor that vanishes
would lose its sign.

* `Expr.akin_flattenStep`: nodes with akin terms to splice become akin when they are flattened.
-/

namespace Isolate

/-- No term of the node is empty. -/
def Expr.IsFilled (e : Expr) : Prop := ∀ ts, e.shape = .sum ts → ∀ t ∈ ts, t.factors ≠ []

/-! ## Splicing factors -/

namespace Ratio

variable {t u : Ratio Expr}

theorem sign_neg (t : Ratio Expr) : t.neg.sign = t.sign.flip := by
  match t with
  | ⟨n :: ns, ds⟩ =>
    simp only [neg, sign_eq_prod, factors, List.cons_append, List.map_cons, List.prod_cons, Expr.neg, Sign.flip_mul]
  | ⟨[], d :: ds⟩ =>
    simp only [neg, sign_eq_prod, factors, List.nil_append, List.map_cons, List.prod_cons, Expr.neg, Sign.flip_mul]
  | ⟨[], []⟩ => rfl

theorem vanishes_neg (t : Ratio Expr) : t.neg.Vanishes ↔ t.Vanishes := by
  match t with
  | ⟨n :: ns, ds⟩ =>
    have hn : n.neg.number? = n.number? := rfl
    simp [neg, Vanishes, factors, hn]
  | ⟨[], d :: ds⟩ => simp [neg, Vanishes]
  | ⟨[], []⟩ => simp [neg, Vanishes, factors]

/-- The minus in front of a term is taken by its first factor, if it has one. -/
theorem corr_neg_self (h : t.factors ≠ []) : t.neg.Corr Expr.Akin t := by
  match t with
  | ⟨n :: ns, ds⟩ => exact ⟨Expr.corr_akin_cons rfl, Expr.corr_akin_refl ds⟩
  | ⟨[], d :: ds⟩ => exact ⟨Expr.corr_akin_refl [], Expr.corr_akin_cons rfl⟩
  | ⟨[], []⟩ => exact absurd rfl h

theorem corr_akin_trans {v : Ratio Expr} (h : t.Corr Expr.Akin u) (h' : u.Corr Expr.Akin v) : t.Corr Expr.Akin v :=
  (h.comp h').imp fun _ _ _ ⟨_, hab, hbc⟩ => hab.trans hbc

theorem corr_akin_symm (h : t.Corr Expr.Akin u) : u.Corr Expr.Akin t := h.symm.imp fun _ _ _ hab => Expr.Akin.symm hab

theorem factors_ne_nil_of_corr (h : t.Corr Expr.Akin u) (ht : t.factors ≠ []) : u.factors ≠ [] := fun hu =>
  ht (List.length_eq_zero_iff.mp (by rw [h.factors.length_eq, hu, List.length_nil]))

/-- The opposites of corresponding products correspond; two empty ones both become minus one. -/
theorem corr_neg (h : t.Corr Expr.Akin u) : t.neg.Corr Expr.Akin u.neg := by
  by_cases ht : t.factors = []
  · have hu : u.factors = [] := List.length_eq_zero_iff.mp (by rw [← h.factors.length_eq, ht, List.length_nil])
    have hempty : ∀ r : Ratio Expr, r.factors = [] → r = ⟨[], []⟩ := by
      rintro ⟨ns, ds⟩ hr
      obtain ⟨rfl, rfl⟩ := List.append_eq_nil_iff.mp hr
      rfl
    rw [hempty t ht, hempty u hu]
    exact ⟨Corr.singleton_iff.mpr (.refl _), Corr.nil_iff.mpr rfl⟩
  · have hu := factors_ne_nil_of_corr h ht
    exact corr_akin_trans (corr_akin_trans (corr_neg_self ht) h) (corr_akin_symm (corr_neg_self hu))

theorem Akin.neg (h : t.Akin u) : t.neg.Akin u.neg :=
  akin_of_sign (corr_neg h.2) fun hv => by rw [sign_neg, sign_neg, h.sign_eq (mt (vanishes_neg t).mpr hv)]

end Ratio

namespace Expr

variable {x y : Expr}

theorem Akin.trans {a b c : Expr} (h : a.Akin b) (h' : b.Akin c) : a.Akin c := Eq.trans h h'

/-- What is spliced for two akin factors corresponds, if the minus in front has a place to go or is the same. -/
theorem Akin.corr_asRatio (h : x.Akin y) (hx : x.sign = y.sign ∨ x.IsFilled) : x.asRatio.Corr Akin y.asRatio := by
  by_cases h1 : x.termCount? = some 1
  · obtain ⟨ts, hts, hlen⟩ := termCount?_eq_some.mp h1
    obtain ⟨t, rfl⟩ := List.length_eq_one_iff.mp hlen
    obtain ⟨us, hus, hc⟩ := h.sum hts
    obtain ⟨u, rfl⟩ := List.length_eq_one_iff.mp hc.length_eq.symm
    have htu : t.Corr Akin u := (Corr.singleton_iff.mp hc).2
    rw [asRatio_of_sum hts, asRatio_of_sum hus]
    by_cases hs : x.sign = y.sign
    · rw [hs]
      split
      · exact Ratio.corr_neg htu
      · exact htu
    · have ht : t.factors ≠ [] := hx.resolve_left hs _ hts t List.mem_cons_self
      split <;> split
      · exact Ratio.corr_neg htu
      · exact Ratio.corr_akin_trans (Ratio.corr_neg_self ht) htu
      · exact Ratio.corr_akin_trans htu (Ratio.corr_akin_symm (Ratio.corr_neg_self (Ratio.factors_ne_nil_of_corr htu ht)))
      · exact htu
  · rw [asRatio_of_termCount? h1, asRatio_of_termCount? (h.termCount? ▸ h1)]
    exact ⟨Corr.singleton_iff.mpr h, Corr.nil_iff.mpr rfl⟩

/-- Apart from the sign in front, what is spliced for akin factors has one sign. -/
theorem Akin.sign_asRatio (h : x.Akin y) (hv : ¬x.asRatio.Vanishes) :
    x.asRatio.sign * x.sign = y.asRatio.sign * y.sign := by
  by_cases h1 : x.termCount? = some 1
  · obtain ⟨ts, hts, hlen⟩ := termCount?_eq_some.mp h1
    obtain ⟨t, rfl⟩ := List.length_eq_one_iff.mp hlen
    obtain ⟨us, hus, hc⟩ := h.sum hts
    obtain ⟨u, rfl⟩ := List.length_eq_one_iff.mp hc.length_eq.symm
    have hsplice : ∀ (e : Expr) (r : Ratio Expr), e.shape = .sum [r] → e.asRatio.sign * e.sign = r.sign := by
      intro e r he
      rw [asRatio_of_sum he]
      cases e.sign
      · exact mul_one _
      · rw [if_pos rfl, Ratio.sign_neg, ← Sign.neg_mul, mul_right_comm]
        exact Sign.pos_mul _
    have htv : ¬t.Vanishes := by
      rw [asRatio_of_sum hts] at hv
      split at hv
      · exact mt (Ratio.vanishes_neg t).mpr hv
      · exact hv
    rw [hsplice x t hts, hsplice y u hus, (Corr.singleton_iff.mp hc).sign_eq htv]
  · rw [asRatio_of_termCount? h1, asRatio_of_termCount? (h.termCount? ▸ h1), Ratio.sign_of, Ratio.sign_of, Sign.mul_self,
      Sign.mul_self]

end Expr

namespace Ratio

variable {t u : Ratio Expr}

/-- Factors that are akin, with the same sign in front or with a place for it below. -/
def Joins (x y : Expr) : Prop := x.Akin y ∧ (x.sign = y.sign ∨ x.IsFilled)

theorem sign_spliceFactors (t : Ratio Expr) : t.spliceFactors.sign = (t.factors.map fun e => e.asRatio.sign).prod := by
  rw [sign_eq_prod, (t.factors_spliceFactors_perm.map _).prod_eq, List.map_flatMap, List.flatMap, List.prod_flatten,
    List.map_map]
  exact congrArg List.prod (List.map_congr_left fun e _ => (sign_eq_prod _).symm)

theorem length_spliceFactors (t : Ratio Expr) :
    t.spliceFactors.factors.length = (t.factors.map fun e => e.asRatio.factors.length).sum := by
  rw [t.factors_spliceFactors_perm.length_eq, List.length_flatMap]

/-- Where a part vanishes that is spliced into the numerator, the whole does. -/
theorem vanishes_of_asRatio {n : Expr} (hn : n ∈ t.numerator) (h : n.asRatio.Vanishes) : t.spliceFactors.Vanishes := by
  obtain ⟨hlen, e, he, h0⟩ := h
  have hpos : 0 < n.asRatio.factors.length := List.length_pos_of_mem (List.mem_append_left _ he)
  have hle : n.asRatio.factors.length ≤ t.spliceFactors.factors.length := by
    rw [length_spliceFactors]
    exact List.single_le_sum (fun _ _ => Nat.zero_le _) _ (List.mem_map_of_mem (List.mem_append_left _ hn))
  refine ⟨by omega, e, ?_, h0⟩
  rw [numerator_spliceFactors]
  exact List.mem_append_left _ (List.mem_flatMap.mpr ⟨n, hn, he⟩)

/-- A zero among several factors stays among several ones, if there is something to splice for each. -/
theorem vanishes_spliceFactors (h : t.Vanishes) (hne : ∀ e ∈ t.factors, e.asRatio.factors ≠ []) :
    t.spliceFactors.Vanishes := by
  obtain ⟨hlen, e, he, h0⟩ := h
  have hpos : 0 < t.factors.length := List.length_pos_of_mem (List.mem_append_left _ he)
  have hle : t.factors.length ≤ t.spliceFactors.factors.length := by
    rw [length_spliceFactors, ← List.length_map (f := fun e => e.asRatio.factors.length)]
    refine List.length_le_sum_of_one_le _ fun n hn => ?_
    obtain ⟨a, ha, rfl⟩ := List.mem_map.mp hn
    exact List.length_pos_iff.mpr (hne a ha)
  have hof : e.asRatio = .of e := by
    obtain ⟨s, b, c⟩ := e
    cases b with
    | sum ts => simp [Expr.number?] at h0
    | _ => rfl
  refine ⟨by omega, e, ?_, h0⟩
  rw [numerator_spliceFactors]
  exact List.mem_append_left _ (List.mem_flatMap.mpr ⟨e, he, by rw [hof]; exact List.mem_singleton_self e⟩)

theorem corr_spliceFactors (h : t.Corr Joins u) : t.spliceFactors.Corr Expr.Akin u.spliceFactors := by
  have hn : ∀ a b, Joins a b → Isolate.Corr Expr.Akin a.asRatio.numerator b.asRatio.numerator :=
    fun a b hab => (hab.1.corr_asRatio hab.2).1
  have hd : ∀ a b, Joins a b → Isolate.Corr Expr.Akin a.asRatio.denominator b.asRatio.denominator :=
    fun a b hab => (hab.1.corr_asRatio hab.2).2
  rw [Ratio.Corr, numerator_spliceFactors, numerator_spliceFactors, denominator_spliceFactors, denominator_spliceFactors]
  exact ⟨(h.1.flatMap fun a _ => hn a).append (h.2.flatMap fun a _ => hd a),
    (h.1.flatMap fun a _ => hd a).append (h.2.flatMap fun a _ => hn a)⟩

/-- **What is spliced for akin terms is akin**: if a sign is lost, a factor above the bar is zero. -/
theorem akin_spliceFactors (h : t.Corr Joins u) (hd : ∀ d ∈ t.denominator, ¬d.asRatio.Vanishes)
    (hs : t.sign = u.sign ∨ t.Vanishes ∧ ∀ e ∈ t.factors, e.asRatio.factors ≠ []) :
    t.spliceFactors.Akin u.spliceFactors := by
  refine akin_of_sign (corr_spliceFactors h) fun hv => ?_
  have hsign : t.sign = u.sign := hs.resolve_right fun ⟨ht, hne⟩ => hv (vanishes_spliceFactors ht hne)
  have hfactors : ∀ e ∈ t.factors, ¬e.asRatio.Vanishes := by
    intro e he
    rcases List.mem_append.mp he with he | he
    · exact fun h => hv (vanishes_of_asRatio he h)
    · exact hd e he
  have hprod : (t.factors.map fun e => e.asRatio.sign * e.sign).prod =
      (u.factors.map fun e => e.asRatio.sign * e.sign).prod :=
    (h.factors.perm_map fun a ha b hab => hab.1.sign_asRatio (hfactors a ha)).prod_eq
  rw [List.prod_map_mul, List.prod_map_mul, ← sign_eq_prod, ← sign_eq_prod, hsign] at hprod
  rw [sign_spliceFactors, sign_spliceFactors, ← mul_one (t.factors.map _).prod, ← mul_one (u.factors.map _).prod]
  have hone : u.sign * u.sign = 1 := Sign.mul_self _
  rw [← hone, ← mul_assoc, hprod, mul_assoc]

/-- What is akin to just one factor is just one factor. -/
theorem Akin.exists_of {e : Expr} (h : (of e).Akin u) : ∃ a, u = of a ∧ e.sign = a.sign ∧ e.Akin a := by
  obtain ⟨ns, ds⟩ := u
  obtain ⟨a, rfl⟩ := List.length_eq_one_iff.mp h.2.1.length_eq.symm
  obtain rfl : ds = [] := List.length_eq_zero_iff.mp h.2.2.length_eq.symm
  exact ⟨a, rfl, akin_of.mp h⟩

theorem Akin.symm (h : t.Akin u) : u.Akin t := ⟨h.1.symm, corr_akin_symm h.2⟩

end Ratio

/-! ## Splicing terms -/

theorem Expr.Akin.corr_asTerms {x y : Expr} (h : x.Akin y) (hs : x.sign = y.sign) :
    Corr Ratio.Akin x.asTerms y.asTerms := by
  cases hn : x.termCount? with
  | some n =>
    obtain ⟨ts, hts, -⟩ := termCount?_eq_some.mp hn
    obtain ⟨us, hus, hc⟩ := h.sum hts
    simp only [asTerms, hts, hus, hs]
    split
    · exact (hc.imp fun _ _ _ htu => htu.neg).map fun _ _ htu => htu
    · exact hc
  | none =>
    rw [asTerms_of_termCount? hn, asTerms_of_termCount? (h.termCount? ▸ hn)]
    exact Corr.singleton_iff.mpr (Ratio.akin_of.mpr ⟨hs, h⟩)

namespace Ratio

variable {t u : Ratio Expr}

/-- Akin terms amount to akin terms. -/
theorem corr_spliceTerm (h : t.spliceFactors.Akin u.spliceFactors) : Isolate.Corr Akin t.spliceTerm u.spliceTerm := by
  by_cases ht : ∃ e, t.spliceFactors = of e
  · obtain ⟨e, he⟩ := ht
    rw [he] at h
    obtain ⟨a, ha, hs, hea⟩ := h.exists_of
    rw [spliceTerm_of he, spliceTerm_of ha]
    exact hea.corr_asTerms hs
  · have hu : ¬∃ e, u.spliceFactors = of e := by
      rintro ⟨e, he⟩
      have h' := h.symm
      rw [he] at h'
      obtain ⟨a, ha, -⟩ := h'.exists_of
      exact ht ⟨a, ha⟩
    rw [spliceTerm_of_ne (not_exists.mp ht), spliceTerm_of_ne (not_exists.mp hu)]
    exact Isolate.Corr.singleton_iff.mpr h

end Ratio

/-! ## Flattening a node -/

namespace Expr

variable {a b : Expr} {s s' : Sign} {ts us : List (Ratio Expr)} {c c' : Option Summary}

/-- A node with akin terms to splice becomes an akin one, and what it does to the sign in front is the same. -/
theorem akin_flattenStep (h : Corr (fun t u => t.spliceFactors.Akin u.spliceFactors) ts us) :
    (flattenStep ⟨s, .sum ts, c⟩).Akin (flattenStep ⟨s', .sum us, c'⟩) ∧
      (flattenStep ⟨s, .sum ts, c⟩).sign * s = (flattenStep ⟨s', .sum us, c'⟩).sign * s' := by
  have hterms : Corr Ratio.Akin (ts.flatMap Ratio.spliceTerm) (us.flatMap Ratio.spliceTerm) :=
    h.flatMap fun _ _ _ => Ratio.corr_spliceTerm
  by_cases ht : ∃ e, ts.flatMap Ratio.spliceTerm = [.of e]
  · obtain ⟨e, he⟩ := ht
    rw [he] at hterms
    obtain ⟨v, hv⟩ := List.length_eq_one_iff.mp hterms.length_eq.symm
    rw [hv] at hterms
    obtain ⟨a, rfl, hs, hea⟩ := (Corr.singleton_iff.mp hterms).exists_of
    rw [flattenStep_of he, flattenStep_of hv]
    have hmk : ∀ (x : Expr) (t : Sign), Akin ⟨t, x.shape, none⟩ x := fun x t => akin_of_shape rfl
    refine ⟨(hmk e _).trans (hea.trans (hmk a _).symm), ?_⟩
    simp only [Sign.mul_assoc, Sign.mul_self, hs]
  · have hu : ¬∃ e, us.flatMap Ratio.spliceTerm = [.of e] := by
      rintro ⟨e, he⟩
      rw [he] at hterms
      obtain ⟨v, hv⟩ := List.length_eq_one_iff.mp hterms.length_eq
      rw [hv] at hterms
      obtain ⟨a, rfl, -⟩ := (Corr.singleton_iff.mp hterms).symm.exists_of
      exact ht ⟨a, hv⟩
    rw [flattenStep_of_ne (not_exists.mp ht), flattenStep_of_ne (not_exists.mp hu)]
    exact ⟨akin_sum.mpr hterms, by rw [Sign.mul_self, Sign.mul_self]⟩

end Expr

end Isolate
