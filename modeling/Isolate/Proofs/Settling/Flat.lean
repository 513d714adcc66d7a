import Isolate.Proofs.Settling.Weight
import Isolate.Proofs.Tree.Bare

/-!
# Flat trees

A tree is flat if there is nothing in it to be spliced (`Expr.IsFlat`). Flattening leaves a flat node as it is
(`flattenStep_of_isFlat`) and makes any other lighter (`weight_flattenStep_lt`): what is spliced loses the sum and the
term around it.

* `everywhere_isFlat_of_weight_eq`: a tree that keeps its weight when it is flattened is flat everywhere.
* `bare_flatten_of_isFlat`: flattening leaves a tree that is flat everywhere.
-/

namespace Isolate

open Isolate.Expr (load)

/-- How many terms an expression has, if it is a sum. -/
def Expr.termCount? (e : Expr) : Option Nat :=
  match e.shape with
  | .sum ts => some ts.length
  | _ => none

/-- No factor is a sum with one term, and the term is not just a sum. -/
def Ratio.IsFlat (t : Ratio Expr) : Prop :=
  (∀ e ∈ t.factors, e.termCount? ≠ some 1) ∧ ∀ e, t = ⟨[e], []⟩ → e.termCount? = none

/-- All terms of the node are flat, and it is not just one factor. -/
def Expr.IsFlat (e : Expr) : Prop :=
  ∀ ts, e.shape = .sum ts → (∀ t ∈ ts, t.IsFlat) ∧ ∀ a, ts ≠ [⟨[a], []⟩]

/-! ## Opposites -/

theorem Expr.termCount?_of_shape {a b : Expr} (h : a.shape = b.shape) : a.termCount? = b.termCount? := by
  rw [termCount?, h, termCount?]

/-- The opposite ratio has the factors of the ratio, but for signs, or one. -/
theorem Ratio.shape_of_mem_neg (t : Ratio Expr) :
    (∀ a ∈ t.neg.numerator, a.shape = .number 1 ∨ ∃ b ∈ t.numerator, a.shape = b.shape) ∧
      ∀ a ∈ t.neg.denominator, ∃ b ∈ t.denominator, a.shape = b.shape := by
  match t with
  | ⟨n :: ns, ds⟩ =>
    refine ⟨List.forall_mem_cons.mpr ⟨.inr ⟨n, List.mem_cons_self, rfl⟩, fun a ha => ?_⟩, fun a ha => ⟨a, ha, rfl⟩⟩
    exact .inr ⟨a, List.mem_cons_of_mem _ ha, rfl⟩
  | ⟨[], d :: ds⟩ =>
    refine ⟨List.forall_mem_nil _, List.forall_mem_cons.mpr ⟨⟨d, List.mem_cons_self, rfl⟩, fun a ha => ?_⟩⟩
    exact ⟨a, List.mem_cons_of_mem _ ha, rfl⟩
  | ⟨[], []⟩ => exact ⟨List.forall_mem_singleton.mpr (.inl rfl), List.forall_mem_nil _⟩

theorem Ratio.mem_factors_neg {t : Ratio Expr} {e : Expr} (h : e ∈ t.neg.factors) :
    e.shape = .number 1 ∨ ∃ a ∈ t.factors, e.shape = a.shape := by
  rcases List.mem_append.mp h with h | h
  · exact ((shape_of_mem_neg t).1 e h).imp_right fun ⟨a, ha, hs⟩ => ⟨a, List.mem_append_left _ ha, hs⟩
  · obtain ⟨a, ha, hs⟩ := (shape_of_mem_neg t).2 e h
    exact .inr ⟨a, List.mem_append_right _ ha, hs⟩

theorem Ratio.IsFlat.neg {t : Ratio Expr} (h : t.IsFlat) : t.neg.IsFlat := by
  refine ⟨fun e he => ?_, fun e he => ?_⟩
  · rcases mem_factors_neg he with hs | ⟨a, ha, hs⟩
    · simp [Expr.termCount?, hs]
    · rw [Expr.termCount?_of_shape hs]
      exact h.1 a ha
  · match t, h, he with
    | ⟨[n], []⟩, h, rfl => exact h.2 n rfl
    | ⟨[], []⟩, _, rfl => rfl

/-! ## Splicing factors -/

namespace Expr

theorem termCount?_eq_some {e : Expr} {n : Nat} : e.termCount? = some n ↔ ∃ ts, e.shape = .sum ts ∧ ts.length = n := by
  unfold termCount?
  split <;> simp_all

theorem asRatio_of_termCount? {e : Expr} (h : e.termCount? ≠ some 1) : e.asRatio = .of e := by
  unfold asRatio
  split
  · rename_i t ht
    exact absurd (termCount?_eq_some.mpr ⟨_, ht, rfl⟩) h
  · rfl

theorem asRatio_of_sum {e : Expr} {t : Ratio Expr} (h : e.shape = .sum [t]) :
    e.asRatio = if e.sign = .neg then t.neg else t := by simp [asRatio, h]

/-- Splicing a sum with one term saves the sum and the term. -/
theorem load_asRatio {e : Expr} (h : e.termCount? = some 1) : load e.asRatio.factors + 4 ≤ e.weight := by
  obtain ⟨ts, hts, hlen⟩ := termCount?_eq_some.mp h
  obtain ⟨t, rfl⟩ := List.length_eq_one_iff.mp hlen
  obtain ⟨s, b, c⟩ := e
  obtain rfl : b = .sum [t] := hts
  have hload : ∀ u : Ratio Expr, u.weight ≤ t.weight → load u.factors + 1 ≤ t.weight := by
    intro u hu
    simp only [Ratio.weight, Ratio.base] at hu ⊢
    omega
  have := hload t le_rfl
  have := hload t.neg t.weight_neg_le
  simp only [asRatio, weight_sum, termsWeight_cons, termsWeight_nil]
  split <;> omega

end Expr

namespace Ratio

theorem load_factors_mul (r t : Ratio Expr) : load (r.mul t).factors = load r.factors + load t.factors := by
  simp only [mul, factors, Expr.load_append]
  omega

theorem load_factors_inv (t : Ratio Expr) : load t.inv.factors = load t.factors := by
  simp only [inv, factors, Expr.load_append]
  omega

theorem load_factors_of (e : Expr) : load (of e).factors = e.weight := by simp [of, factors]

theorem prod_cons (r : Ratio α) (rs : List (Ratio α)) : prod (r :: rs) = r.mul (prod rs) := by simp [prod, mul]

theorem load_prod_asRatio_le (es : List Expr) : load (prod (es.map Expr.asRatio)).factors ≤ load es := by
  induction es with
  | nil => rfl
  | cons e es ih =>
    rw [List.map_cons, prod_cons, load_factors_mul, Expr.load_cons]
    by_cases h : e.termCount? = some 1
    · have := Expr.load_asRatio h
      omega
    · rw [Expr.asRatio_of_termCount? h, load_factors_of]
      omega

theorem load_prod_asRatio_lt {es : List Expr} {e : Expr} (he : e ∈ es) (h : e.termCount? = some 1) :
    load (prod (es.map Expr.asRatio)).factors + 4 ≤ load es := by
  induction es with
  | nil => cases he
  | cons a es ih =>
    rw [List.map_cons, prod_cons, load_factors_mul, Expr.load_cons]
    have hes := load_prod_asRatio_le es
    rcases List.mem_cons.mp he with rfl | he
    · have := Expr.load_asRatio h
      omega
    · have := ih he
      have ha := load_prod_asRatio_le [a]
      simp only [List.map_cons, List.map_nil, prod_cons, load_factors_mul, Expr.load_cons, Expr.load_nil] at ha
      omega

theorem prod_map_of (es : List α) : prod (es.map of) = ⟨es, []⟩ := by
  induction es with
  | nil => rfl
  | cons e es ih => rw [List.map_cons, prod_cons, ih]; rfl

theorem prod_asRatio {es : List Expr} (h : ∀ e ∈ es, e.termCount? ≠ some 1) :
    prod (es.map Expr.asRatio) = ⟨es, []⟩ := by
  rw [List.map_congr_left fun e he => Expr.asRatio_of_termCount? (h e he), prod_map_of]

theorem numerator_spliceFactors (t : Ratio Expr) : t.spliceFactors.numerator =
    t.numerator.flatMap (fun e => e.asRatio.numerator) ++ t.denominator.flatMap fun e => e.asRatio.denominator := by
  simp [spliceFactors, prod, mul, inv, List.flatMap_map]

theorem denominator_spliceFactors (t : Ratio Expr) : t.spliceFactors.denominator =
    t.numerator.flatMap (fun e => e.asRatio.denominator) ++ t.denominator.flatMap fun e => e.asRatio.numerator := by
  simp [spliceFactors, prod, mul, inv, List.flatMap_map]

/-- In some order, the factors after splicing are those of all that is spliced. -/
theorem factors_spliceFactors_perm (t : Ratio Expr) :
    t.spliceFactors.factors.Perm (t.factors.flatMap fun e => e.asRatio.factors) := by
  rw [factors, numerator_spliceFactors, denominator_spliceFactors, factors, List.flatMap_append]
  set N := fun e : Expr => e.asRatio.numerator
  set D := fun e : Expr => e.asRatio.denominator
  have hn : (t.numerator.flatMap N ++ t.numerator.flatMap D).Perm (t.numerator.flatMap fun e => e.asRatio.factors) :=
    List.flatMap_append_perm ..
  have hd : (t.denominator.flatMap D ++ t.denominator.flatMap N).Perm
      (t.denominator.flatMap fun e => e.asRatio.factors) :=
    List.perm_append_comm.trans (List.flatMap_append_perm ..)
  refine List.Perm.trans ?_ (hn.append hd)
  rw [List.append_assoc, List.append_assoc]
  refine List.Perm.append_left _ ?_
  rw [← List.append_assoc, ← List.append_assoc]
  exact List.perm_append_comm.append_right _

theorem spliceFactors_eq_self {t : Ratio Expr} (h : ∀ e ∈ t.factors, e.termCount? ≠ some 1) :
    t.spliceFactors = t := by
  rw [spliceFactors, prod_asRatio fun e he => h e (List.mem_append_left _ he),
    prod_asRatio fun e he => h e (List.mem_append_right _ he)]
  simp [mul, inv]

theorem weight_spliceFactors_lt {t : Ratio Expr} {e : Expr} (he : e ∈ t.factors) (h : e.termCount? = some 1) :
    t.spliceFactors.weight < t.weight := by
  have hn := load_prod_asRatio_le t.numerator
  have hd := load_prod_asRatio_le t.denominator
  have hbase : t.spliceFactors.base ≤ 4 := by
    unfold base
    split <;> omega
  have hload : load t.spliceFactors.factors + 4 ≤ load t.factors := by
    have ht : load t.factors = load t.numerator + load t.denominator := Expr.load_append ..
    rw [spliceFactors, load_factors_mul, load_factors_inv, ht]
    rcases List.mem_append.mp he with he | he
    · have := load_prod_asRatio_lt he h
      omega
    · have := load_prod_asRatio_lt he h
      omega
  have : 1 ≤ t.base := by simp only [base]; omega
  simp only [weight]
  omega

end Ratio

/-! ## Splicing terms -/

theorem Expr.asTerms_of_termCount? {e : Expr} (h : e.termCount? = none) : e.asTerms = [.of e] := by
  unfold asTerms
  split
  · rename_i ts hts
    rw [termCount?_eq_some.mpr ⟨ts, hts, rfl⟩] at h
    cases h
  · rfl

/-- Splicing a term that is just a sum saves the sum and the term. -/
theorem Expr.termsWeight_asTerms {e : Expr} (h : e.termCount? ≠ none) : termsWeight e.asTerms + 3 ≤ e.weight := by
  obtain ⟨n, hn⟩ := Option.ne_none_iff_exists'.mp h
  obtain ⟨ts, hts, -⟩ := termCount?_eq_some.mp hn
  obtain ⟨s, b, c⟩ := e
  obtain rfl : b = .sum ts := hts
  have hneg : termsWeight (ts.map Ratio.neg) ≤ termsWeight ts := by
    rw [termsWeight, List.map_map]
    exact List.sum_le_sum fun t _ => t.weight_neg_le
  simp only [asTerms, weight_sum]
  split <;> omega

namespace Ratio

theorem spliceTerm_of {t : Ratio Expr} {e : Expr} (h : t.spliceFactors = of e) : t.spliceTerm = e.asTerms := by
  rw [spliceTerm, h]
  rfl

theorem spliceTerm_of_ne {t : Ratio Expr} (h : ∀ e, t.spliceFactors ≠ of e) : t.spliceTerm = [t.spliceFactors] := by
  unfold spliceTerm
  split
  · rename_i e he
    exact absurd he (h e)
  · rfl

theorem spliceTerm_of_isFlat {t : Ratio Expr} (h : t.IsFlat) : t.spliceTerm = [t] := by
  rw [spliceTerm, spliceFactors_eq_self h.1]
  split
  · rename_i e
    exact Expr.asTerms_of_termCount? (h.2 e rfl)
  · rfl

theorem termsWeight_spliceTerm_le (t : Ratio Expr) : termsWeight t.spliceTerm ≤ t.spliceFactors.weight := by
  unfold spliceTerm
  split
  · rename_i e he
    rw [he]
    by_cases h : e.termCount? = none
    · rw [Expr.asTerms_of_termCount? h]
      rfl
    · have := Expr.termsWeight_asTerms h
      have := weight_of e
      simp only [of] at this
      omega
  · simp

theorem termsWeight_spliceTerm_lt {t : Ratio Expr} (h : ¬t.IsFlat) : termsWeight t.spliceTerm < t.weight := by
  by_cases hs : ∃ e ∈ t.factors, e.termCount? = some 1
  · obtain ⟨e, he, h1⟩ := hs
    exact (termsWeight_spliceTerm_le t).trans_lt (weight_spliceFactors_lt he h1)
  · -- no factor is spliced, so the term is just a sum
    have hs : ∀ e ∈ t.factors, e.termCount? ≠ some 1 := fun e he h1 => hs ⟨e, he, h1⟩
    obtain ⟨e, rfl, he⟩ : ∃ e, t = ⟨[e], []⟩ ∧ e.termCount? ≠ none := by
      by_contra hne
      exact h ⟨hs, fun e ht => by_contra fun he => hne ⟨e, ht, he⟩⟩
    have := Expr.termsWeight_asTerms he
    have := weight_of e
    rw [spliceTerm, spliceFactors_eq_self hs]
    simp only [of] at this ⊢
    omega

theorem flatMap_spliceTerm_of_isFlat {ts : List (Ratio Expr)} (h : ∀ t ∈ ts, t.IsFlat) : ts.flatMap spliceTerm = ts := by
  induction ts with
  | nil => rfl
  | cons t ts ih =>
    obtain ⟨ht, hts⟩ := List.forall_mem_cons.mp h
    rw [List.flatMap_cons, spliceTerm_of_isFlat ht, ih hts, List.singleton_append]

theorem termsWeight_spliceTerms_le (ts : List (Ratio Expr)) : termsWeight (ts.flatMap spliceTerm) ≤ termsWeight ts := by
  induction ts with
  | nil => rfl
  | cons t ts ih =>
    rw [List.flatMap_cons, termsWeight_append, termsWeight_cons]
    by_cases h : t.IsFlat
    · rw [spliceTerm_of_isFlat h]
      simp [ih]
    · have := termsWeight_spliceTerm_lt h
      omega

theorem termsWeight_spliceTerms_lt {ts : List (Ratio Expr)} {t : Ratio Expr} (ht : t ∈ ts) (h : ¬t.IsFlat) :
    termsWeight (ts.flatMap spliceTerm) < termsWeight ts := by
  obtain ⟨as, bs, rfl⟩ := List.append_of_mem ht
  have := termsWeight_spliceTerms_le as
  have := termsWeight_spliceTerms_le bs
  have := termsWeight_spliceTerm_lt h
  simp only [List.flatMap_append, List.flatMap_cons, termsWeight_append, termsWeight_cons]
  omega

end Ratio

/-! ## Flattening -/

namespace Expr

variable {s : Sign} {ts : List (Ratio Expr)} {c : Option Summary}

theorem flattenStep_of {e : Expr} (h : ts.flatMap Ratio.spliceTerm = [.of e]) :
    flattenStep ⟨s, .sum ts, c⟩ = ⟨e.sign * s, e.shape, none⟩ := by
  simp only [flattenStep, h]
  rfl

theorem flattenStep_of_ne (h : ∀ e, ts.flatMap Ratio.spliceTerm ≠ [.of e]) :
    flattenStep ⟨s, .sum ts, c⟩ = ⟨s, .sum (ts.flatMap Ratio.spliceTerm), none⟩ := by
  simp only [flattenStep]
  split
  · rename_i e he
    exact absurd he (h e)
  · rfl

theorem flattenStep_of_isFlat {e : Expr} (h : e.IsFlat) : (flattenStep e).bare = e.bare := by
  obtain ⟨s, b, c⟩ := e
  unfold flattenStep
  split
  · rename_i ts hts
    obtain rfl : b = .sum ts := hts
    obtain ⟨ht, hne⟩ := h ts rfl
    rw [Ratio.flatMap_spliceTerm_of_isFlat ht]
    split
    · exact absurd rfl (hne _)
    · rfl
  · rfl

theorem weight_flattenStep_lt {e : Expr} (h : ¬e.IsFlat) : (flattenStep e).weight < e.weight := by
  obtain ⟨s, b, c⟩ := e
  simp only [IsFlat, not_forall] at h
  obtain ⟨ts, hts, h⟩ := h
  obtain rfl : b = .sum ts := hts
  have hle := Ratio.termsWeight_spliceTerms_le ts
  have hlt : (∃ t ∈ ts, ¬t.IsFlat) → termsWeight (ts.flatMap Ratio.spliceTerm) < termsWeight ts := by
    rintro ⟨t, ht, hf⟩
    exact Ratio.termsWeight_spliceTerms_lt ht hf
  have honly : ∀ a : Expr, termsWeight [⟨[a], []⟩] = 1 + a.weight := fun a => Ratio.weight_of a
  simp only [flattenStep, weight_sum]
  split
  · rename_i only ho
    rw [ho, honly] at hle
    rw [weight_of_shape (show (⟨only.sign * s, only.shape, none⟩ : Expr).shape = only.shape from rfl)]
    omega
  · rename_i hne
    rw [weight_sum]
    by_cases hex : ∃ t ∈ ts, ¬t.IsFlat
    · have := hlt hex
      omega
    · have hall : ∀ t ∈ ts, t.IsFlat := fun t ht => by_contra fun hf => hex ⟨t, ht, hf⟩
      rw [Ratio.flatMap_spliceTerm_of_isFlat hall] at hne
      exact absurd ⟨hall, fun a ha => hne a ha⟩ h

theorem lightens_flattenStep : Lightens flattenStep := fun e => by
  by_cases h : e.IsFlat
  · exact .inl (flattenStep_of_isFlat h)
  · exact .inr (weight_flattenStep_lt h)

theorem weight_flatten_le (e : Expr) : e.flatten.weight ≤ e.weight :=
  (isBottomUp_rebuildUp flattenStep).weight_le lightens_flattenStep.weight_le e

/-- A tree that keeps its weight when it is flattened is flat. -/
theorem everywhere_isFlat_of_weight_eq {e : Expr} (h : e.flatten.weight = e.weight) : e.Everywhere IsFlat := by
  have hstep := (isBottomUp_rebuildUp flattenStep).everywhere_of_weight_eq ignoresAnalysis_flattenStep
    lightens_flattenStep h
  refine hstep.imp fun a ha => ?_
  by_contra hf
  exact absurd (weight_of_bare ha) (weight_flattenStep_lt hf).ne

/-- Flattening leaves a tree that is flat. -/
theorem bare_flatten_of_isFlat {e : Expr} (h : e.Everywhere IsFlat) : e.flatten.bare = e.bare :=
  (isBottomUp_rebuildUp flattenStep).bare_eq_self ignoresAnalysis_flattenStep (h.imp fun _ => flattenStep_of_isFlat)

end Expr

end Isolate
