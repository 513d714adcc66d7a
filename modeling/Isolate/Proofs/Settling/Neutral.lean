import Isolate.Proofs.Settling.Weight
import Isolate.Proofs.Tree.Bare

/-!
# Dropping what is neutral

Both steps that drop something lighten (`lightens_dropUnits`, `lightens_neutralStep`): a one weighs two, and where the
last ones of a numerator go there were two of them at least, which makes up for the numerator that is then empty.

* `not_isZeroTerm_of_neutralStep`: a node that is left when neutral terms are dropped has no term that is zero.
-/

namespace Isolate

open Isolate.Expr (load)

/-! ## Lists of terms -/

variable {f : Ratio Expr → Ratio Expr} {p : Ratio Expr → Bool}

theorem termsWeight_map (hf : ∀ t, f t = t ∨ (f t).weight < t.weight) (ts : List (Ratio Expr)) :
    ts.map f = ts ∨ termsWeight (ts.map f) < termsWeight ts := by
  induction ts with
  | nil => exact .inl rfl
  | cons t ts ih =>
    rw [List.map_cons, termsWeight_cons, termsWeight_cons]
    rcases hf t with ht | ht <;> rcases ih with hts | hts
    · exact .inl (by rw [ht, hts])
    · rw [ht]
      exact .inr (by omega)
    · rw [hts]
      exact .inr (by omega)
    · exact .inr (by omega)

theorem termsWeight_filter (ts : List (Ratio Expr)) :
    ts.filter p = ts ∨ termsWeight (ts.filter p) < termsWeight ts := by
  induction ts with
  | nil => exact .inl rfl
  | cons t ts ih =>
    have := t.three_le_weight
    rw [List.filter_cons, termsWeight_cons]
    split
    · rcases ih with h | h
      · exact .inl (by rw [h])
      · exact .inr (by rw [termsWeight_cons]; omega)
    · rcases ih with h | h
      · rw [h]
        exact .inr (by omega)
      · exact .inr (by omega)

namespace Expr

/-! ## Units below the bar -/

theorem dropUnit_eq_self_or (t : Ratio Expr) : dropUnit t = t ∨ (dropUnit t).weight < t.weight := by
  obtain ⟨ns, ds⟩ := t
  unfold dropUnit
  split
  · rename_i d hd
    obtain rfl : ds = [d] := hd
    split
    · refine .inr ?_
      have := d.two_le_weight
      simp only [Ratio.weight, Ratio.base, Ratio.factors, load_append, load_cons, load_nil]
      omega
    · exact .inl rfl
  · exact .inl rfl

theorem lightens_dropUnits : Lightens dropUnits := fun e => by
  obtain ⟨s, b, c⟩ := e
  unfold dropUnits
  split
  · rename_i ts hb
    obtain rfl : b = .sum ts := hb
    rcases termsWeight_map dropUnit_eq_self_or ts with h | h
    · exact .inl (by rw [h])
    · refine .inr ?_
      rw [weight_sum, weight_sum]
      omega
  · exact .inl rfl

/-! ## Ones among factors -/

theorem load_filter_isOne (es : List Expr) :
    (es.filter fun e => !e.isOne) = es ∨ load (es.filter fun e => !e.isOne) < load es := by
  induction es with
  | nil => exact .inl rfl
  | cons e es ih =>
    have := e.two_le_weight
    rw [List.filter_cons, load_cons]
    split
    · rcases ih with h | h
      · exact .inl (by rw [h])
      · exact .inr (by rw [load_cons]; omega)
    · rcases ih with h | h
      · rw [h]
        exact .inr (by omega)
      · exact .inr (by omega)

theorem withoutOnes_eq_self_or (es : List Expr) : withoutOnes es = es ∨ load (withoutOnes es) < load es := by
  unfold withoutOnes
  split
  · exact .inl rfl
  · exact load_filter_isOne es

theorem load_withoutOnes_le (es : List Expr) : load (withoutOnes es) ≤ load es := by
  rcases withoutOnes_eq_self_or es with h | h
  · rw [h]
  · exact h.le

/-- The last ones to go were two at least. -/
theorem four_le_load_of_withoutOnes {es : List Expr} (h : withoutOnes es = []) (hne : es ≠ []) : 4 ≤ load es := by
  match es with
  | [] => exact absurd rfl hne
  | [e] => cases h
  | a :: b :: es =>
    have := a.two_le_weight
    have := b.two_le_weight
    simp only [load_cons]
    omega

/-- A term without the ones among its factors. -/
def dropOnes (t : Ratio Expr) : Ratio Expr := ⟨withoutOnes t.numerator, withoutOnes t.denominator⟩

theorem dropOnes_eq_self_or (t : Ratio Expr) : dropOnes t = t ∨ (dropOnes t).weight < t.weight := by
  obtain ⟨ns, ds⟩ := t
  have hw : ∀ ms es : List Expr,
      (⟨ms, es⟩ : Ratio Expr).weight = (1 + if ms.isEmpty then 3 else 0) + (load ms + load es) :=
    fun ms es => by rw [Ratio.weight, Ratio.base, Ratio.factors, load_append]
  simp only [dropOnes, hw]
  rcases withoutOnes_eq_self_or ns with hn | hn
  · rcases withoutOnes_eq_self_or ds with hd | hd
    · exact .inl (by rw [hn, hd])
    · rw [hn]
      exact .inr (by omega)
  · have hd := load_withoutOnes_le ds
    have hne : ns ≠ [] := fun h => by subst h; exact absurd hn (by decide)
    refine .inr ?_
    rw [if_neg (show ¬ns.isEmpty = true by simpa using hne)]
    split
    · rename_i h
      have h0 : withoutOnes ns = [] := by simpa using h
      have := four_le_load_of_withoutOnes h0 hne
      rw [h0, load_nil]
      omega
    · omega

/-! ## Neutral terms -/

theorem neutralStep_sum (s : Sign) (ts : List (Ratio Expr)) (c : Option Summary) :
    neutralStep ⟨s, .sum ts, c⟩ =
      match ts.filter fun t => !isZeroTerm t with
      | [] => .number 0
      | us => ⟨s, .sum (us.map dropOnes), none⟩ := rfl

theorem lightens_neutralStep : Lightens neutralStep := fun e => by
  obtain ⟨s, b, c⟩ := e
  cases b with
  | sum ts =>
    rw [neutralStep_sum, weight_sum]
    split
    · refine .inr ?_
      rw [weight_eq]
      simp [number, ofShape, Shape.base, children, Shape.children]
      omega
    · rw [weight_sum]
      have hf := termsWeight_filter (p := fun t => !isZeroTerm t) ts
      have hm := termsWeight_map dropOnes_eq_self_or (ts.filter fun t => !isZeroTerm t)
      rcases hm with hm | hm <;> rcases hf with hf | hf
      · exact .inl (by rw [hm, hf]; simp)
      · rw [hm]
        exact .inr (by omega)
      · rw [hf] at hm ⊢
        exact .inr (by omega)
      · exact .inr (by omega)
  | _ => exact .inl rfl

/-- A node that is left when neutral terms are dropped has no term that is zero. -/
theorem not_isZeroTerm_of_neutralStep {e : Expr} (h : (neutralStep e).bare = e.bare) {ts : List (Ratio Expr)}
    (hts : e.shape = .sum ts) : ∀ t ∈ ts, isZeroTerm t = false := by
  obtain ⟨s, b, c⟩ := e
  obtain rfl : b = .sum ts := hts
  rw [neutralStep_sum] at h
  split at h
  · simp [number, ofShape, Shape.map] at h
  · have hlen : (ts.filter fun t => !isZeroTerm t).length = ts.length := by
      simp only [bare_mk, Shape.map, mk.injEq, Shape.sum.injEq] at h
      simpa using congrArg List.length h.2.1
    intro t ht
    simpa using List.length_filter_eq_length_iff.mp hlen t ht

end Expr

end Isolate
