import Isolate.Proofs.Isolating.Descent
import Isolate.Proofs.Isolating.Wrapped

/-!
# Undoing wrappings

A settled wrapping is the variable itself, or there is a step that undoes it (`Expr.exists_inversion`): factors that are
numbers are not one, and where there are two terms or more, all but one are constant. What a step leaves is a wrapping
again, and differs from the side by its weight or its sign (`Expr.Peels.unwraps`).

* `Equation.applyInverse_wraps`: an isolation step at a settled wrapping peels it, unless it is the variable.
* `Equation.weight_eq_of_isLike`: sides that are like each other have the same weight and the same sign.
-/

namespace Isolate

open Isolate.Expr (Wraps)

/-! ## What varies -/

theorem Expr.IsNumeral.isVarying {e : Expr} (h : e.IsNumeral) : e.isVarying = false := by
  obtain ⟨v, hv⟩ := h
  exact not_isVarying_of_number hv

theorem Expr.Wraps.isVarying {e : Expr} {x : String} (h : e.Wraps x) : e.isVarying = true :=
  isVarying_iff.mpr ⟨x, h.not_avoids⟩

theorem Expr.Wraps.holds {e : Expr} {x : String} (h : e.Wraps x) : e.holds (some x) = true := by
  by_contra hno
  exact h.not_avoids (holds_eq_false_iff.mp (Bool.eq_false_iff.mpr hno) x fun n hn => (Option.some.inj hn).symm)

namespace Ratio

variable {x : String} {t : Ratio Expr}

theorem Carries.isVarying (h : t.Carries (Wraps x)) : t.isVarying = true := by
  obtain ⟨a, ha, hwraps, -⟩ := h.numerator.exists_eq
  exact List.any_eq_true.mpr ⟨a, List.mem_append_left _ ha, hwraps.isVarying⟩

theorem IsConstant.isVarying (h : t.IsConstant) : t.isVarying = false :=
  List.any_eq_false.mpr fun a ha => by rw [(h.isNumeral a ha).isVarying]; exact Bool.false_ne_true

/-- Of the factors, the wrapping alone is kept. -/
theorem Carries.kept (h : t.Carries (Wraps x)) : ∃ a, t.kept = ⟨[a], []⟩ ∧ a.Wraps x := by
  obtain ⟨a, ha, hwraps⟩ := h.numerator.filter_eq (fun _ => Wraps.isVarying) fun _ hb => hb.isNumeral.isVarying
  refine ⟨a, ?_, hwraps⟩
  rw [Ratio.kept, ha, List.filter_eq_nil_iff.mpr fun d hd => by
    rw [(h.denominator d hd).isNumeral.isVarying]; exact Bool.false_ne_true]

end Ratio

namespace Expr

variable {x template : String} {e p : Expr} {t : Ratio Expr} {ts : List (Ratio Expr)} {step : Step}

/-! ## There is a step -/

/-- A number other than one is moved. -/
theorem isMoved_of_number {v : Rat} (h : e.shape = .number v) (hne : v ≠ 1) : e.isMoved = true := by
  have hone : e.isOne = false := by
    rw [Bool.eq_false_iff]
    intro hone
    rw [shape_of_isOne hone] at h
    cases h
    exact hne rfl
  rw [isMoved, hone, not_isVarying_of_number h]
  rfl

/-- A settled term with a wrapping has a number to be moved. -/
theorem moved_ne_nil (he : e.tidy = e) (hshape : e.shape = .sum [t]) (ht : t.Carries (Wraps x)) :
    t.moved.factors ≠ [] := by
  have hcanonical := (everywhere_iff.mp (everywhere_isLeft he)).1.isCanonical [t] hshape
  have hreduced := hcanonical.reduced t List.mem_cons_self
  obtain ⟨ns, ds⟩ := t
  cases ds with
  | cons d ds =>
    obtain ⟨v, hv, h0⟩ := ht.denominator d List.mem_cons_self
    obtain ⟨n, rfl, hn⟩ := hreduced.divisor d List.mem_cons_self v (by simp [divisor?, number?, hv, h0])
    have hmoved : d.isMoved = true := isMoved_of_number hv (by norm_cast; omega)
    exact List.ne_nil_of_mem (List.mem_append_left _ (List.mem_filter.mpr ⟨List.mem_cons_self, hmoved⟩))
  | nil =>
    by_cases hlen : 2 ≤ ns.length
    · obtain ⟨b, hb, v, hv, -⟩ := ht.numerator.exists_other hlen
      obtain ⟨n, rfl, -, hone⟩ := hreduced.number b hb v (by rw [number?, hv])
      have hne : n ≠ 1 := fun h1 => by
        have hlen1 : ns.length = 1 := hone h1
        omega
      have hmoved : b.isMoved = true := isMoved_of_number hv (by exact_mod_cast hne)
      exact List.ne_nil_of_mem (List.mem_append_right _ (List.mem_filter.mpr ⟨hb, hmoved⟩))
    · -- a term that is just one factor would be spliced
      have hpos := List.length_pos_iff.mpr ht.numerator.ne_nil
      obtain ⟨a, rfl⟩ := List.length_eq_one_iff.mp (show ns.length = 1 by simp only at hpos; omega)
      exact absurd rfl (hcanonical.not_factor a)

/-- A call with one argument can be undone. -/
theorem exists_invertCall (name : String) (a : Expr) :
    ∃ found, invertCall Config.default.placeholder name [a] = .ok found := by
  rw [invertCall, if_neg (by simp)]
  split
  · exact ⟨_, rfl⟩
  · rw [Template.fill_usual]
    exact ⟨_, rfl⟩

/-- A settled sum that wraps the variable can be undone. -/
theorem exists_invertShape_of_sum (he : e.tidy = e) (h : e.Wraps x) (hshape : e.shape = .sum ts) :
    ∃ found, invertShape template (.sum ts) = .ok (some found) := by
  have hts := (wraps_sum hshape).mp h
  have hfactors := fun u hu => factors_of_analyze (t := u) (analyze_of_tidy he) h.hasOnly hshape hu
  match ts with
  | [] => exact absurd rfl hts.ne_nil
  | [t] =>
    obtain ⟨hat, hot⟩ := hfactors t List.mem_cons_self
    have hmoved := moved_ne_nil he hshape (Lone.singleton.mp hts)
    rw [invertShape, invertRatio_eq hat hot, if_neg (by simpa using hmoved)]
    exact ⟨_, rfl⟩
  | t :: u :: ts =>
    obtain ⟨v, hv, hconstant⟩ := hts.exists_other (by simp)
    have hmoved : movedTerms (t :: u :: ts) ≠ [] := by
      rw [movedTerms, ne_eq, List.map_eq_nil_iff]
      exact List.ne_nil_of_mem (List.mem_filter.mpr ⟨hv, by rw [hconstant.isVarying]; rfl⟩)
    rw [invertShape, invertSum_eq fun v hv => (hfactors v hv).1, if_neg (by simpa using hmoved)]
    exact ⟨_, rfl⟩

/-- **A settled wrapping is the variable itself, or there is a step that undoes it.** -/
theorem exists_inversion (he : e.tidy = e) (h : e.Wraps x) :
    e.bare = .var x ∧ e.inversion Config.default.placeholder = .ok none ∨
      ∃ found, e.inversion Config.default.placeholder = .ok (some found) := by
  have ha := analyze_of_tidy he
  have hwraps := h
  cases h with
  | var hshape =>
    have hstuck : e.inversion Config.default.placeholder =
        .ok (if e.sign = .neg then some ⟨.negate, []⟩ else none) := inversion_of_stuck ha (by rw [hshape]; rfl)
    cases hsign : e.sign with
    | pos => exact .inl ⟨by rw [bare_eq, hsign, hshape]; rfl, by rw [hstuck, hsign]; rfl⟩
    | neg => exact .inr ⟨_, by rw [hstuck, if_pos hsign]⟩
  | @call e a name hshape _ =>
    obtain ⟨found, hfound⟩ := exists_invertCall name a
    exact .inr ⟨found, inversion_of_found ha (by rw [hshape, invertShape, hfound]; rfl)⟩
  | @sum e a t ts hshape _ _ _ =>
    obtain ⟨found, hfound⟩ := exists_invertShape_of_sum he hwraps hshape
    exact .inr ⟨found, inversion_of_found ha (by rw [hshape, hfound])⟩

/-! ## What a step leaves -/

/-- **A step leaves a wrapping**, which is lighter than the side or has another sign. -/
theorem Peels.unwraps (h : Peels template e step p) (hwraps : e.Wraps x) :
    p.Wraps x ∧ (p.weight < e.weight ∨ p.sign ≠ e.sign) := by
  cases h with
  | call hshape =>
    refine ⟨?_, .inl (weight_lt_of_call hshape)⟩
    cases hwraps with
    | var hs => rw [hshape] at hs; cases hs
    | call hs ha =>
      rw [hshape] at hs
      cases hs
      exact ha
    | sum hs => rw [hshape] at hs; cases hs
  | @ratio t hshape hmoved =>
    have ht := Lone.singleton.mp ((wraps_sum hshape).mp hwraps)
    obtain ⟨a, hkept, ha⟩ := ht.kept
    have hweight := weight_sum_kept hmoved (by rw [hkept]; exact List.cons_ne_nil _ _)
    refine ⟨(wraps_sum rfl).mpr (Lone.singleton.mpr (hkept ▸ .of ha)), .inl ?_⟩
    rw [weight_of_sum hshape, termsWeight_cons, termsWeight_nil]
    omega
  | @terms ts hshape hmoved =>
    obtain ⟨t, hvarying, ht⟩ := ((wraps_sum hshape).mp hwraps).filter_eq (fun _ => Ratio.Carries.isVarying)
      fun _ => Ratio.IsConstant.isVarying
    refine ⟨(wraps_sum rfl).mpr ?_, .inl ?_⟩
    · rw [hvarying]
      exact Lone.singleton.mpr ht
    · rw [weight_of_sum hshape]
      exact weight_sum_varying hmoved
  | minus hsign _ =>
    refine ⟨hwraps.of_shape rfl, .inr ?_⟩
    rw [hsign]
    exact Sign.noConfusion

end Expr

namespace Equation

variable {x : String} {first : Bool} {a b c d : Expr}

/-- Sides that are like each other have the same weight and the same sign. -/
theorem weight_eq_of_isLike (h : isLike .bijective (sided first a b) (sided first c d) = true) :
    a.weight = c.weight ∧ a.sign = c.sign := by
  obtain ⟨c', d', hsided, hac, -⟩ := forall₂_sided (alike_of_isLike h)
  obtain ⟨rfl, -⟩ : c = c' ∧ d = d' := by
    cases first <;> simpa [sided, and_comm] using hsided
  have harranged := Expr.alike_arrange (V := fun _ _ => True) (F := fun _ _ => True) (fun _ => trivial) fun _ => trivial
  constructor
  · rw [(harranged a).weight_eq, hac.weight_eq, ← (harranged c).weight_eq]
  · rw [(Expr.alike_iff.mp (harranged a)).1, (Expr.alike_iff.mp hac).1, ← (Expr.alike_iff.mp (harranged c)).1]

/-- **An isolation step at a settled wrapping** changes nothing if it is the variable, and else peels it. -/
theorem applyInverse_wraps (first : Bool) (ha : a.tidy = a) (hb : b.tidy = b) (hwraps : a.Wraps x)
    (hother : b.Avoids x) :
    ∃ done, (sided first a b).applyInverse Config.default.placeholder (some x) = .ok done ∧
      (done.equation = sided first a b ∧ a.bare = .var x ∨
        ∃ step p, done.equation = sided first p (step.apply a.sign b) ∧
          a.Peels Config.default.placeholder step p) := by
  have haa := Expr.analyze_of_tidy ha
  have hfree : b.holds (some x) = false :=
    Expr.holds_eq_false_iff.mpr fun name hname => hname x rfl ▸ hother
  rw [applyInverse_sided haa (Expr.analyze_of_tidy hb) hwraps.holds fun _ => hfree,
    if_neg (not_lt.mpr hwraps.hasOnly.length_le)]
  rcases Expr.exists_inversion ha hwraps with ⟨hvar, hnone⟩ | ⟨found, hfound⟩
  · rw [hnone]
    exact ⟨_, rfl, .inl ⟨rfl, hvar⟩⟩
  · obtain ⟨p, hp, hpeels⟩ := Expr.peels_of_inversion haa hwraps.hasOnly hfound
    rw [hfound]
    refine ⟨⟨sided first p (found.step.apply a.sign b), found.conditions, found.step.warnings⟩, ?_,
      .inr ⟨_, p, rfl, hpeels⟩⟩
    show (do return ⟨sided first (← found.step.peel a) (found.step.apply a.sign b), found.conditions,
      found.step.warnings⟩ : Except Fault Isolated) = _
    rw [hp]
    rfl

end Equation

end Isolate
