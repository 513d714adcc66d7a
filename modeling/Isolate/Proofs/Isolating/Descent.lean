import Isolate.Proofs.Isolating.Inversion
import Isolate.Proofs.Settling.Lasting
import Mathlib.Data.Prod.Lex

/-!
# A side that is undone loses weight

What a step leaves of a side is lighter than the side, but for two kinds of sides. A side that gets rid of its sign has
no further step. A constant over factors with the variable becomes one over these factors, which may weigh as much, and
has no further step either: it is the normal form of what is left (`Expr.tidy_inverted`).

* `Expr.Peels.descends`: the normal form of what a step leaves is lighter than the side, or not heavier and stuck.
* `Expr.Peels.avoids_apply`: what the step makes of the other side has no variables but those of that side.
-/

namespace Isolate

open Isolate.Expr (load bare IsLeftBy)

namespace Expr

variable {e p r b : Expr} {es : List Expr} {ts : List (Ratio Expr)} {t : Ratio Expr} {name template : String}
  {step : Step} {f g : Expr → Expr}

/-! ## The other side -/

theorem avoids_of_mem_moved (h : e ∈ es.filter isMoved) (name : String) : e.Avoids name := by
  have hm := (List.mem_filter.mp h).2
  rw [isMoved, Bool.and_eq_true, Bool.not_eq_true', Bool.not_eq_true'] at hm
  exact avoids_of_not_isVarying hm.2 name

/-- **A step brings no variables to the other side.** -/
theorem Peels.avoids_apply (h : Peels template e step p) (hb : b.Avoids name) (s : Sign) :
    (step.apply s b).Avoids name := by
  have hother : (⟨b.sign * s, b.shape, none⟩ : Expr).Avoids name := hb.of_shape rfl
  cases h with
  | call hshape =>
    refine avoids_iff.mpr ⟨by simp [Step.apply, Expr.call, ofShape], fun a ha => ?_⟩
    rw [List.mem_singleton.mp ha]
    exact hother
  | @ratio t hshape hmoved =>
    refine avoids_sum.mpr (List.forall_mem_singleton.mpr fun a ha => ?_)
    simp only [Ratio.factors, Ratio.moved, List.mem_append, List.mem_singleton] at ha
    rcases ha with (ha | rfl) | ha
    · exact avoids_of_mem_moved ha name
    · exact hother
    · exact avoids_of_mem_moved ha name
  | @terms ts hshape hmoved =>
    refine avoids_sum.mpr (List.forall_mem_cons.mpr ⟨Ratio.avoids_of.mpr hother, fun u hu => ?_⟩)
    obtain ⟨t, ht, rfl⟩ := List.mem_map.mp hu
    exact (Ratio.avoids_of_not_isVarying (by simpa using (List.mem_filter.mp ht).2) name).neg
  | minus => exact hother

/-! ## Parts of a side -/

theorem load_parted (es : List Expr) : load (es.filter isMoved) + load (es.filter isVarying) ≤ load es := by
  induction es with
  | nil => rfl
  | cons e es ih =>
    rw [List.filter_cons, List.filter_cons, load_cons]
    cases hv : e.isVarying <;> cases ho : e.isOne <;> simp [isMoved, hv, ho] <;> omega

theorem termsWeight_parted (ts : List (Ratio Expr)) :
    termsWeight (ts.filter fun t => !t.isVarying) + termsWeight (ts.filter Ratio.isVarying) = termsWeight ts := by
  induction ts with
  | nil => rfl
  | cons t ts ih =>
    rw [List.filter_cons, List.filter_cons, termsWeight_cons]
    cases ht : t.isVarying <;> simp <;> omega

theorem weight_lt_of_call {a : Expr} (hshape : e.shape = .call name [a]) : a.weight < e.weight := by
  have hbase := e.shape.two_le_base
  have hside := weight_eq e
  rw [children, hshape, Shape.children, load_cons, load_nil] at hside
  rw [hshape] at hbase
  omega

theorem weight_sum_kept (hmoved : t.moved.factors ≠ []) (hkept : t.kept.numerator ≠ []) :
    (sum [t.kept]).weight < 3 + t.weight := by
  have hn := load_parted t.numerator
  have hd := load_parted t.denominator
  have hm := two_le_load hmoved
  simp only [Ratio.moved, Ratio.factors, load_append] at hm
  have hk : t.kept.weight = 1 + (load (t.numerator.filter isVarying) + load (t.denominator.filter isVarying)) := by
    rw [Ratio.weight, Ratio.base, Ratio.factors, load_append, if_neg (by simpa using hkept)]
    rfl
  have ht := t.weight_eq
  rw [sum, ofShape, weight_sum, termsWeight_cons, termsWeight_nil]
  omega

theorem weight_sum_varying (hmoved : movedTerms ts ≠ []) :
    (sum (ts.filter Ratio.isVarying)).weight < 3 + termsWeight ts := by
  have hparted := termsWeight_parted ts
  have hne : 3 ≤ termsWeight (ts.filter fun t => !t.isVarying) := by
    cases hc : ts.filter fun t => !t.isVarying with
    | nil => simp [movedTerms, hc] at hmoved
    | cons u us =>
      have := u.three_le_weight
      rw [termsWeight_cons]
      omega
  rw [sum, ofShape, weight_sum]
  omega

/-! ## One over factors with a variable -/

/-- A pass at a node whose operands are left by its step. -/
theorem IsBottomUp.bare_of_children (hg : IsBottomUp f g) (hf : IgnoresAnalysis f)
    (h : ∀ a ∈ e.children, a.Everywhere (IsLeftBy f)) : (g e).bare = (f e).bare :=
  hg.bare_step hf fun a ha => hg.bare_eq_self hf (h a ha)

/-- Factors of a denominator that nothing changes. -/
structure IsSteady (ds : List Expr) : Prop where
  ne_nil : ds ≠ []
  left : ∀ d ∈ ds, d.Everywhere IsLeft
  sign : ∀ d ∈ ds, d.sign = .pos
  number : ∀ d ∈ ds, d.number? = none
  flat : ∀ d ∈ ds, d.termCount? ≠ some 1

namespace IsSteady

variable {ds : List Expr}

theorem divisor (h : IsSteady ds) : ∀ d ∈ ds, d.divisor? = none := fun d hd => by rw [divisor?, h.number d hd]; rfl

/-- The monomial of one over the factors. -/
theorem isReduced (h : IsSteady ds) : (⟨1, [], ds⟩ : Monomial).IsReduced where
  unsigned := h.sign
  numbers e he := by cases he
  divisors := h.divisor
  cancelled := cancel_eq_self fun d _ => rfl

theorem toRatio (ds : List Expr) : (⟨1, [], ds⟩ : Monomial).toRatio = ⟨[.number 1], ds⟩ := by
  simp [Monomial.toRatio]

theorem split_nil (h : IsSteady ds) : (⟨[], ds⟩ : Ratio Expr).split = ⟨1, [], ds⟩ := by
  have hfilter : (ds.filter fun e => e.divisor?.isNone) = ds :=
    List.filter_eq_self.mpr fun d hd => by rw [h.divisor d hd]; rfl
  have hnumbers : ds.filterMap divisor? = [] := List.filterMap_eq_nil_iff.mpr h.divisor
  rw [Ratio.split, Ratio.sign_eq, Ratio.magnitude_eq]
  simp only [hfilter, hnumbers, Expr.map_abs_of_pos h.sign, signOf_eq_pos h.sign]
  simp [signOf, Sign.apply]

theorem split_one (h : IsSteady ds) : (⟨[.number 1], ds⟩ : Ratio Expr).split = ⟨1, [], ds⟩ := by
  rw [← toRatio]
  exact Monomial.split_toRatio h.isReduced one_ne_zero

/-- Both ways to write the ratio are reduced to one. -/
theorem collect (h : IsSteady ds) (hsplit : t.split = ⟨1, [], ds⟩) :
    Ratio.collect ([t].map Ratio.reduce) = [⟨[.number 1], ds⟩] := by
  have hreduce : t.reduce = ⟨[.number 1], ds⟩ := by rw [Ratio.reduce, hsplit, h.isReduced.reduce_eq, toRatio]
  rw [List.map_singleton, hreduce, Ratio.collect_eq, List.map_singleton, h.split_one]
  show [(⟨1, [], ds⟩ : Monomial).toRatio] = _
  rw [toRatio]

theorem isFlat (h : IsSteady ds) {ns : List Expr} (hn : ∀ a ∈ ns, a.termCount? = none) :
    (sum [⟨ns, ds⟩]).IsFlat := by
  rintro ts ⟨⟩
  refine ⟨List.forall_mem_singleton.mpr ⟨fun a ha => ?_, ?_⟩, ?_⟩
  · rcases List.mem_append.mp ha with ha | ha
    · rw [hn a ha]
      simp
    · exact h.flat a ha
  · rintro a ⟨⟩
    exact absurd rfl h.ne_nil
  · rintro a ⟨⟩
    exact absurd rfl h.ne_nil

/-- One over the factors is in canonical shape. -/
theorem isCanonical (h : IsSteady ds) : (sum [⟨[.number 1], ds⟩]).IsCanonical := by
  have hflat := h.isFlat (List.forall_mem_singleton.mpr (show (Expr.number 1).termCount? = none from rfl)) _ rfl
  have hreduced := Monomial.isReduced_toRatio h.isReduced one_ne_zero
  rw [toRatio] at hreduced
  rintro ts ⟨⟩
  exact ⟨List.cons_ne_nil _ _, hflat.2, hflat.1, List.forall_mem_singleton.mpr hreduced, List.pairwise_singleton _ _⟩

theorem everywhere_isLeft (h : IsSteady ds) : (sum [⟨[.number 1], ds⟩]).Everywhere IsLeft := by
  refine everywhere_iff.mpr ⟨h.isCanonical.isLeft, fun a ha => ?_⟩
  have hmem : a = .number 1 ∨ a ∈ ds := by
    simpa [children, sum, ofShape, Shape.children, Ratio.factors] using ha
  rcases hmem with rfl | ha
  · refine everywhere_iff.mpr ⟨⟨?_, rfl, rfl, rfl⟩, fun b hb => ?_⟩
    · rintro ts ⟨⟩
    · cases hb
  · exact h.left a ha

/-- **Nothing over the factors becomes one over the factors**, and a further round leaves that. -/
theorem tidy_inverted (h : IsSteady ds) : (sum [⟨[], ds⟩]).tidy = (sum [⟨[.number 1], ds⟩]).analyze ∧
    (sum [⟨[.number 1], ds⟩]).analyze.tidy = (sum [⟨[.number 1], ds⟩]).analyze := by
  have hleft := h.everywhere_isLeft
  have hsame : ∀ {f g : Expr → Expr}, IsBottomUp f g → IgnoresAnalysis f → (∀ a : Expr, a.IsLeft → IsLeftBy f a) →
      ∀ a : Expr, a.bare = (sum [⟨[.number 1], ds⟩]).bare → (g a).bare = (sum [⟨[.number 1], ds⟩]).bare := by
    intro f g hg hf hl a ha
    rw [(hg.ignoresAnalysis hf).congr ha]
    exact hg.bare_eq_self hf (hleft.imp hl)
  have hchildren : ∀ a ∈ (sum [⟨[], ds⟩]).children, a.Everywhere IsLeft := by
    intro a ha
    exact h.left a (by simpa [children, sum, ofShape, Shape.children, Ratio.factors] using ha)
  have hflatten : (sum [⟨[], ds⟩]).flatten.bare = (sum [⟨[], ds⟩]).bare :=
    ((isBottomUp_rebuildUp flattenStep).bare_of_children ignoresAnalysis_flattenStep fun a ha =>
      (hchildren a ha).imp fun _ hl => flattenStep_of_isFlat hl.flat).trans
        (flattenStep_of_isFlat (h.isFlat (List.forall_mem_nil _)))
  have hreduced : ((sum [⟨[], ds⟩]).flatten.analyze.editUp reduceStep .all).bare = (sum [⟨[.number 1], ds⟩]).bare := by
    rw [((isBottomUp_editUp reduceStep).ignoresAnalysis ignoresAnalysis_reduceStep).congr
      ((bare_analyze _).trans hflatten)]
    rw [(isBottomUp_editUp reduceStep).bare_of_children ignoresAnalysis_reduceStep fun a ha =>
      (hchildren a ha).imp fun _ hl => hl.reduce]
    simp only [reduceStep, sum, ofShape, h.collect h.split_nil]
  refine ⟨analyze_congr ?_, tidy_of_everywhere_isLeft hleft⟩
  rw [simplified, bare_analyze]
  refine hsame (isBottomUp_rebuildUp neutralStep) ignoresAnalysis_neutralStep (fun _ hl => hl.neutral) _ ?_
  exact hsame (isBottomUp_editUp dropUnits) ignoresAnalysis_dropUnits (fun _ hl => hl.drop) _
    ((bare_analyze _).trans hreduced)

end IsSteady

/-! ## Taking a step -/

/-- The varying factors below the bar of a term that has none above it. -/
theorem isSteady_denominator (he : e.tidy = e) (hshape : e.shape = .sum [t]) (hvary : e.isVarying = true)
    (hnone : t.kept.numerator = []) : IsSteady t.kept.denominator := by
  have hleft := everywhere_isLeft he
  have hnode := (everywhere_iff.mp hleft).1
  have hcanonical := hnode.isCanonical [t] hshape
  have hflat := hcanonical.flat t List.mem_cons_self
  have hsub : ∀ d ∈ t.kept.denominator, d ∈ t.denominator ∧ d.isVarying = true := fun d hd => List.mem_filter.mp hd
  have hfactor : ∀ d ∈ t.kept.denominator, d ∈ t.factors := fun d hd => List.mem_append_right _ (hsub d hd).1
  refine ⟨fun hnil => ?_, fun d hd => ?_, fun d hd => ?_, fun d hd => ?_, fun d hd => hflat.1 d (hfactor d hd)⟩
  · -- a side without varying factors has no variable
    obtain ⟨name, hocc⟩ := isVarying_iff.mp hvary
    refine hocc (avoids_iff.mpr ⟨by simp [hshape], fun a ha => ?_⟩)
    rw [children, hshape] at ha
    refine avoids_of_not_isVarying (Bool.eq_false_iff.mpr fun hv => ?_) name
    have hmem : a ∈ t.numerator ++ t.denominator := by simpa [Shape.children, Ratio.factors] using ha
    rcases List.mem_append.mp hmem with ha | ha
    · exact List.filter_eq_nil_iff.mp hnone a ha hv
    · exact List.filter_eq_nil_iff.mp hnil a ha hv
  · exact (everywhere_iff.mp hleft).2 d (mem_children_of_mem_factors hshape List.mem_cons_self (hfactor d hd))
  · exact (hcanonical.reduced t List.mem_cons_self).signs d (List.mem_append_right _ (hsub d hd).1)
  · cases hn : d.number? with
    | none => rfl
    | some q =>
      have hconstant : d.isVarying = false := by
        refine not_isVarying_of_number (q := q) ?_
        unfold number? at hn
        split at hn
        · rename_i hq
          rw [hq, Option.some.inj hn]
        · cases hn
      rw [(hsub d hd).2] at hconstant
      cases hconstant

/-- One over factors with the variable has no step. -/
theorem inversion_inverted {ds : List Expr} (ha : ∀ d ∈ ds, d.analyze = d) (honly : ∀ d ∈ ds, d.HasOnly name)
    (hvary : ∀ d ∈ ds, d.isVarying = true) : (sum [⟨[.number 1], ds⟩]).analyze.inversion template = .ok none := by
  have hone : (number 1).analyze.isOne = true := rfl
  have hds : ds.map analyze = ds := (List.map_congr_left ha).trans (List.map_id ds)
  have hshape : (sum [⟨[.number 1], ds⟩]).analyze.shape = .sum [⟨[(number 1).analyze], ds⟩] := by
    rw [analyze_eq]
    show Shape.sum [⟨[(number 1).analyze], ds.map analyze⟩] = _
    rw [hds]
  have hfactors : ∀ a ∈ (⟨[(number 1).analyze], ds⟩ : Ratio Expr).factors, a.analyze = a ∧ a.HasOnly name := by
    refine List.forall_mem_cons.mpr ⟨⟨analyze_analyze _, fun n _ => avoids_of_number (q := 1) rfl⟩, fun a hmem => ?_⟩
    exact ⟨ha a hmem, honly a hmem⟩
  have hmoved : (⟨[(number 1).analyze], ds⟩ : Ratio Expr).moved.factors = [] := by
    have hd : ds.filter isMoved = [] := List.filter_eq_nil_iff.mpr fun d hd => by simp [isMoved, hvary d hd]
    simp [Ratio.moved, Ratio.factors, hd, isMoved, hone]
  have hstuck : invertShape template (.sum [⟨[(number 1).analyze], ds⟩]) = .ok none := by
    rw [invertShape, invertRatio_eq (fun a hm => (hfactors a hm).1) fun a hm => (hfactors a hm).2, hmoved]
    rfl
  have hsign : (sum [⟨[.number 1], ds⟩]).analyze.sign = .pos := by rw [analyze_eq]; rfl
  rw [inversion_of_stuck (analyze_analyze _) (hshape ▸ hstuck), hsign]
  rfl

/-- The weight of a sum by its terms. -/
theorem weight_of_sum (hshape : e.shape = .sum ts) : e.weight = 3 + termsWeight ts := by
  rw [weight_of_shape (show e.shape = (⟨.pos, .sum ts, none⟩ : Expr).shape from hshape), weight_sum]

theorem analyze_of_tidy (he : e.tidy = e) : e.analyze = e := by
  rw [← he]
  exact analyze_tidy e

/-- The normal form of what is left of constants over factors with the variable. -/
theorem IsNormalOf.eq_inverted (he : e.tidy = e) (hvary : e.isVarying = true) (hshape : e.shape = .sum [t])
    (hnone : t.kept.numerator = []) (hr : r.IsNormalOf (sum [t.kept])) :
    r = (sum [⟨[.number 1], t.kept.denominator⟩]).analyze := by
  obtain ⟨htidy, hfixed⟩ := (isSteady_denominator he hshape hvary hnone).tidy_inverted
  rw [← htidy]
  rw [show t.kept = ⟨[], t.kept.denominator⟩ by rw [← hnone]] at hr
  exact hr.eq_tidy (by rw [htidy, hfixed])

/-- Constants over factors with the variable leave one over these factors, which has no step. -/
theorem stuck_of_inverted (he : e.tidy = e) (honly : e.HasOnly name) (hvary : e.isVarying = true)
    (hshape : e.shape = .sum [t]) (hnone : t.kept.numerator = []) (hr : r.IsNormalOf (sum [t.kept])) :
    r.weight ≤ e.weight ∧ r.inversion template = .ok none := by
  rw [hr.eq_inverted he hvary hshape hnone]
  constructor
  · have hcanonical := (everywhere_iff.mp (everywhere_isLeft he)).1.isCanonical [t] hshape
    have hn := two_le_load (hcanonical.reduced t List.mem_cons_self).numerator_ne_nil
    have hd := load_parted t.denominator
    have hone : (number 1).weight = 2 := Monomial.weight_number 1
    have ht := t.weight_eq
    have hu : (⟨[.number 1], t.kept.denominator⟩ : Ratio Expr).weight = 3 + load (t.denominator.filter isVarying) := by
      rw [Ratio.weight_eq, load_cons, load_nil, hone]
      show 1 + 0 + (2 + 0 + load (t.denominator.filter isVarying)) = _
      omega
    have hside := weight_of_sum hshape
    rw [termsWeight_cons, termsWeight_nil] at hside
    rw [weight_analyze, sum, ofShape, weight_sum, termsWeight_cons, termsWeight_nil, hu]
    omega
  · obtain ⟨haf, hof⟩ := factors_of_analyze (analyze_of_tidy he) honly hshape List.mem_cons_self
    have hsub : ∀ d ∈ t.kept.denominator, d ∈ t.factors := fun d hd =>
      List.mem_append_right _ (List.mem_filter.mp hd).1
    exact inversion_inverted (fun d hd => haf d (hsub d hd)) (fun d hd => hof d (hsub d hd))
      fun d hd => (List.mem_filter.mp hd).2

/-- A side that gets rid of its sign has no further step. -/
theorem stuck_of_minus (he : e.tidy = e) (hstuck : invertShape template e.shape = .ok none) (hr : r.IsNormalOf e.abs) :
    r.weight ≤ e.weight ∧ r.inversion template = .ok none := by
  have habs := analyze_abs (analyze_of_tidy he)
  have hshape : e.shape = e.abs.shape := rfl
  have hleft : e.abs.Everywhere IsLeft :=
    everywhere_of_shape (fun hs hl => hl.of_shape hs) hshape (everywhere_isLeft he)
  have hfixed : e.abs.tidy = e.abs := by
    rw [← habs]
    exact tidy_of_everywhere_isLeft hleft
  rw [hr.eq_tidy (by rw [hfixed, hfixed]), hfixed]
  exact ⟨le_of_eq e.weight_abs, inversion_of_stuck habs hstuck⟩

/-- **The normal form of what a step leaves is lighter than the side, or not heavier and stuck.** -/
theorem Peels.descends (h : Peels template e step p) (he : e.tidy = e) (honly : e.HasOnly name)
    (hvary : e.isVarying = true) (hr : r.IsNormalOf p) :
    r.weight < e.weight ∨ r.weight ≤ e.weight ∧ r.inversion template = .ok none := by
  have hweight := hr.weight_le
  cases h with
  | call hshape => exact .inl (hweight.trans_lt (weight_lt_of_call hshape))
  | @ratio t hshape hmoved =>
    by_cases hnone : t.kept.numerator = []
    · exact .inr (stuck_of_inverted he honly hvary hshape hnone hr)
    · have hside := weight_of_sum hshape
      have hkept := weight_sum_kept hmoved hnone
      rw [termsWeight_cons, termsWeight_nil] at hside
      exact .inl (by omega)
  | terms hshape hmoved =>
    have hside := weight_of_sum hshape
    have hkept := weight_sum_varying hmoved
    exact .inl (by omega)
  | minus hsign hstuck => exact .inr (stuck_of_minus he hstuck hr)

/-- What is still to be done at a side: its weight, and whether there is a step. -/
def burden (template : String) (e : Expr) : Nat :=
  2 * e.weight + match e.inversion template with
    | .ok (some _) => 1
    | _ => 0

theorem burden_lt {found : Inversion} (h : Peels template e step p) (he : e.tidy = e) (honly : e.HasOnly name)
    (hvary : e.isVarying = true) (hfound : e.inversion template = .ok (some found)) (hr : r.IsNormalOf p) :
    r.burden template < e.burden template := by
  have hle : r.burden template ≤ 2 * r.weight + 1 := by
    unfold burden
    split <;> omega
  have hside : e.burden template = 2 * e.weight + 1 := by rw [burden, hfound]
  rcases h.descends he honly hvary hr with hlt | ⟨hweight, hstuck⟩
  · omega
  · have hnone : r.burden template = 2 * r.weight := by rw [burden, hstuck]; rfl
    omega

end Expr

namespace Equation

variable {q r : Equation} {template : String} {target : Option String}

/-- All sides are left by a round. -/
def IsSettled (q : Equation) : Prop := ∀ e ∈ q.sides, e.tidy = e

/-- What is still to be done at two sides: that of the side that is worked on, where the first one comes before the
second. -/
def burden (template : String) (target : Option String) (q : Equation) : Nat ×ₗ Nat :=
  match q.sides with
  | [a, b] =>
    if a.holds target then toLex (2, a.burden template)
    else if b.holds target then toLex (1, b.burden template)
    else toLex (0, 0)
  | _ => toLex (0, 0)

/-- What the sides of an equation are related to, side by side. -/
theorem forall₂_sided {R : Expr → Expr → Prop} {first : Bool} {a b : Expr}
    (h : List.Forall₂ R (sided first a b).sides r.sides) : ∃ c d, r = sided first c d ∧ R a c ∧ R b d := by
  obtain ⟨sides⟩ := r
  cases first with
  | true =>
    match sides, h with
    | [c, d], .cons hac (.cons hbd .nil) => exact ⟨c, d, rfl, hac, hbd⟩
  | false =>
    match sides, h with
    | [d, c], .cons hbd (.cons hac .nil) => exact ⟨c, d, rfl, hac, hbd⟩

/-- **After a step there is less to be done.** -/
theorem burden_lt {first : Bool} {a b a' b' p : Expr} {name : String} {found : Inversion}
    (hq : (sided first a b).IsSettled) (hold : a.holds target = true) (hfirst : first = false → b.holds target = false)
    (honly : a.HasOnly name) (hfound : a.inversion template = .ok (some found)) (hpeels : a.Peels template found.step p)
    (ha : a'.IsNormalOf p) (hb : b'.IsNormalOf (found.step.apply a.sign b)) :
    (sided first a' b').burden template target < (sided first a b).burden template target := by
  have hlt := Expr.burden_lt hpeels (forall_sided.mp hq).1 honly (Expr.isVarying_of_holds hold) hfound ha
  cases first with
  | true =>
    have hbefore : (sided true a b).burden template target = toLex (2, a.burden template) := by
      simp [burden, sided, hold]
    rw [hbefore]
    show (if a'.holds target then toLex (2, a'.burden template) else
      if b'.holds target then toLex (1, b'.burden template) else toLex (0, 0)) < _
    split
    · exact Prod.Lex.toLex_lt_toLex.mpr (.inr ⟨rfl, hlt⟩)
    · split
      · exact Prod.Lex.toLex_lt_toLex.mpr (.inl Nat.one_lt_two)
      · exact Prod.Lex.toLex_lt_toLex.mpr (.inl Nat.two_pos)
  | false =>
    -- the first side has no target, and it gets none
    have hother : b'.holds target = false := Expr.holds_eq_false_iff.mpr fun name hn =>
      hb.keeps Expr.Avoids.tidy (hpeels.avoids_apply (Expr.holds_eq_false_iff.mp (hfirst rfl) name hn) _)
    have hbefore : (sided false a b).burden template target = toLex (1, a.burden template) := by
      simp [burden, sided, hold, hfirst rfl]
    rw [hbefore]
    show (if b'.holds target then toLex (2, b'.burden template) else
      if a'.holds target then toLex (1, a'.burden template) else toLex (0, 0)) < _
    rw [hother, if_neg Bool.false_ne_true]
    split
    · exact Prod.Lex.toLex_lt_toLex.mpr (.inr ⟨rfl, hlt⟩)
    · exact Prod.Lex.toLex_lt_toLex.mpr (.inl Nat.one_pos)

end Equation

end Isolate
