import Isolate.Proofs.Isolating.Found
import Isolate.Proofs.Meaning.Normalize

/-!
# An isolation step is an equivalence

A step can be taken back under an interpretation if the products of factors that its conditions name are not zero, and
if the function that it peels and the one that it calls undo each other (`Step.IsReversible`). Such a step keeps both
sides defined, and the sides are equal after it just if they were before (`Expr.Undoes.agrees`): factors and terms
are parted without loss (`product_partFactors`, `total_partTerms`), and the sign of the side that is undone goes to the
other side.

* `Equation.Equivalent`: the second equation is defined where the first one is, and holds there just if that one does.
* `Equation.equivalent_of_isolation`: an isolation step that can be taken back leads to an equivalent equation.
-/

namespace Isolate

variable {I : Interpretation}

/-! ## Parting factors and terms -/

namespace Expr

/-- A factor is left out because it is one, or it is constant or varying. -/
theorem partFactors_cons {e : Expr} {es constant varying : List Expr}
    (h : partFactors (e :: es) = .ok (constant, varying)) :
    e.isOne = true ∧ partFactors es = .ok (constant, varying) ∨
      ∃ constant' varying', partFactors es = .ok (constant', varying') ∧
        (constant = e :: constant' ∧ varying = varying' ∨ constant = constant' ∧ varying = e :: varying') := by
  unfold partFactors at h
  split at h
  · rename_i hone
    exact .inl ⟨hone, h⟩
  · refine .inr ?_
    obtain ⟨count, -, h⟩ := bind_eq_ok.mp h
    simp only at h
    split at h
    · cases h
    · obtain ⟨⟨constant', varying'⟩, hparts, h⟩ := bind_eq_ok.mp h
      refine ⟨constant', varying', hparts, ?_⟩
      simp only at h
      split at h
      · cases h
        exact .inl ⟨rfl, rfl⟩
      · cases h
        exact .inr ⟨rfl, rfl⟩

/-- No factor but ones is lost. -/
theorem product_partFactors {es constant varying : List Expr} (h : partFactors es = .ok (constant, varying)) :
    product (es.map (value I)) = product (constant.map (value I)) * product (varying.map (value I)) := by
  induction es generalizing constant varying with
  | nil =>
    cases h
    simp
  | cons e es ih =>
    rw [List.map_cons, product_cons]
    obtain ⟨hone, h⟩ | ⟨constant', varying', hparts, hcase⟩ := partFactors_cons h
    · rw [value_of_isOne hone, one_mul, ih h]
    · rw [ih hparts]
      obtain ⟨rfl, rfl⟩ | ⟨rfl, rfl⟩ := hcase
      · rw [List.map_cons, product_cons]
        ring
      · rw [List.map_cons, product_cons]
        ring

theorem subset_of_partFactors {es constant varying : List Expr} (h : partFactors es = .ok (constant, varying)) :
    constant ⊆ es ∧ varying ⊆ es := by
  induction es generalizing constant varying with
  | nil =>
    cases h
    exact ⟨List.nil_subset _, List.nil_subset _⟩
  | cons e es ih =>
    obtain ⟨-, h⟩ | ⟨constant', varying', hparts, hcase⟩ := partFactors_cons h
    · exact ⟨List.subset_cons_of_subset _ (ih h).1, List.subset_cons_of_subset _ (ih h).2⟩
    · obtain ⟨hc, hv⟩ := ih hparts
      obtain ⟨rfl, rfl⟩ | ⟨rfl, rfl⟩ := hcase
      · exact ⟨List.cons_subset_cons _ hc, List.subset_cons_of_subset _ hv⟩
      · exact ⟨List.subset_cons_of_subset _ hc, List.cons_subset_cons _ hv⟩

theorem partTerms_cons {t : Ratio Expr} {ts moved kept : List (Ratio Expr)}
    (h : partTerms (t :: ts) = .ok (moved, kept)) : ∃ moved' kept', partTerms ts = .ok (moved', kept') ∧
      (moved = moved' ∧ kept = t :: kept' ∨ moved = t.neg :: moved' ∧ kept = kept') := by
  obtain ⟨varying, -, h⟩ := bind_eq_ok.mp h
  obtain ⟨⟨moved', kept'⟩, hparts, h⟩ := bind_eq_ok.mp h
  refine ⟨moved', kept', hparts, ?_⟩
  simp only at h
  split at h
  · cases h
    exact .inl ⟨rfl, rfl⟩
  · cases h
    exact .inr ⟨rfl, rfl⟩

/-- The terms that are kept are what is left when the terms that are moved come to the other side. -/
theorem total_partTerms {ts moved kept : List (Ratio Expr)} (h : partTerms ts = .ok (moved, kept)) :
    total (kept.map (Ratio.value I)) = total (ts.map (Ratio.value I)) + total (moved.map (Ratio.value I)) := by
  induction ts generalizing moved kept with
  | nil =>
    cases h
    simp
  | cons t ts ih =>
    obtain ⟨moved', kept', hparts, ⟨rfl, rfl⟩ | ⟨rfl, rfl⟩⟩ := partTerms_cons h
    · rw [List.map_cons, total_cons, ih hparts, List.map_cons, total_cons]
      ring
    · rw [ih hparts, List.map_cons, total_cons, List.map_cons, total_cons, Ratio.value_neg]
      ring

/-- What holds of all terms, and of the opposites of terms, holds of the terms that are moved and those that are kept. -/
theorem forall_partTerms {P : Ratio Expr → Prop} (hneg : ∀ t, P t → P t.neg) {ts moved kept : List (Ratio Expr)}
    (h : partTerms ts = .ok (moved, kept)) (hts : ∀ t ∈ ts, P t) : (∀ t ∈ moved, P t) ∧ ∀ t ∈ kept, P t := by
  induction ts generalizing moved kept with
  | nil =>
    cases h
    exact ⟨hts, hts⟩
  | cons t ts ih =>
    obtain ⟨ht, hts⟩ := List.forall_mem_cons.mp hts
    obtain ⟨moved', kept', hparts, ⟨rfl, rfl⟩ | ⟨rfl, rfl⟩⟩ := partTerms_cons h
    · exact ⟨(ih hparts hts).1, List.forall_mem_cons.mpr ⟨ht, (ih hparts hts).2⟩⟩
    · exact ⟨List.forall_mem_cons.mpr ⟨hneg t ht, (ih hparts hts).1⟩, (ih hparts hts).2⟩

theorem isDefined_partTerms {ts moved kept : List (Ratio Expr)} (h : partTerms ts = .ok (moved, kept))
    (hts : ∀ t ∈ ts, t.IsDefined I) : (∀ t ∈ moved, t.IsDefined I) ∧ ∀ t ∈ kept, t.IsDefined I :=
  forall_partTerms (P := Ratio.IsDefined I) (fun _ => Ratio.isDefined_neg) h hts

end Expr

/-! ## Steps that can be taken back -/

/-- What the conditions of a step promise: the moved products that they name are not zero, and a peeled function is
undone by the one that is called, and undoes it. -/
def Step.IsReversible (I : Interpretation) (conditions : List String) : Step → Prop
  | undo inverse source _ => (∀ t, I.call inverse [I.call source [t]] = t) ∧ ∀ u, I.call source [I.call inverse [u]] = u
  | multiply moved _ => ∀ fs ∈ [moved.numerator, moved.denominator], ∀ c ∈ Expr.nonzero fs, c ∈ conditions →
      product (fs.map (Expr.value I)) ≠ 0
  | _ => True

/-- The condition of a product is there, so the product is not zero. -/
theorem product_ne_zero_of_nonzero {conditions : List String} {fs : List Expr} (hc : Expr.nonzero fs ⊆ conditions)
    (h : ∀ c ∈ Expr.nonzero fs, c ∈ conditions → product (fs.map (Expr.value I)) ≠ 0) :
    product (fs.map (Expr.value I)) ≠ 0 := by
  by_cases hfs : fs.isEmpty = true
  · rw [List.isEmpty_iff.mp hfs]
    simp
  · have hmem : " * ".intercalate (fs.map Expr.factorText) ++ " != 0" ∈ Expr.nonzero fs := by
      rw [Expr.nonzero, if_neg hfs]
      exact List.mem_singleton_self _
    exact h _ hmem (hc hmem)

namespace Expr

/-- The other side, with the sign of the side that is undone. -/
def signed (s : Sign) (e : Expr) : Expr := ⟨e.sign * s, e.shape, none⟩

theorem value_signed (s : Sign) (e : Expr) : (signed s e).value I = s.apply (e.value I) := by
  rw [signed, value_mk, Sign.mul_comm, Sign.apply_mul, ← value_eq]

theorem isDefined_signed {s : Sign} {e : Expr} : (signed s e).IsDefined I ↔ e.IsDefined I := isDefined_of_shape rfl

/-- A minus goes from one side to the other. -/
theorem apply_eq_iff (s : Sign) (p q : Rat) : s.apply p = q ↔ p = s.apply q := by
  cases s
  · rfl
  · exact neg_eq_iff_eq_neg

theorem isDefined_call {s : Sign} {name : String} {as : List Expr} {c : Option Summary} :
    (⟨s, .call name as, c⟩ : Expr).IsDefined I ↔ ∀ a ∈ as, a.IsDefined I := by
  rw [isDefined_iff]
  simp [children, Shape.children, Shape.divisors]

/-- Two sides become two others: these are defined, and equal just if those were. -/
def Agrees (I : Interpretation) (a b p o : Expr) : Prop :=
  p.IsDefined I ∧ o.IsDefined I ∧ (a.value I = b.value I ↔ p.value I = o.value I)

variable {a b p : Expr}

theorem agrees_negate (hp : Step.negate.peel a = .ok p) (ha : a.IsDefined I) (hb : b.IsDefined I) :
    Agrees I a b p (Step.negate.apply a.sign b) := by
  cases hp
  refine ⟨(isDefined_abs a).mpr ha, isDefined_signed.mpr hb, ?_⟩
  show _ ↔ _ = (signed a.sign b).value I
  rw [value_signed, value_eq_abs a, apply_eq_iff]

theorem agrees_undo {name inverse : String} {tabulated : Bool} {x : Expr} {conditions : List String}
    (hshape : a.shape = .call name [x])
    (hp : (Step.undo inverse name tabulated).peel a = .ok p)
    (hr : (Step.undo inverse name tabulated).IsReversible I conditions) (ha : a.IsDefined I) (hb : b.IsDefined I) :
    Agrees I a b p ((Step.undo inverse name tabulated).apply a.sign b) := by
  obtain ⟨s, shape, c⟩ := a
  obtain rfl : shape = .call name [x] := hshape
  obtain rfl : x = p := Except.ok.inj hp
  obtain ⟨hleft, hright⟩ := hr
  refine ⟨isDefined_call.mp ha x List.mem_cons_self, ?_, ?_⟩
  · refine isDefined_call.mpr fun o ho => ?_
    rw [List.mem_singleton.mp ho]
    exact isDefined_signed.mpr hb
  · have hvalue : (call inverse [signed s b]).value I = I.call inverse [s.apply (b.value I)] := by
      rw [← value_signed]
      exact value_mk ..
    show _ ↔ x.value I = (call inverse [signed s b]).value I
    rw [hvalue, value_mk, apply_eq_iff]
    show I.call name [x.value I] = _ ↔ _
    constructor
    · intro h
      rw [← h, hleft]
    · intro h
      rw [h, hright]

theorem value_sum_singleton (s : Sign) (t : Ratio Expr) (c : Option Summary) :
    (⟨s, .sum [t], c⟩ : Expr).value I =
      s.apply (product (t.numerator.map (value I)) / product (t.denominator.map (value I))) := by
  rw [value_sum, List.map_singleton, total_cons, total_nil, add_zero, Ratio.value_eq]

theorem isDefined_sum_singleton {s : Sign} {t : Ratio Expr} {c : Option Summary} :
    (⟨s, .sum [t], c⟩ : Expr).IsDefined I ↔
      (∀ e ∈ t.numerator, e.IsDefined I) ∧ ∀ d ∈ t.denominator, d.IsDefined I ∧ d.value I ≠ 0 := by
  rw [isDefined_sum, List.forall_mem_singleton, Ratio.isDefined_iff]

/-- Factors that are not zero go to the other side of an equation of fractions. -/
theorem div_eq_iff_of_moved {above keptAbove below keptBelow q : Rat} (habove : above ≠ 0) (hbelow : below ≠ 0)
    (hkept : keptBelow ≠ 0) :
    above * keptAbove / (below * keptBelow) = q ↔ keptAbove / keptBelow = below * q / above := by
  rw [div_eq_iff (mul_ne_zero hbelow hkept), div_eq_div_iff hkept habove]
  constructor
  · intro h
    linear_combination h
  · intro h
    linear_combination h

theorem agrees_multiply {t : Ratio Expr} {above keptAbove below keptBelow : List Expr} (hshape : a.shape = .sum [t])
    (habove : partFactors t.numerator = .ok (above, keptAbove))
    (hbelow : partFactors t.denominator = .ok (below, keptBelow))
    (hp : (Step.multiply ⟨below, above⟩ ⟨keptAbove, keptBelow⟩).peel a = .ok p)
    (h0 : product (above.map (value I)) ≠ 0) (ha : a.IsDefined I) (hb : b.IsDefined I) :
    Agrees I a b p ((Step.multiply ⟨below, above⟩ ⟨keptAbove, keptBelow⟩).apply a.sign b) := by
  obtain ⟨s, shape, c⟩ := a
  obtain rfl : shape = .sum [t] := hshape
  cases hp
  obtain ⟨hnumerator, hdenominator⟩ := isDefined_sum_singleton.mp ha
  obtain ⟨hsa, hska⟩ := subset_of_partFactors habove
  obtain ⟨hsb, hskb⟩ := subset_of_partFactors hbelow
  refine ⟨?_, ?_, ?_⟩
  · exact isDefined_sum_singleton.mpr ⟨fun e he => hnumerator e (hska he), fun d hd => hdenominator d (hskb hd)⟩
  · refine isDefined_sum_singleton.mpr ⟨fun e he => ?_, fun d hd => ?_⟩
    · rcases List.mem_append.mp he with he | he
      · exact (hdenominator e (hsb he)).1
      · rw [List.mem_singleton.mp he]
        exact isDefined_signed.mpr hb
    · exact ⟨hnumerator d (hsa hd), product_ne_zero.mp h0 _ (List.mem_map_of_mem hd)⟩
  · have hden : ∀ ds ⊆ t.denominator, product (ds.map (value I)) ≠ 0 := by
      intro ds hds
      rw [product_ne_zero]
      intro q hq
      obtain ⟨d, hd, rfl⟩ := List.mem_map.mp hq
      exact (hdenominator d (hds hd)).2
    have hother : (Step.apply s b (.multiply ⟨below, above⟩ ⟨keptAbove, keptBelow⟩)).value I =
        product (below.map (value I)) * s.apply (b.value I) / product (above.map (value I)) := by
      refine (value_sum_singleton .pos ⟨below ++ [signed s b], above⟩ none).trans ?_
      rw [List.map_append, List.map_singleton, value_signed, product_append, product_cons, product_nil, mul_one]
      rfl
    have hkept : (sum [⟨keptAbove, keptBelow⟩]).value I =
        product (keptAbove.map (value I)) / product (keptBelow.map (value I)) := value_sum_singleton ..
    rw [hother, hkept, value_sum_singleton, apply_eq_iff, product_partFactors habove, product_partFactors hbelow]
    exact div_eq_iff_of_moved h0 (hden below hsb) (hden keptBelow hskb)

theorem agrees_add {ts moved kept : List (Ratio Expr)} (hshape : a.shape = .sum ts)
    (hparts : partTerms ts = .ok (moved, kept)) (hp : (Step.add moved kept).peel a = .ok p) (ha : a.IsDefined I)
    (hb : b.IsDefined I) : Agrees I a b p ((Step.add moved kept).apply a.sign b) := by
  obtain ⟨s, shape, c⟩ := a
  obtain rfl : shape = .sum ts := hshape
  cases hp
  obtain ⟨hmoved, hkept⟩ := isDefined_partTerms hparts (isDefined_sum.mp ha)
  refine ⟨isDefined_sum.mpr hkept, ?_, ?_⟩
  · refine isDefined_sum.mpr (List.forall_mem_cons.mpr ⟨?_, hmoved⟩)
    exact Ratio.isDefined_of.mpr (isDefined_signed.mpr hb)
  · have hother : (Step.apply s b (.add moved kept)).value I =
        s.apply (b.value I) + total (moved.map (Ratio.value I)) := by
      show (⟨.pos, .sum (.of (signed s b) :: moved), none⟩ : Expr).value I = _
      rw [value_sum, List.map_cons, total_cons, Ratio.value_of, value_signed]
      rfl
    have hkept : (sum kept).value I = total (kept.map (Ratio.value I)) := value_sum ..
    rw [hother, hkept, value_sum, apply_eq_iff, total_partTerms hparts, add_left_inj]

/-- **A step that can be taken back is an equivalence.** -/
theorem Undoes.agrees {template : String} {found : Inversion} {conditions : List String} (h : Undoes template a found)
    (hp : found.step.peel a = .ok p) (hc : found.conditions ⊆ conditions)
    (hr : found.step.IsReversible I conditions) (ha : a.IsDefined I) (hb : b.IsDefined I) :
    Agrees I a b p (found.step.apply a.sign b) := by
  cases h with
  | call hshape => exact agrees_undo hshape hp hr ha hb
  | @ratio t above _ below _ hshape habove hbelow =>
    have hnamed : nonzero above ⊆ conditions := fun c hcs => hc (List.mem_append_right _ hcs)
    have h0 := product_ne_zero_of_nonzero hnamed (hr above (by simp))
    exact agrees_multiply hshape habove hbelow hp h0 ha hb
  | terms hshape hparts => exact agrees_add hshape hparts hp ha hb
  | minus _ => exact agrees_negate hp ha hb

end Expr

/-! ## Equations -/

namespace Equation

/-- The second equation is defined where the first one is, and holds there just if that one does. -/
def Equivalent (I : Interpretation) (q r : Equation) : Prop := q.IsDefined I → r.IsDefined I ∧ (q.Holds I ↔ r.Holds I)

theorem Equivalent.refl (q : Equation) : q.Equivalent I q := fun h => ⟨h, Iff.rfl⟩

theorem Equivalent.trans {q r u : Equation} (h : q.Equivalent I r) (h' : r.Equivalent I u) : q.Equivalent I u := by
  intro hq
  obtain ⟨hr, hqr⟩ := h hq
  obtain ⟨hu, hru⟩ := h' hr
  exact ⟨hu, hqr.trans hru⟩

theorem holds_pair {a b : Expr} : (⟨[a, b]⟩ : Equation).Holds I ↔ a.value I = b.value I := by
  constructor
  · exact fun h => h a (by simp) b (by simp)
  · intro h x hx y hy
    have : ∀ z ∈ [a, b], z.value I = b.value I := by
      intro z hz
      rcases List.mem_cons.mp hz with rfl | hz
      · exact h
      · rw [List.mem_singleton.mp hz]
    rw [this x hx, this y hy]

theorem isDefined_pair {a b : Expr} : (⟨[a, b]⟩ : Equation).IsDefined I ↔ a.IsDefined I ∧ b.IsDefined I := by
  simp [IsDefined]

/-- Keeping the values of all sides keeps what holds. -/
theorem Keeps.equivalent {q r : Equation} (h : q.Keeps I r) : q.Equivalent I r := by
  intro hq
  obtain ⟨hr, hv⟩ := h hq
  have hholds : ∀ u : Equation, u.Holds I ↔
      ∀ x ∈ u.sides.map (Expr.value I), ∀ y ∈ u.sides.map (Expr.value I), x = y := by
    intro u
    simp only [List.mem_map, forall_exists_index, and_imp, forall_apply_eq_imp_iff₂]
    rfl
  exact ⟨hr, by rw [hholds, hholds, hv]⟩

/-- **An isolation step that can be taken back leads to an equivalent equation.** -/
theorem equivalent_of_isolation {template : String} {target : Option String} {q r : Equation} {i : Nat}
    {found : Inversion} {conditions : List String} (hlen : q.sides.length = 2)
    (hfound : q.isolation template target = .ok (some (i, found))) (hr : q.transform found.step i = .ok r)
    (hc : found.conditions ⊆ conditions) (hback : found.step.IsReversible I conditions) : q.Equivalent I r := by
  obtain ⟨hi, hundoes⟩ := isolation_eq_ok hfound
  obtain ⟨sides⟩ := q
  obtain ⟨a, b, rfl⟩ := List.length_eq_two.mp hlen
  intro hq
  obtain ⟨ha, hb⟩ := isDefined_pair.mp hq
  obtain ⟨rfl, p, hp, rfl⟩ | ⟨rfl, p, hp, rfl⟩ := transform_pair hi hr
  · obtain ⟨hpd, hod, hiff⟩ := hundoes.agrees hp hc hback ha hb
    rw [isDefined_pair, holds_pair, holds_pair]
    exact ⟨⟨hpd, hod⟩, hiff⟩
  · obtain ⟨hpd, hod, hiff⟩ := hundoes.agrees hp hc hback hb ha
    rw [isDefined_pair, holds_pair, holds_pair]
    exact ⟨⟨hod, hpd⟩, eq_comm.trans (hiff.trans eq_comm)⟩

end Equation

end Isolate
