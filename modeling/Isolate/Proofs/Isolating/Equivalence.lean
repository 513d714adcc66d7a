import Isolate.Config
import Isolate.Proofs.Isolating.Meaning
import Isolate.Proofs.Isolating.Variables
import Mathlib

/-!
# Isolation steps both ways

A step that can be taken back loses no divisor: an equation is defined if the step leads to a defined one. A factor that
leaves a denominator needs a condition for that, since it is a divisor no more (`Expr.Undoes.isDefined`).

* `Equation.isDefined_of_isolation`: the equation before a step is defined if the one after it is.
* `Equation.applyInverse_equivalent`: what is done to an equation keeps it defined, and keeps what holds.
-/

namespace Isolate

variable {I : Interpretation}

/-! ## Parts that are put together again -/

theorem Ratio.isDefined_of_neg {t : Ratio Expr} (h : t.neg.IsDefined I) : t.IsDefined I := by
  rw [isDefined_iff] at h ⊢
  match t with
  | ⟨n :: ns, ds⟩ => simpa [neg] using h
  | ⟨[], d :: ds⟩ => simpa [neg] using h
  | ⟨[], []⟩ => simp

namespace Expr

theorem mem_of_partFactors {es constant varying : List Expr} (h : partFactors es = .ok (constant, varying)) {e : Expr}
    (he : e ∈ es) : e.isOne = true ∨ e ∈ constant ∨ e ∈ varying := by
  induction es generalizing constant varying with
  | nil => cases he
  | cons a es ih =>
    obtain ⟨hone, h⟩ | ⟨constant', varying', hparts, hcase⟩ := partFactors_cons h
    · rcases List.mem_cons.mp he with rfl | he
      · exact .inl hone
      · exact ih h he
    · obtain ⟨rfl, rfl⟩ | ⟨rfl, rfl⟩ := hcase
      · rcases List.mem_cons.mp he with rfl | he
        · exact .inr (.inl List.mem_cons_self)
        · exact (ih hparts he).imp_right (Or.imp_left (List.mem_cons_of_mem a))
      · rcases List.mem_cons.mp he with rfl | he
        · exact .inr (.inr List.mem_cons_self)
        · exact (ih hparts he).imp_right (Or.imp_right (List.mem_cons_of_mem a))

theorem isDefined_of_partTerms {ts moved kept : List (Ratio Expr)} (h : partTerms ts = .ok (moved, kept))
    (hmoved : ∀ t ∈ moved, t.IsDefined I) (hkept : ∀ t ∈ kept, t.IsDefined I) : ∀ t ∈ ts, t.IsDefined I := by
  induction ts generalizing moved kept with
  | nil => exact List.forall_mem_nil _
  | cons t ts ih =>
    obtain ⟨moved', kept', hparts, ⟨rfl, rfl⟩ | ⟨rfl, rfl⟩⟩ := partTerms_cons h
    · obtain ⟨ht, hkept⟩ := List.forall_mem_cons.mp hkept
      exact List.forall_mem_cons.mpr ⟨ht, ih hparts hmoved hkept⟩
    · obtain ⟨ht, hmoved⟩ := List.forall_mem_cons.mp hmoved
      exact List.forall_mem_cons.mpr ⟨Ratio.isDefined_of_neg ht, ih hparts hmoved hkept⟩

/-! ## Sides before a step -/

variable {a b p : Expr}

theorem isDefined_of_multiply {t : Ratio Expr} {above keptAbove below keptBelow : List Expr} (hshape : a.shape = .sum [t])
    (habove : partFactors t.numerator = .ok (above, keptAbove))
    (hbelow : partFactors t.denominator = .ok (below, keptBelow)) (h0 : product (below.map (value I)) ≠ 0)
    (hp : (sum [⟨keptAbove, keptBelow⟩]).IsDefined I)
    (ho : ((Step.multiply ⟨below, above⟩ ⟨keptAbove, keptBelow⟩).apply a.sign b).IsDefined I) :
    a.IsDefined I ∧ b.IsDefined I := by
  obtain ⟨s, shape, c⟩ := a
  obtain rfl : shape = .sum [t] := hshape
  obtain ⟨hkeptAbove, hkeptBelow⟩ := isDefined_sum_singleton.mp hp
  obtain ⟨hother, hdivisors⟩ := isDefined_sum_singleton.mp ho
  obtain ⟨hmoved, hsigned⟩ := List.forall_mem_append.mp hother
  refine ⟨isDefined_sum_singleton.mpr ⟨fun e he => ?_, fun d hd => ?_⟩, ?_⟩
  · rcases mem_of_partFactors habove he with hone | he | he
    · exact isDefined_of_number (shape_of_isOne hone)
    · exact (hdivisors e he).1
    · exact hkeptAbove e he
  · rcases mem_of_partFactors hbelow hd with hone | hd | hd
    · refine ⟨isDefined_of_number (shape_of_isOne hone), ?_⟩
      rw [value_of_isOne hone]
      exact one_ne_zero
    · exact ⟨hmoved d hd, product_ne_zero.mp h0 _ (List.mem_map_of_mem hd)⟩
    · exact hkeptBelow d hd
  · exact isDefined_signed.mp (hsigned _ List.mem_cons_self)

/-- **The sides before a step are defined if the sides after it are.** -/
theorem Undoes.isDefined {template : String} {found : Inversion} {conditions : List String} (h : Undoes template a found)
    (hp : found.step.peel a = .ok p) (hc : found.conditions ⊆ conditions)
    (hr : found.step.IsReversible I conditions) (hpd : p.IsDefined I)
    (hod : (found.step.apply a.sign b).IsDefined I) : a.IsDefined I ∧ b.IsDefined I := by
  cases h with
  | @call name inverse tabulated x hshape =>
    obtain ⟨s, shape, c⟩ := a
    obtain rfl : shape = .call name [x] := hshape
    obtain rfl : x = p := Except.ok.inj hp
    refine ⟨isDefined_call.mpr fun y hy => ?_, isDefined_signed.mp (isDefined_call.mp hod _ List.mem_cons_self)⟩
    rwa [List.mem_singleton.mp hy]
  | @ratio t above _ below _ hshape habove hbelow =>
    cases hp
    have hnamed : nonzero below ⊆ conditions := fun c hcs => hc (List.mem_append_left _ hcs)
    exact isDefined_of_multiply hshape habove hbelow (product_ne_zero_of_nonzero hnamed (hr below (by simp))) hpd hod
  | terms hshape hparts =>
    obtain ⟨s, shape, c⟩ := a
    obtain rfl : shape = .sum _ := hshape
    cases hp
    obtain ⟨hsigned, hmoved⟩ := List.forall_mem_cons.mp (isDefined_sum.mp hod)
    exact ⟨isDefined_sum.mpr (isDefined_of_partTerms hparts hmoved (isDefined_sum.mp hpd)),
      isDefined_signed.mp (Ratio.isDefined_of.mp hsigned)⟩
  | minus _ =>
    cases hp
    exact ⟨(isDefined_abs a).mp hpd, isDefined_signed.mp hod⟩

end Expr

namespace Equation

/-- **The equation before a step is defined if the one after it is.** -/
theorem isDefined_of_isolation {template : String} {target : Option String} {q r : Equation} {i : Nat}
    {found : Inversion} {conditions : List String} (hlen : q.sides.length = 2)
    (hfound : q.isolation template target = .ok (some (i, found))) (hr : q.transform found.step i = .ok r)
    (hc : found.conditions ⊆ conditions) (hback : found.step.IsReversible I conditions) (h : r.IsDefined I) :
    q.IsDefined I := by
  obtain ⟨hi, hundoes⟩ := isolation_eq_ok hfound
  obtain ⟨sides⟩ := q
  obtain ⟨a, b, rfl⟩ := List.length_eq_two.mp hlen
  obtain ⟨rfl, p, hp, rfl⟩ | ⟨rfl, p, hp, rfl⟩ := transform_pair hi hr
  · obtain ⟨hpd, hod⟩ := isDefined_pair.mp h
    exact isDefined_pair.mpr (hundoes.isDefined hp hc hback hpd hod)
  · obtain ⟨hod, hpd⟩ := isDefined_pair.mp h
    exact isDefined_pair.mpr (hundoes.isDefined hp hc hback hpd hod).symm

/-- **An isolation step is an equivalence under its conditions.** If the step that is found can be taken back, given the
conditions that are told, then the equation stays defined and holds just if it did before. -/
theorem applyInverse_equivalent {template : String} {target : Option String} {q : Equation} {done : Isolated}
    (h : q.applyInverse template target = .ok done)
    (hback : ∀ i found, q.isolation template target = .ok (some (i, found)) →
      found.step.IsReversible I done.conditions)
    (hq : q.IsDefined I) : done.equation.IsDefined I ∧ (q.Holds I ↔ done.equation.Holds I) := by
  obtain ⟨hlen, ⟨hsame, -⟩ | ⟨i, found, hfound, hr, hconditions⟩⟩ := applyInverse_eq_ok h
  · rw [hsame]
    exact ⟨hq, Iff.rfl⟩
  · have hsubset : found.conditions ⊆ done.conditions := by
      rw [hconditions]
      exact List.Subset.refl _
    exact equivalent_of_isolation hlen hfound hr hsubset (hback i found hfound) hq

/-- The equation `3 = -(2 * x / c())`, with a factor that is one. -/
def negatedFraction : Equation :=
  Equation.analyze ⟨[.number 3, (Expr.sum [⟨[.number 1, .number 2, .var "x"], [.call "c" []]⟩]).neg]⟩

/-- Every variable is minus three, and every call is two. -/
def minusThree : Interpretation where
  var _ := -3
  call _ _ := 2
  power _ _ := 0
  modulo _ _ := 0
  factorial _ := 0

theorem isolation_negatedFraction : negatedFraction.isolation Config.default.placeholder none =
    .ok (some (1, ⟨.multiply ⟨[(Expr.call "c" []).analyze], [(Expr.number 2).analyze]⟩ ⟨[(Expr.var "x").analyze], []⟩,
      ["c() != 0", "2 != 0"]⟩)) := by cbv

theorem isDefined_negatedFraction : negatedFraction.IsDefined minusThree := by
  refine ((keeps_map Expr.keeps_analyze _) (isDefined_pair.mpr ⟨Expr.isDefined_of_number rfl, ?_⟩)).1
  have hcall : (Expr.call "c" []).value minusThree ≠ 0 := by
    rw [show (Expr.call "c" []).value minusThree = 2 by cbv]
    exact two_ne_zero
  rw [Expr.isDefined_neg, Expr.sum, Expr.ofShape, Expr.isDefined_sum_singleton]
  refine ⟨?_, List.forall_mem_singleton.mpr ⟨Expr.isDefined_call.mpr (List.forall_mem_nil _), hcall⟩⟩
  simp [Expr.number, Expr.var, Expr.ofShape, Expr.isDefined_number, Expr.isDefined_var]

theorem applyInverse_equivalent_negatedFraction : ∃ done,
    negatedFraction.applyInverse Config.default.placeholder none = .ok done ∧
      done.conditions = ["c() != 0", "2 != 0"] ∧ done.equation.IsDefined minusThree ∧
        (negatedFraction.Holds minusThree ↔ done.equation.Holds minusThree) := by
  have hrun : (negatedFraction.applyInverse Config.default.placeholder none).map (·.conditions) =
      .ok ["c() != 0", "2 != 0"] := by cbv
  cases hdone : negatedFraction.applyInverse Config.default.placeholder none with
  | error fault =>
    rw [hdone] at hrun
    cases hrun
  | ok done =>
    rw [hdone] at hrun
    have hconditions : done.conditions = ["c() != 0", "2 != 0"] := Except.ok.inj hrun
    refine ⟨done, rfl, hconditions, applyInverse_equivalent hdone (fun i found hfound => ?_) isDefined_negatedFraction⟩
    rw [isolation_negatedFraction] at hfound
    cases hfound
    intro fs hfs c hc hin
    rcases List.mem_pair.mp hfs with rfl | rfl
    · have hcall : (Expr.call "c" []).analyze.value minusThree = 2 := by cbv
      rw [List.map_singleton, product_cons, product_nil, hcall]
      norm_num
    · have htwo : (Expr.number 2).analyze.value minusThree = 2 := by cbv
      rw [List.map_singleton, product_cons, product_nil, htwo]
      norm_num

end Equation

end Isolate
