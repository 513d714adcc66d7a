import Isolate.Expr.Meaning
import Isolate.Proofs.Tree.BottomUp
import Mathlib.Algebra.BigOperators.Ring.List
import Mathlib.Algebra.Field.Rat
import Mathlib.Tactic.FieldSimp
import Mathlib.Tactic.LinearCombination
import Mathlib.Tactic.Ring
import Mathlib.Tactic.Tauto

/-!
# Meaning kept

An expression *keeps* another one under an interpretation if it is defined where the other is and has the same value
there (`Expr.Keeps`). A pass from the bottom up keeps a tree if its step keeps every node (`IsBottomUp.keeps`), so for
each pass there is only the step to look at.

* `isDefined_sum` and `value_sum` are the equations for sums, by the terms.
* `Ratio.isDefined_mul`, `Ratio.isDefined_inv`, `Ratio.isDefined_neg`: where products, inverses and opposites of ratios
  are defined; their values stand beside their definitions.
-/

namespace Isolate

variable {I : Interpretation}

/-! ## Signs -/

theorem Sign.apply_mul (s t : Sign) (q : Rat) : (s * t).apply q = s.apply (t.apply q) := by
  cases s <;> cases t <;> simp [apply, flip]

@[simp] theorem Sign.apply_eq_zero (s : Sign) (q : Rat) : s.apply q = 0 ↔ q = 0 := by
  cases s <;> simp [apply]

/-! ## Products and totals -/

theorem product_eq_prod (qs : List Rat) : product qs = qs.prod := by
  induction qs with
  | nil => rfl
  | cons q qs ih => simp [ih]

theorem product_ne_zero {qs : List Rat} : product qs ≠ 0 ↔ ∀ q ∈ qs, q ≠ 0 := by
  rw [product_eq_prod, Ne, List.prod_eq_zero_iff]
  exact ⟨fun h q hq h0 => h (h0 ▸ hq), fun h h0 => h 0 h0 rfl⟩

theorem total_map_neg (f : α → Rat) (as : List α) : total (as.map fun a => -f a) = -total (as.map f) := by
  induction as with
  | nil => simp
  | cons a as ih => simp [ih]; ring

namespace Expr

/-! ## Values and definedness by the parts of a node -/

theorem value_mk (s : Sign) (b : Shape Expr) (c : Option Summary) :
    (⟨s, b, c⟩ : Expr).value I = s.apply (I.apply (b.map (value I))) := value_eq ..

/-- The sign of an expression is the sign of its value. -/
theorem value_eq_abs (e : Expr) : e.value I = e.sign.apply (e.abs.value I) := by
  rw [value_eq, abs, value_mk]
  rfl

theorem value_eq_of_bare {a b : Expr} (h : a.bare = b.bare) : a.value I = b.value I := by
  rw [← value_bare I a, h, value_bare]

/-- Neither the sign nor the analysis of a node touches where it is defined. -/
theorem isDefined_mk {s t : Sign} {b : Shape Expr} {c d : Option Summary} :
    (⟨s, b, c⟩ : Expr).IsDefined I ↔ (⟨t, b, d⟩ : Expr).IsDefined I := by
  rw [isDefined_iff, isDefined_iff]
  rfl

theorem isDefined_of_shape {a b : Expr} (h : a.shape = b.shape) : a.IsDefined I ↔ b.IsDefined I := by
  obtain ⟨s, x, c⟩ := a
  obtain ⟨t, y, d⟩ := b
  obtain rfl : x = y := h
  exact isDefined_mk

theorem isDefined_shape {s : Sign} {e : Expr} {c : Option Summary} :
    (⟨s, e.shape, c⟩ : Expr).IsDefined I ↔ e.IsDefined I := isDefined_of_shape rfl

@[simp] theorem isDefined_neg (e : Expr) : e.neg.IsDefined I ↔ e.IsDefined I := isDefined_of_shape rfl

@[simp] theorem isDefined_abs (e : Expr) : e.abs.IsDefined I ↔ e.IsDefined I := isDefined_of_shape rfl

/-- Numbers have no divisors. -/
theorem isDefined_of_number {e : Expr} {q : Rat} (h : e.shape = .number q) : e.IsDefined I := by
  rw [isDefined_iff, children, h]
  simp [Shape.children, Shape.divisors]

theorem isDefined_number (s : Sign) (q : Rat) (c : Option Summary) : (⟨s, .number q, c⟩ : Expr).IsDefined I :=
  isDefined_of_number rfl

theorem isDefined_var (s : Sign) (n : String) (c : Option Summary) : (⟨s, .var n, c⟩ : Expr).IsDefined I := by
  rw [isDefined_iff]
  simp [children, Shape.children, Shape.divisors]

end Expr

theorem Shape.divisors_map (f : α → β) (b : Shape α) : (b.map f).divisors = b.divisors.map f := by
  cases b with
  | sum ts => simp [map, divisors, List.flatMap_map, List.map_flatMap, Ratio.map]
  | _ => rfl

/-! ## Keeping the meaning -/

/-- The second expression is defined where the first is, and has the same value there. -/
def Expr.Keeps (I : Interpretation) (a b : Expr) : Prop := a.IsDefined I → b.IsDefined I ∧ b.value I = a.value I

namespace Expr

theorem Keeps.refl (e : Expr) : e.Keeps I e := fun h => ⟨h, rfl⟩

theorem Keeps.trans {a b c : Expr} (h : a.Keeps I b) (h' : b.Keeps I c) : a.Keeps I c := fun ha => by
  obtain ⟨hb, hab⟩ := h ha
  obtain ⟨hc, hbc⟩ := h' hb
  exact ⟨hc, hbc.trans hab⟩

/-- A node keeps its meaning when its operands do. -/
theorem keeps_map {g : Expr → Expr} {e : Expr} {c : Option Summary} (h : ∀ a ∈ e.children, a.Keeps I (g a)) :
    e.Keeps I ⟨e.sign, e.shape.map g, c⟩ := fun he => by
  obtain ⟨hd, hz⟩ := (isDefined_iff I e).mp he
  have hv : (e.shape.map g).map (value I) = e.shape.map (value I) := by
    rw [Shape.map_map]
    exact Shape.map_congr fun a ha => (h a ha (hd a ha)).2
  constructor
  · rw [isDefined_iff, children, Shape.children_map, Shape.divisors_map]
    constructor
    · intro a ha
      obtain ⟨b, hb, rfl⟩ := List.mem_map.mp ha
      exact (h b hb (hd b hb)).1
    · -- a divisor is an operand, so it keeps its value
      intro d hd'
      have : d.value I ∈ ((e.shape.map g).map (value I)).divisors := by
        rw [Shape.divisors_map, Shape.divisors_map]
        exact List.mem_map_of_mem hd'
      rw [hv, Shape.divisors_map] at this
      obtain ⟨b, hb, hbd⟩ := List.mem_map.mp this
      exact hbd ▸ hz b hb
  · rw [value_mk, hv, ← value_eq]

/-- A pass keeps the meaning of a tree if its step keeps that of every node. -/
theorem IsBottomUp.keeps {f g : Expr → Expr} (hg : IsBottomUp f g) (hf : ∀ e : Expr, e.Keeps I (f e)) (e : Expr) :
    e.Keeps I (g e) := by
  induction e using Expr.induction with
  | h e ih =>
    obtain ⟨c, hc⟩ := hg e
    rw [hc]
    exact (keeps_map ih).trans (hf _)

theorem keeps_analyze (e : Expr) : e.Keeps I e.analyze := by
  induction e using Expr.induction with
  | h e ih =>
    rw [analyze_eq]
    exact keeps_map ih

end Expr

/-! ## Ratios -/

namespace Ratio

/-- All factors are defined, and those of the denominator are not zero. -/
def IsDefined (I : Interpretation) (t : Ratio Expr) : Prop :=
  (∀ e ∈ t.factors, e.IsDefined I) ∧ ∀ d ∈ t.denominator, d.value I ≠ 0

theorem isDefined_iff {t : Ratio Expr} : t.IsDefined I ↔
    (∀ e ∈ t.numerator, e.IsDefined I) ∧ ∀ d ∈ t.denominator, d.IsDefined I ∧ d.value I ≠ 0 := by
  simp only [IsDefined, factors, List.mem_append, or_imp, forall_and]
  tauto

theorem isDefined_of {e : Expr} : (of e).IsDefined I ↔ e.IsDefined I := by simp [isDefined_iff, of]

theorem isDefined_mul {r t : Ratio Expr} : (r.mul t).IsDefined I ↔ r.IsDefined I ∧ t.IsDefined I := by
  simp only [isDefined_iff, mul, List.mem_append, or_imp, forall_and]
  tauto

/-- The value of a ratio is not zero where no factor is. -/
theorem value_ne_zero {t : Ratio Expr} : t.value I ≠ 0 ↔ ∀ e ∈ t.factors, e.value I ≠ 0 := by
  rw [value_eq, div_ne_zero_iff, product_ne_zero, product_ne_zero]
  simp only [List.mem_map, forall_exists_index, and_imp, forall_apply_eq_imp_iff₂, factors, List.mem_append, or_imp,
    forall_and]

/-- A ratio that is not zero can be inverted. -/
theorem isDefined_inv {t : Ratio Expr} (h : t.IsDefined I) (h0 : t.value I ≠ 0) : t.inv.IsDefined I := by
  rw [value_ne_zero] at h0
  rw [isDefined_iff] at h ⊢
  refine ⟨fun e he => (h.2 e he).1, fun d hd => ⟨h.1 d hd, h0 d (List.mem_append_left _ hd)⟩⟩

theorem isDefined_neg {t : Ratio Expr} (h : t.IsDefined I) : t.neg.IsDefined I := by
  rw [isDefined_iff] at h ⊢
  match t with
  | ⟨n :: ns, ds⟩ => simpa [neg] using h
  | ⟨[], d :: ds⟩ => simpa [neg] using h
  | ⟨[], []⟩ => simp [neg, Expr.isDefined_of_number (show (Expr.number 1).shape = .number 1 from rfl)]

end Ratio

namespace Expr

/-! ## Sums -/

theorem isDefined_sum {s : Sign} {ts : List (Ratio Expr)} {c : Option Summary} :
    (⟨s, .sum ts, c⟩ : Expr).IsDefined I ↔ ∀ t ∈ ts, t.IsDefined I := by
  rw [isDefined_iff]
  simp only [children, Shape.children, Shape.divisors, List.mem_flatMap, Ratio.IsDefined]
  constructor
  · exact fun h t ht => ⟨fun e he => h.1 e ⟨t, ht, he⟩, fun d hd => h.2 d ⟨t, ht, hd⟩⟩
  · intro h
    refine ⟨?_, ?_⟩
    · rintro e ⟨t, ht, he⟩
      exact (h t ht).1 e he
    · rintro d ⟨t, ht, hd⟩
      exact (h t ht).2 d hd

theorem value_sum (s : Sign) (ts : List (Ratio Expr)) (c : Option Summary) :
    (⟨s, .sum ts, c⟩ : Expr).value I = s.apply (total (ts.map (Ratio.value I))) := by
  rw [value_mk]
  simp only [Shape.map, Interpretation.apply, List.map_map]
  rfl

/-- A sum keeps its meaning when other terms take its place that are defined and have the same total. -/
theorem keeps_sum {s : Sign} {ts us : List (Ratio Expr)} {c d : Option Summary}
    (h : (∀ t ∈ ts, t.IsDefined I) →
      (∀ u ∈ us, u.IsDefined I) ∧ total (us.map (Ratio.value I)) = total (ts.map (Ratio.value I))) :
    Keeps I ⟨s, .sum ts, c⟩ ⟨s, .sum us, d⟩ := by
  intro hd
  obtain ⟨hu, ht⟩ := h (isDefined_sum.mp hd)
  exact ⟨isDefined_sum.mpr hu, by rw [value_sum, value_sum, ht]⟩

end Expr

end Isolate
