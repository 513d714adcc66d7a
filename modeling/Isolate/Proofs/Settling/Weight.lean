import Isolate.Proofs.Tree.BottomUp
import Mathlib.Algebra.GroupWithZero.Nat
import Mathlib.Algebra.Order.BigOperators.Group.List
import Mathlib.Algebra.Order.Group.Nat

/-!
# The weight of a tree

Rounds of simplification may add factors: an empty numerator becomes one, and a fraction is split over the fraction
bar. The weight counts these beforehand. A node weighs two, a sum three and each of its terms one; an empty numerator
weighs three more, and a number that is not whole weighs five, more than its numerator and denominator together.

* `weight_eq` is the equation of the weight, by the operands of a node.
* A step *lightens* if it leaves every node as it is or makes it lighter (`Lightens`). A pass that takes such steps
  never adds weight (`IsBottomUp.weight_le`), and if it keeps the weight, its step leaves every node
  (`IsBottomUp.everywhere_of_weight_eq`).
-/

namespace Isolate

/-! ## Weights -/

/-- What a term weighs, its factors apart. -/
def Ratio.base (t : Ratio α) : Nat := 1 + if t.numerator.isEmpty then 3 else 0

/-- What a node weighs, its operands apart. -/
def Shape.base : Shape α → Nat
  | .number v => if v.den = 1 then 2 else 5
  | .sum ts => 3 + (ts.map Ratio.base).sum
  | _ => 2

@[simp] theorem Ratio.base_map (f : α → β) (t : Ratio α) : (t.map f).base = t.base := by simp [base, map]

@[simp] theorem Shape.base_map (f : α → β) (b : Shape α) : (b.map f).base = b.base := by
  cases b with
  | sum ts => simp [map, base, Function.comp_def]
  | _ => rfl

theorem Shape.two_le_base (b : Shape α) : 2 ≤ b.base := by
  cases b with
  | number v => simp only [base]; split <;> omega
  | sum ts => simp only [base]; omega
  | _ => simp only [base]; omega

namespace Expr

/-- The weight of a tree. -/
def weight (e : Expr) : Nat := e.fold fun _ b => b.base + b.children.sum

/-- The weight of a list of factors. -/
def load (es : List Expr) : Nat := (es.map weight).sum

theorem weight_eq (e : Expr) : e.weight = e.shape.base + load e.children := by
  rw [weight, fold_eq, Shape.base_map, Shape.children_map]
  rfl

theorem two_le_weight (e : Expr) : 2 ≤ e.weight := by
  have := e.shape.two_le_base
  rw [weight_eq]
  omega

@[simp] theorem load_nil : load [] = 0 := rfl

@[simp] theorem load_cons (e : Expr) (es : List Expr) : load (e :: es) = e.weight + load es := rfl

@[simp] theorem load_append (as bs : List Expr) : load (as ++ bs) = load as + load bs := by simp [load]

theorem load_perm {as bs : List Expr} (h : as.Perm bs) : load as = load bs := (h.map _).sum_eq

/-- Neither the sign nor the analysis of a node has any weight. -/
theorem weight_of_shape {a b : Expr} (h : a.shape = b.shape) : a.weight = b.weight := by
  rw [weight_eq, weight_eq, children, children, h]

@[simp] theorem weight_neg (e : Expr) : e.neg.weight = e.weight := weight_of_shape rfl

@[simp] theorem weight_abs (e : Expr) : e.abs.weight = e.weight := weight_of_shape rfl

theorem load_map_le {g : Expr → Expr} {es : List Expr} (h : ∀ e ∈ es, (g e).weight ≤ e.weight) :
    load (es.map g) ≤ load es := by
  rw [load, List.map_map]
  exact List.sum_le_sum h

theorem load_map_lt {g : Expr → Expr} {es : List Expr} (h : ∀ e ∈ es, (g e).weight ≤ e.weight) {a : Expr} (ha : a ∈ es)
    (hlt : (g a).weight < a.weight) : load (es.map g) < load es := by
  rw [load, List.map_map]
  exact List.sum_lt_sum _ _ h ⟨a, ha, hlt⟩

@[simp] theorem weight_bare (e : Expr) : e.bare.weight = e.weight := by
  induction e using Expr.induction with
  | h e ih =>
    rw [weight_eq, weight_eq e, shape_bare, Shape.base_map, children, shape_bare, Shape.children_map, load, List.map_map]
    exact congrArg _ (congrArg List.sum (List.map_congr_left ih))

theorem weight_of_bare {a b : Expr} (h : a.bare = b.bare) : a.weight = b.weight := by
  rw [← weight_bare a, h, weight_bare]

@[simp] theorem weight_analyze (e : Expr) : e.analyze.weight = e.weight := weight_of_bare (bare_analyze e)

/-! ## Terms -/

end Expr

/-- The weight of a term. -/
def Ratio.weight (t : Ratio Expr) : Nat := t.base + Expr.load t.factors

/-- The weight of a list of terms. -/
def termsWeight (ts : List (Ratio Expr)) : Nat := (ts.map Ratio.weight).sum

@[simp] theorem termsWeight_nil : termsWeight [] = 0 := rfl

@[simp] theorem termsWeight_cons (t : Ratio Expr) (ts : List (Ratio Expr)) :
    termsWeight (t :: ts) = t.weight + termsWeight ts := rfl

@[simp] theorem termsWeight_append (ts us : List (Ratio Expr)) :
    termsWeight (ts ++ us) = termsWeight ts + termsWeight us := by simp [termsWeight]

theorem Expr.weight_sum (s : Sign) (ts : List (Ratio Expr)) (c : Option Summary) :
    (⟨s, .sum ts, c⟩ : Expr).weight = 3 + termsWeight ts := by
  rw [weight_eq]
  simp only [Shape.base, children, Shape.children]
  induction ts with
  | nil => rfl
  | cons t ts ih =>
    simp only [List.map_cons, List.sum_cons, List.flatMap_cons, load_append, termsWeight_cons, Ratio.weight]
    omega

theorem Ratio.four_le_weight_of_nil {ds : List Expr} : 4 ≤ (⟨[], ds⟩ : Ratio Expr).weight := by
  simp [weight, base]

/-- No term is lighter than a single whole number. -/
theorem Ratio.three_le_weight (t : Ratio Expr) : 3 ≤ t.weight := by
  obtain ⟨ns, ds⟩ := t
  cases ns with
  | nil => exact Nat.le_of_succ_le four_le_weight_of_nil
  | cons n ns =>
    have := n.two_le_weight
    simp only [weight, base, factors, List.cons_append, Expr.load_cons]
    omega

theorem Ratio.weight_of (e : Expr) : (Ratio.of e).weight = 1 + e.weight := by
  simp [weight, base, of, factors]

/-- Putting a minus in front of a term adds no weight. -/
theorem Ratio.weight_neg_le (t : Ratio Expr) : t.neg.weight ≤ t.weight := by
  match t with
  | ⟨n :: ns, ds⟩ => simp [neg, weight, base, factors]
  | ⟨[], d :: ds⟩ => simp [neg, weight, base, factors]
  | ⟨[], []⟩ => decide

/-! ## Steps that lighten -/

namespace Expr

variable {f g : Expr → Expr}

/-- The step leaves every node as it is, or makes it lighter. -/
def Lightens (f : Expr → Expr) : Prop := ∀ e, (f e).bare = e.bare ∨ (f e).weight < e.weight

theorem Lightens.weight_le (hf : Lightens f) (e : Expr) : (f e).weight ≤ e.weight := by
  rcases hf e with h | h
  · exact (weight_of_bare h).le
  · exact h.le

theorem weight_map_children (e : Expr) (c : Option Summary) :
    (⟨e.sign, e.shape.map g, c⟩ : Expr).weight = e.shape.base + load (e.children.map g) := by
  rw [weight_eq]
  simp only [Shape.base_map, children, Shape.children_map]

/-- A pass adds no weight if its step adds none. -/
theorem IsBottomUp.weight_le (hg : IsBottomUp f g) (hf : ∀ e : Expr, (f e).weight ≤ e.weight) (e : Expr) :
    (g e).weight ≤ e.weight := by
  induction e using Expr.induction with
  | h e ih =>
    obtain ⟨c, hc⟩ := hg e
    have hl := load_map_le (g := g) ih
    have hs := hf ⟨e.sign, e.shape.map g, c⟩
    rw [weight_map_children] at hs
    rw [hc, weight_eq e]
    omega

/-- A pass that keeps the weight of a tree takes steps that leave every node. -/
theorem IsBottomUp.everywhere_of_weight_eq (hg : IsBottomUp f g)
    (hb : IgnoresAnalysis f) (hf : Lightens f) {e : Expr}
    (h : (g e).weight = e.weight) : e.Everywhere fun a => (f a).bare = a.bare := by
  induction e using Expr.induction with
  | h e ih =>
    have hle := fun a (_ : a ∈ e.children) => hg.weight_le hf.weight_le a
    obtain ⟨c, hc⟩ := hg e
    have hs := hf.weight_le ⟨e.sign, e.shape.map g, c⟩
    have hl := load_map_le (g := g) hle
    rw [weight_map_children] at hs
    rw [hc, weight_eq e] at h
    -- were some operand lighter, so would be the tree
    have hchildren : ∀ a ∈ e.children, a.Everywhere fun a => (f a).bare = a.bare := by
      intro a ha
      apply ih a ha
      by_contra hne
      have := load_map_lt hle ha (lt_of_le_of_ne (hle a ha) hne)
      omega
    refine everywhere_iff.mpr ⟨?_, hchildren⟩
    have hm : (⟨e.sign, e.shape.map g, c⟩ : Expr).bare = e.bare := by
      rw [bare_mk, Shape.map_map, bare_eq e]
      exact congrArg (Expr.mk _ · _) (Shape.map_congr fun a ha => hg.bare_eq_self hb (hchildren a ha))
    rcases hf ⟨e.sign, e.shape.map g, c⟩ with h' | h'
    · rw [← hb.congr hm, h', hm]
    · rw [weight_map_children] at h'
      omega

end Expr

end Isolate
