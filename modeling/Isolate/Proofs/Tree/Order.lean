import Isolate.Proofs.Tree.Bare
import Mathlib.Algebra.Order.Ring.Rat

/-!
# Expressions are totally ordered

Three comparisons of three things two by two fit together if they can come from a total order (`Fit`). Comparisons that
fit stay so when they are put one behind the other (`Fit.then`), and this goes through a whole tree (`Expr.fit_compare`).
Nothing else is equal than what is equal in form (`Expr.compare_eq_iff`).

* `sortFactors_congr`: lists with the same factors up to order are the same once they are sorted.
-/

namespace Isolate

open Isolate.Expr (bare)

/-! ## Comparisons that fit together -/

/-- Comparisons of a first thing with a second one, of the second with a third, and of the first with the third. -/
structure Fit (x y z : Ordering) : Prop where
  left : x = .eq → z = y
  right : y = .eq → z = x
  lt : x = .lt → y = .lt → z = .lt
  gt : x = .gt → y = .gt → z = .gt

namespace Fit

variable {x y z x' y' z' : Ordering}

theorem of_transOrd [Ord α] [Std.TransOrd α] (a b c : α) : Fit (compare a b) (compare b c) (compare a c) where
  left h := Std.TransCmp.congr_left h
  right h := (Std.TransCmp.congr_right h).symm
  lt h h' := Std.TransCmp.lt_trans h h'
  gt h h' := Std.TransCmp.gt_trans h h'

/-- The later comparisons count only where the earlier ones find no difference. -/
theorem lex (h : Fit x y z) (h' : x = .eq → y = .eq → Fit x' y' z') : Fit (x.then x') (y.then y') (z.then z') := by
  obtain ⟨hleft, hright, hlt, hgt⟩ := h
  cases x <;> cases y <;> simp_all [Ordering.then] <;> exact ⟨by simp, by simp, by simp, by simp⟩

theorem isLE (h : Fit x y z) (hx : x.isLE = true) (hy : y.isLE = true) : z.isLE = true := by
  obtain ⟨hleft, hright, hlt, hgt⟩ := h
  cases x <;> cases y <;> simp_all

/-- Of two opposite comparisons, one is the other way round. -/
theorem swap_eq (h : Fit x y .eq) : y = x.swap := by
  obtain ⟨hleft, hright, hlt, hgt⟩ := h
  cases x <;> cases y <;> simp_all

end Fit

/-! ## Equality -/

namespace Expr

theorem compareRat_eq_iff {v w : Rat} : compareRat v w = .eq ↔ v = w := by
  unfold compareRat
  split
  · rename_i h
    simp [h.ne]
  · split <;> simp_all

mutual

/-- What compares as equal is equal in form. -/
theorem compare_eq_iff : ∀ a b : Expr, compare a b = .eq ↔ a.bare = b.bare
  | ⟨s, b, _⟩, ⟨t, c, _⟩ => by
    have hs : s.rank = t.rank ↔ s = t := by cases s <;> cases t <;> simp [Sign.rank]
    simp [compare, Ordering.then_eq_eq, compareShape_eq_iff b c, hs]

theorem compareShape_eq_iff : ∀ b c : Shape Expr, compareShape b c = .eq ↔ b.map bare = c.map bare
  | .number v, c => by cases c <;> simp [compareShape, Shape.map, Shape.rank, compareRat_eq_iff]
  | .var m, c => by cases c <;> simp [compareShape, Shape.map, Shape.rank]
  | .power a b, c => by
    cases c <;> simp [compareShape, Shape.map, Shape.rank, Ordering.then_eq_eq, compare_eq_iff a, compare_eq_iff b]
  | .modulo a b, c => by
    cases c <;> simp [compareShape, Shape.map, Shape.rank, Ordering.then_eq_eq, compare_eq_iff a, compare_eq_iff b]
  | .factorial a, c => by cases c <;> simp [compareShape, Shape.map, Shape.rank, compare_eq_iff a]
  | .call m as, c => by
    cases c <;> simp [compareShape, Shape.map, Shape.rank, Ordering.then_eq_eq, compareFactors_eq_iff as]
  | .sum ts, c => by cases c <;> simp [compareShape, Shape.map, Shape.rank, compareTerms_eq_iff ts]

theorem compareFactors_eq_iff : ∀ as bs : List Expr, compareFactors as bs = .eq ↔ as.map bare = bs.map bare
  | [], bs => by cases bs <;> simp [compareFactors]
  | a :: as, bs => by
    cases bs <;> simp [compareFactors, Ordering.then_eq_eq, compare_eq_iff a, compareFactors_eq_iff as]

theorem compareTerms_eq_iff : ∀ ts us : List (Ratio Expr),
    compareTerms ts us = .eq ↔ ts.map (Ratio.map bare) = us.map (Ratio.map bare)
  | [], us => by cases us <;> simp [compareTerms]
  | ⟨a, b⟩ :: ts, [] => by simp [compareTerms]
  | ⟨a, b⟩ :: ts, ⟨c, d⟩ :: us => by
    simp [compareTerms, Ordering.then_eq_eq, compareFactors_eq_iff a, compareFactors_eq_iff b, compareTerms_eq_iff ts,
      Ratio.map]

end

/-! ## Order -/

theorem fit_compareRat (u v w : Rat) : Fit (compareRat u v) (compareRat v w) (compareRat u w) := by
  have h : ∀ p q : Rat, compareRat p q = Ord.compare p q := fun _ _ => rfl
  rw [h, h, h]
  exact .of_transOrd u v w

theorem compareShape_of_rank_ne {b c : Shape Expr} (h : b.rank ≠ c.rank) :
    compareShape b c = Ord.compare b.rank c.rank := by
  cases b <;> cases c <;> simp_all [compareShape, Shape.rank]

/-- Nodes of different kinds come in the order of the kinds, so only nodes of one kind matter. -/
theorem fit_of_rank {b c d : Shape Expr}
    (h : b.rank = c.rank → c.rank = d.rank → Fit (compareShape b c) (compareShape c d) (compareShape b d)) :
    Fit (compareShape b c) (compareShape c d) (compareShape b d) := by
  have hthen : ∀ b c : Shape Expr, compareShape b c = (Ord.compare b.rank c.rank).then (compareShape b c) := by
    intro b c
    by_cases hbc : b.rank = c.rank
    · simp [hbc, Ordering.then]
    · rw [compareShape_of_rank_ne hbc]
      cases Ord.compare b.rank c.rank <;> rfl
  rw [hthen b c, hthen c d, hthen b d]
  exact (Fit.of_transOrd b.rank c.rank d.rank).lex fun hbc hcd =>
    h (Std.LawfulEqOrd.eq_of_compare hbc) (Std.LawfulEqOrd.eq_of_compare hcd)

mutual

/-- **Comparisons of expressions fit together.** -/
theorem fit_compare : ∀ a b c : Expr, Fit (compare a b) (compare b c) (compare a c)
  | ⟨s, b, _⟩, ⟨t, c, _⟩, ⟨u, d, _⟩ => by
    simp only [compare]
    exact (Fit.of_transOrd s.rank t.rank u.rank).lex fun _ _ => fit_compareShape b c d

theorem fit_compareShape : ∀ b c d : Shape Expr, Fit (compareShape b c) (compareShape c d) (compareShape b d)
  | .number u, c, d => fit_of_rank fun hbc hcd => by
    cases c <;> simp [Shape.rank] at hbc
    cases d <;> simp [Shape.rank] at hcd
    simp only [compareShape]
    exact fit_compareRat ..
  | .var l, c, d => fit_of_rank fun hbc hcd => by
    cases c <;> simp [Shape.rank] at hbc
    cases d <;> simp [Shape.rank] at hcd
    simp only [compareShape]
    exact .of_transOrd ..
  | .power a b, c, d => fit_of_rank fun hbc hcd => by
    cases c <;> simp [Shape.rank] at hbc
    cases d <;> simp [Shape.rank] at hcd
    simp only [compareShape]
    exact (fit_compare a ..).lex fun _ _ => fit_compare b ..
  | .modulo a b, c, d => fit_of_rank fun hbc hcd => by
    cases c <;> simp [Shape.rank] at hbc
    cases d <;> simp [Shape.rank] at hcd
    simp only [compareShape]
    exact (fit_compare a ..).lex fun _ _ => fit_compare b ..
  | .factorial a, c, d => fit_of_rank fun hbc hcd => by
    cases c <;> simp [Shape.rank] at hbc
    cases d <;> simp [Shape.rank] at hcd
    simp only [compareShape]
    exact fit_compare a ..
  | .call l as, c, d => fit_of_rank fun hbc hcd => by
    cases c <;> simp [Shape.rank] at hbc
    cases d <;> simp [Shape.rank] at hcd
    simp only [compareShape]
    exact (Fit.of_transOrd ..).lex fun _ _ => fit_compareFactors as ..
  | .sum ts, c, d => fit_of_rank fun hbc hcd => by
    cases c <;> simp [Shape.rank] at hbc
    cases d <;> simp [Shape.rank] at hcd
    simp only [compareShape]
    exact fit_compareTerms ts ..

theorem fit_compareFactors : ∀ as bs cs : List Expr,
    Fit (compareFactors as bs) (compareFactors bs cs) (compareFactors as cs)
  | a :: as, b :: bs, c :: cs => by
    simp only [compareFactors]
    exact (fit_compare a b c).lex fun _ _ => fit_compareFactors as bs cs
  | [], [], cs => by
    cases cs <;> simp only [compareFactors] <;> constructor <;> simp
  | [], _ :: _, cs => by
    cases cs <;> simp only [compareFactors] <;> constructor <;> simp
  | _ :: _, [], cs => by
    cases cs <;> simp only [compareFactors] <;> constructor <;> simp
  | _ :: _, _ :: _, [] => by
    simp only [compareFactors]
    constructor <;> simp

theorem fit_compareTerms : ∀ ts us vs : List (Ratio Expr),
    Fit (compareTerms ts us) (compareTerms us vs) (compareTerms ts vs)
  | ⟨a, b⟩ :: ts, ⟨a', b'⟩ :: us, ⟨a'', b''⟩ :: vs => by
    simp only [compareTerms]
    exact ((fit_compareFactors a a' a'').lex fun _ _ => fit_compareFactors b b' b'').lex fun _ _ =>
      fit_compareTerms ts us vs
  | [], [], cs => by
    cases cs <;> simp only [compareTerms] <;> constructor <;> simp
  | [], _ :: _, cs => by
    cases cs <;> simp only [compareTerms] <;> constructor <;> simp
  | _ :: _, [], cs => by
    cases cs <;> simp only [compareTerms] <;> constructor <;> simp
  | _ :: _, _ :: _, [] => by
    simp only [compareTerms]
    constructor <;> simp

end

theorem compare_self (a : Expr) : compare a a = .eq := (compare_eq_iff a a).mpr rfl

theorem compare_swap (a b : Expr) : compare b a = (compare a b).swap := by
  have h := fit_compare a b a
  rw [compare_self] at h
  exact h.swap_eq

theorem le_trans {a b c : Expr} (hab : le a b = true) (hbc : le b c = true) : le a c = true := by
  rw [le] at hab hbc ⊢
  exact (fit_compare a b c).isLE hab hbc

theorem le_total (a b : Expr) : (le a b || le b a) = true := by
  simp only [le, compare_swap a b]
  cases compare a b <;> rfl

theorem bare_eq_of_le {a b : Expr} (hab : le a b = true) (hba : le b a = true) : a.bare = b.bare := by
  rw [le, compare_swap a b] at hba
  rw [le] at hab
  refine (compare_eq_iff a b).mp ?_
  cases h : compare a b <;> simp_all

end Expr

/-! ## Sorting -/

namespace Monomial

/-- **Lists with the same factors up to order are the same once they are sorted.** -/
theorem sortFactors_congr {as bs : List Expr} (h : (as.map Expr.bare).Perm (bs.map Expr.bare)) :
    (sortFactors as).map Expr.bare = (sortFactors bs).map Expr.bare := by
  rw [← sortFactors_bare, ← sortFactors_bare]
  have hsorted : ∀ es : List Expr, (sortFactors es).Pairwise fun a b => Expr.le a b = true :=
    List.pairwise_mergeSort (fun _ _ _ => Expr.le_trans) Expr.le_total
  have hbare : ∀ es : List Expr, ∀ e ∈ sortFactors (es.map Expr.bare), e.bare = e := by
    intro es e he
    obtain ⟨a, -, rfl⟩ := List.mem_map.mp ((List.mergeSort_perm _ _).mem_iff.mp he)
    exact Expr.bare_bare a
  refine List.Perm.eq_of_pairwise (fun a b ha hb hab hba => ?_) (hsorted _) (hsorted _)
    ((List.mergeSort_perm _ _).trans (h.trans (List.mergeSort_perm _ _).symm))
  rw [← hbare as a ha, ← hbare bs b hb]
  exact Expr.bare_eq_of_le hab hba

theorem beq_of_map_bare {as bs : List Expr} (h : as.map Expr.bare = bs.map Expr.bare) : (as == bs) = true := by
  rw [← Expr.beq_map_bare, h]
  induction bs.map Expr.bare with
  | nil => rfl
  | cons b bs ih => exact Bool.and_eq_true_iff.mpr ⟨(Expr.beq_iff b b).mpr rfl, ih⟩

/-- Monomials with the same factors up to order, analyses apart, are like each other. -/
theorem isLike_of_perm {m n : Monomial} (hn : (n.numerator.map Expr.bare).Perm (m.numerator.map Expr.bare))
    (hd : (n.denominator.map Expr.bare).Perm (m.denominator.map Expr.bare)) : n.isLike m = true :=
  Bool.and_eq_true_iff.mpr ⟨beq_of_map_bare (sortFactors_congr hn), beq_of_map_bare (sortFactors_congr hd)⟩

end Monomial

end Isolate
