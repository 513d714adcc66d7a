import Isolate.Proofs.Reordering.Rounds

/-!
# Normal forms and order

The order that an equation is written in shows in its normal form only as an order, and in the factor of a product that
bears its minus, as long as every round tells apart what it compares: `Equation.normalize_reorders`.

What a round compares are factors across a line and the terms of a sum, and these by their form. It does not see that
`f(a * b)` and `f(b * a)` are the same, so it leaves their sum as it is, where it doubles `f(a * b)`
(`Equation.normalize_differs_by_order`). Factors without sums in them are always told apart (`Expr.everywhere_isDiscerned`).
Whether the normal forms are found to be like each other is another question: the comparison goes by the first pairing that
it finds, so the parts have to fix the names that they share.
-/

namespace Isolate

variable {I : Interpretation}

/-! ## Factors without sums -/

namespace Expr

variable {a b e : Expr}

/-- There is no sum in the tree. -/
def IsSumFree (e : Expr) : Prop := e.Everywhere fun a => a.termCount? = none

instance : DecidablePred IsSumFree := fun _ => inferInstanceAs (Decidable (Everywhere _ _))

theorem not_sum_of_termCount? (h : e.termCount? = none) (ts : List (Ratio Expr)) : e.shape ≠ .sum ts := fun hts => by
  rw [termCount?_eq_some.mpr ⟨ts, hts, rfl⟩] at h
  cases h

theorem termCount?_bare (e : Expr) : e.bare.termCount? = e.termCount? := by
  obtain ⟨s, b, c⟩ := e
  cases b <;> simp [termCount?, Shape.map]

/-- There is nothing to gather where there are no sums. -/
theorem gathered_of_isSumFree (h : e.IsSumFree) : e.gathered = e.bare := by
  induction e using Expr.induction with
  | h e ih =>
    obtain ⟨hsum, hchildren⟩ := everywhere_iff.mp h
    have hmap : e.shape.map gathered = e.shape.map bare := Shape.map_congr fun a ha => ih a ha (hchildren a ha)
    rw [gathered_eq, hmap, bare_eq]
    cases hb : e.shape with
    | sum ts => exact absurd hb (not_sum_of_termCount? hsum ts)
    | _ => rfl

theorem abs_bare_of_akin (h : a.Akin b) (ha : a.IsSumFree) (hb : b.IsSumFree) : a.abs.bare = b.abs.bare := by
  rw [← bare_abs, ← bare_abs, ← gathered_of_isSumFree ha, ← gathered_of_isSumFree hb]
  exact akin_iff_core.mp h

/-- Reducing leaves what has no sums. -/
theorem IsSumFree.reduceUp (h : e.IsSumFree) : (e.editUp reduceStep .all).IsSumFree := by
  have hbare : (e.editUp reduceStep .all).bare = e.bare :=
    (isBottomUp_editUp reduceStep).bare_eq_self ignoresAnalysis_reduceStep
      (h.imp fun a ha => congrArg bare (isOfSums_reduceStep a (not_sum_of_termCount? ha)))
  exact (everywhere_congr (fun a => by rw [termCount?_bare]) hbare).mpr h

/-- A sum of products of factors that have no sums in them is told apart. -/
theorem everywhere_isDiscerned (h : ∀ a ∈ e.children, a.IsSumFree) : e.Everywhere IsDiscerned := by
  refine everywhere_iff.mpr ⟨fun ts hts => Ratio.areDiscerned_of_factors ?_, fun a ha => ?_⟩
  · have hfactor : ∀ x ∈ (ts.map (Ratio.map (editUp reduceStep .all))).flatMap Ratio.factors, x.IsSumFree := by
      intro x hx
      obtain ⟨u, hu, hx⟩ := List.mem_flatMap.mp hx
      obtain ⟨t, ht, rfl⟩ := List.mem_map.mp hu
      rw [Ratio.factors_map] at hx
      obtain ⟨a, ha, rfl⟩ := List.mem_map.mp hx
      exact (h a (by rw [children, hts]; exact List.mem_flatMap.mpr ⟨t, ht, ha⟩)).reduceUp
    exact fun x hx y hy hxy => abs_bare_of_akin hxy (hfactor x hx) (hfactor y hy)
  · exact (h a ha).imp fun b hb ts hts => absurd hts (not_sum_of_termCount? hb ts)

end Expr

namespace Equation

variable {q r q' r' : Equation} {limit limit' : Int} {n n' : Nat}

/-- What a round compares is told apart, on every side. -/
def Discerns (q : Equation) : Prop := ∀ e ∈ q.sides, e.Discerns

theorem sides_afterRounds (q : Equation) (k : Nat) :
    (q.afterRounds k).sides = q.sides.map fun e => Expr.tidy^[k] e.analyze := by
  rw [← iterate_tidy_analyze, sides_iterate_tidy, analyze, List.map_map]
  rfl

theorem discerns_of_isSumFree (h : ∀ e ∈ q.sides, ∀ a ∈ e.flatten.children, a.IsSumFree) : q.Discerns := fun e he =>
  Expr.everywhere_isDiscerned (h e he)

/-- Where one round settles an equation, there are two equations to look at. -/
theorem discerns_afterRounds (h : q.afterRounds 1 = r) (hr : r.tidy = r) (hq : q.analyze.Discerns) (hr' : r.Discerns)
    (k : Nat) : (q.afterRounds k).Discerns := by
  subst h
  cases k with
  | zero => exact hq
  | succ k => rwa [afterRounds_of_tidy_eq hr (Nat.succ_le_succ k.zero_le)]

theorem gathered_normalize (h : q.Reorders r) (hdef : q.IsDefined I) (hq : ∀ k, (q.afterRounds k).Discerns)
    (hr : ∀ k, (r.afterRounds k).Discerns) (hnq : q.normalize usualPasses .bijective limit = (q', .ok n))
    (hnr : r.normalize usualPasses .bijective limit' = (r', .ok n')) : q'.gathered = r'.gathered := by
  obtain ⟨i, rfl⟩ := afterRounds_of_normalize hnq
  obtain ⟨j, rfl⟩ := afterRounds_of_normalize hnr
  -- both standstills are reached by the later of the two rounds
  have hi : q.afterRounds (max i j + 1) = q.afterRounds i :=
    afterRounds_of_tidy_eq (tidy_of_normalize hnq) ((le_max_left i j).trans (Nat.le_succ _))
  have hj : r.afterRounds (max i j + 1) = r.afterRounds j :=
    afterRounds_of_tidy_eq (tidy_of_normalize hnr) ((le_max_right i j).trans (Nat.le_succ _))
  have hdiscerns : ∀ p : Equation, (∀ k, (p.afterRounds k).Discerns) → ∀ e ∈ p.sides, ∀ k,
      (Expr.tidy^[k] e.analyze).Discerns := fun p hp e he k =>
    hp k _ (by rw [sides_afterRounds]; exact List.mem_map_of_mem he)
  rw [← hi, ← hj, gathered_eq_iff, sides_afterRounds, sides_afterRounds, List.forall₂_map_left_iff,
    List.forall₂_map_right_iff]
  exact (forall₂_and_mem h).imp fun a b ⟨hab, ha, hb⟩ =>
    (hab.gathered_rounds (hdef a ha) (hdiscerns q hq a ha) (hdiscerns r hr b hb) _).1

/-- **Normalising does not depend on the order, but for order itself.** If two equations differ only in the order of terms
within sums and of factors within products, at any depth, and normalising ends on both, then the results differ only in
order too, and in which factor of a product bears its minus. Where that is always a number they differ only in order, and
are like each other, if the parts of the first result fix the names that they share. The equations have to be defined
somewhere, and no round may compare factors or terms that differ in no more than this and not find them to be the same. -/
theorem normalize_reorders (h : q.Reorders r) (hdef : q.IsDefined I) (hq : ∀ k, (q.afterRounds k).Discerns)
    (hr : ∀ k, (r.afterRounds k).Discerns) (hnq : q.normalize usualPasses .bijective limit = (q', .ok n))
    (hnr : r.normalize usualPasses .bijective limit' = (r', .ok n')) :
    q'.gathered = r'.gathered ∧ (q'.HasMinusAtNumbers → q'.Reorders r' ∧
      ((Comparable.equation q').IsUnambiguous → isLike .bijective q' r' = true)) := by
  have hgathered := gathered_normalize h hdef hq hr hnq hnr
  refine ⟨hgathered, fun hminus => ?_⟩
  have hcanonical : ∀ {p p' : Equation} {limit : Int} {n : Nat}, p.normalize usualPasses .bijective limit = (p', .ok n) →
      ∀ e ∈ p'.sides, e.Everywhere Expr.IsCanonical := fun hp e he =>
    (Expr.everywhere_isLeft (tidy_of_mem (tidy_of_normalize hp) he)).imp fun _ => Expr.IsLeft.isCanonical
  have hreorders := reorders_of_isCanonical hgathered (hcanonical hnq) (hcanonical hnr) hminus
  exact ⟨hreorders, isLike_of_reorders hreorders⟩

/-- The equation `3 * (x * -2) / y + z * y / y = w`. -/
def scaledFirst : Equation :=
  ⟨[.sum [⟨[.number 3, (Expr.var "x").mul (.number (-2))], [.var "y"]⟩, ⟨[.var "z", .var "y"], [.var "y"]⟩], .var "w"]⟩

/-- The equation `y * z / y + -2 * x * 3 / y = w`. -/
def scaledLast : Equation :=
  ⟨[.sum [⟨[.var "y", .var "z"], [.var "y"]⟩, ⟨[(Expr.number (-2)).mul (.var "x"), .number 3], [.var "y"]⟩], .var "w"]⟩

/-- What a round makes of the first one: `-6 * x / y + z = w`. -/
def scaledFirstNormal : Equation :=
  Equation.analyze ⟨[.sum [⟨[(Expr.number 6).neg, .var "x"], [.var "y"]⟩, .of (.var "z")], .var "w"]⟩

/-- What a round makes of the other one: `z + -6 * x / y = w`. -/
def scaledLastNormal : Equation :=
  Equation.analyze ⟨[.sum [.of (.var "z"), ⟨[(Expr.number 6).neg, .var "x"], [.var "y"]⟩], .var "w"]⟩

theorem discerns_scaledFirst : ∀ k, (scaledFirst.afterRounds k).Discerns :=
  discerns_afterRounds (r := scaledFirstNormal) (by cbv) (by cbv) (discerns_of_isSumFree (by decide))
    (discerns_of_isSumFree (by decide))

theorem discerns_scaledLast : ∀ k, (scaledLast.afterRounds k).Discerns :=
  discerns_afterRounds (r := scaledLastNormal) (by cbv) (by cbv) (discerns_of_isSumFree (by decide))
    (discerns_of_isSumFree (by decide))

theorem isDefined_scaledFirst : scaledFirst.IsDefined allThree := by
  simp [scaledFirst, IsDefined, Expr.mul, Expr.sum, Expr.number, Expr.var, Expr.ofShape, Expr.isDefined_sum,
    Ratio.isDefined_iff, Expr.isDefined_number, Expr.isDefined_var, Expr.value_mk, Interpretation.apply, Shape.map,
    Sign.apply, allThree]

theorem normalize_reorders_scaled : scaledFirst.Reorders scaledLast ∧ scaledFirst.IsDefined allThree ∧
    (∀ k, (scaledFirst.afterRounds k).Discerns) ∧ (∀ k, (scaledLast.afterRounds k).Discerns) ∧
      scaledFirst.normalize usualPasses .bijective 64 = (scaledFirstNormal, .ok 2) ∧
        scaledLast.normalize usualPasses .bijective 64 = (scaledLastNormal, .ok 2) ∧
          scaledFirstNormal.gathered = scaledLastNormal.gathered ∧ scaledFirstNormal.HasMinusAtNumbers ∧
            scaledFirstNormal.Reorders scaledLastNormal ∧ (Comparable.equation scaledFirstNormal).IsUnambiguous ∧
              isLike .bijective scaledFirstNormal scaledLastNormal = true := by
  have hreorders : scaledFirst.Reorders scaledLast := reorders_of_isPlain (by cbv) (by decide) (by decide)
  have hfirst : scaledFirst.normalize usualPasses .bijective 64 = (scaledFirstNormal, .ok 2) := by cbv
  have hlast : scaledLast.normalize usualPasses .bijective 64 = (scaledLastNormal, .ok 2) := by cbv
  have hminus : scaledFirstNormal.HasMinusAtNumbers := by decide
  have hunambiguous : (Comparable.equation scaledFirstNormal).IsUnambiguous := isUnambiguous_of_nodup (by decide)
  obtain ⟨hgathered, hlike⟩ := normalize_reorders hreorders isDefined_scaledFirst discerns_scaledFirst discerns_scaledLast
    hfirst hlast
  obtain ⟨hnormal, hlike⟩ := hlike hminus
  exact ⟨hreorders, isDefined_scaledFirst, discerns_scaledFirst, discerns_scaledLast, hfirst, hlast, hgathered, hminus,
    hnormal, hunambiguous, hlike hunambiguous⟩

/-! ## Where the order counts -/

/-- The equations differ in order only, and normalising ends on both, but the results are not like each other. -/
def DifferByOrder (q r : Equation) : Prop :=
  q.Reorders r ∧ ∃ q' r' n n', q.normalize usualPasses .bijective 64 = (q', .ok n) ∧
    r.normalize usualPasses .bijective 64 = (r', .ok n') ∧ isLike .bijective q' r' = false

/-- The side `(-a) * b + a`. -/
def minusFirst : Equation := ⟨[(Expr.mul (.sum [.of (Expr.var "a").neg]) (.var "b")).add (.var "a")]⟩

/-- The side `b * (-a) + a`. -/
def minusLast : Equation := ⟨[(Expr.mul (.var "b") (.sum [.of (Expr.var "a").neg])).add (.var "a")]⟩

/-- The side `f(a * b) + f(a * b)`. -/
def sameCalls : Equation :=
  ⟨[(Expr.call "f" [(Expr.var "a").mul (.var "b")]).add (.call "f" [(Expr.var "a").mul (.var "b")])]⟩

/-- The side `f(a * b) + f(b * a)`. -/
def swappedCalls : Equation :=
  ⟨[(Expr.call "f" [(Expr.var "a").mul (.var "b")]).add (.call "f" [(Expr.var "b").mul (.var "a")])]⟩

/-- The side `1 / ((x - x) * y * -1 + 0)`. -/
def zeroFirst : Equation :=
  ⟨[(Expr.number 1).div (.sum [⟨[(Expr.var "x").sub (.var "x"), .var "y", .number (-1)], []⟩, .of (.number 0)])]⟩

/-- The side `1 / (y * (x - x) * -1 + 0)`. -/
def zeroLast : Equation :=
  ⟨[(Expr.number 1).div (.sum [⟨[.var "y", (Expr.var "x").sub (.var "x"), .number (-1)], []⟩, .of (.number 0)])]⟩

/-- The equation `f(c * a) + f(b * d) = a`. -/
def tangledFirst : Equation :=
  ⟨[(Expr.call "f" [(Expr.var "c").mul (.var "a")]).add (.call "f" [(Expr.var "b").mul (.var "d")]), .var "a"]⟩

/-- The equation `f(a * c) + f(b * d) = a`. -/
def tangledLast : Equation :=
  ⟨[(Expr.call "f" [(Expr.var "a").mul (.var "c")]).add (.call "f" [(Expr.var "b").mul (.var "d")]), .var "a"]⟩

/-- The minus of a product ends up at the factor that stands first, and in `-a * b + a` the name `a` stands for more than in
`-b * a + a`; `f(a * b)` is added to itself, but not to `f(b * a)`; and a factor that becomes zero loses its minus, so that
a divisor that vanishes leaves one or not. Nothing of that kind is in `f(c * a) + f(b * d) = a`, which is its own normal
form, but the order of its terms depends on that of the factors, and a comparison that pairs `f(b * d)` with `f(a * c)`
has given `a` another partner when it comes to the second side. -/
theorem normalize_differs_by_order : DifferByOrder minusFirst minusLast ∧ DifferByOrder sameCalls swappedCalls ∧
    DifferByOrder zeroFirst zeroLast ∧ DifferByOrder tangledFirst tangledLast := by
  refine ⟨⟨?_, _, _, 2, 2, Prod.ext rfl (by cbv), Prod.ext rfl (by cbv), by cbv⟩,
    ⟨?_, _, _, 2, 1, Prod.ext rfl (by cbv), Prod.ext rfl (by cbv), by cbv⟩,
    ⟨?_, _, _, 3, 3, Prod.ext rfl (by cbv), Prod.ext rfl (by cbv), by cbv⟩,
    ⟨?_, _, _, 1, 1, Prod.ext rfl (by cbv), Prod.ext rfl (by cbv), by cbv⟩⟩
  · exact reorders_of_isPlain (by cbv) (by decide) (by decide)
  · exact reorders_of_isPlain (by cbv) (by decide) (by decide)
  · exact reorders_of_isPlain (by cbv) (by decide) (by decide)
  · exact reorders_of_isPlain (by cbv) (by decide) (by decide)

end Equation

end Isolate
