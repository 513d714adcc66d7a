import Isolate.Normal.Flatten
import Isolate.Normal.Simplify
import Isolate.Proofs.Monomial
import Isolate.Proofs.Tree.BottomUp

/-!
# The steps of normalising ignore what was analysed

Order and equality of trees do not look at analyses (`Expr.compare_bare`, `Expr.beq_bare`). So splicing, splitting,
cancelling and collecting commute with forgetting them, and the four steps of a round ignore them:
`ignoresAnalysis_flattenStep`, `ignoresAnalysis_reduceStep`, `ignoresAnalysis_dropUnits` and
`ignoresAnalysis_neutralStep`.
-/

namespace Isolate

open Isolate.Expr (bare IgnoresAnalysis)

/-! ## Equality and order -/

namespace Expr

theorem beq_bare (a b : Expr) : (a.bare == b.bare) = (a == b) := by
  have h : (a.bare == b.bare) = true ↔ (a == b) = true := by
    refine (beq_iff a.bare b.bare).trans (Iff.trans ?_ (beq_iff a b).symm)
    rw [bare_bare, bare_bare]
  exact Bool.eq_iff_iff.mpr h

@[simp] theorem rank_map (f : α → β) (b : Shape α) : (b.map f).rank = b.rank := by cases b <;> rfl

mutual

theorem compare_bare : ∀ a b : Expr, compare a.bare b.bare = compare a b
  | ⟨s, b, _⟩, ⟨t, c, _⟩ => by simp only [bare_mk, compare, compareShape_bare b c]

theorem compareShape_bare : ∀ b c : Shape Expr, compareShape (b.map bare) (c.map bare) = compareShape b c
  | .number v, c => by cases c <;> simp [Shape.map, compareShape, Shape.rank]
  | .var m, c => by cases c <;> simp [Shape.map, compareShape, Shape.rank]
  | .power a b, c => by cases c <;> simp [Shape.map, compareShape, Shape.rank, compare_bare a, compare_bare b]
  | .modulo a b, c => by cases c <;> simp [Shape.map, compareShape, Shape.rank, compare_bare a, compare_bare b]
  | .factorial a, c => by cases c <;> simp [Shape.map, compareShape, Shape.rank, compare_bare a]
  | .call m as, c => by cases c <;> simp [Shape.map, compareShape, Shape.rank, compareFactors_bare as]
  | .sum ps, c => by cases c <;> simp [Shape.map, compareShape, Shape.rank, compareTerms_bare ps]

theorem compareFactors_bare : ∀ as bs : List Expr, compareFactors (as.map bare) (bs.map bare) = compareFactors as bs
  | [], bs => by cases bs <;> simp [compareFactors]
  | a :: as, bs => by cases bs <;> simp [compareFactors, compare_bare a, compareFactors_bare as]

theorem compareTerms_bare : ∀ ps qs : List (Ratio Expr),
    compareTerms (ps.map (Ratio.map bare)) (qs.map (Ratio.map bare)) = compareTerms ps qs
  | [], qs => by cases qs <;> simp [compareTerms]
  | ⟨a, b⟩ :: ps, [] => by simp [compareTerms]
  | ⟨a, b⟩ :: ps, ⟨c, d⟩ :: qs => by
    simp [compareTerms, Ratio.map, compareFactors_bare a, compareFactors_bare b, compareTerms_bare ps]

end

@[simp] theorem le_bare (a b : Expr) : le a.bare b.bare = le a b := by rw [le, compare_bare, le]

theorem beq_map_bare (as bs : List Expr) : (as.map bare == bs.map bare) = (as == bs) := by
  induction as generalizing bs with
  | nil => cases bs <;> rfl
  | cons a as ih => cases bs with
    | nil => rfl
    | cons b bs =>
      simp only [List.map_cons]
      show ((a.bare == b.bare) && (as.map bare == bs.map bare)) = ((a == b) && (as == bs))
      rw [beq_bare, ih]

/-! ## Flattening -/

@[simp] theorem bare_neg (e : Expr) : e.bare.neg = e.neg.bare := by rw [neg, neg, bare_mk, bare_eq e]

@[simp] theorem bare_abs (e : Expr) : e.bare.abs = e.abs.bare := by rw [abs, abs, bare_mk, bare_eq e]

theorem abs_of_pos {e : Expr} (h : e.sign = .pos) : e.abs = e := by
  obtain ⟨s, b, c⟩ := e
  obtain rfl : s = .pos := h
  rfl

theorem map_abs_of_pos {es : List Expr} (h : ∀ e ∈ es, e.sign = .pos) : es.map abs = es := by
  rw [List.map_congr_left fun e he => abs_of_pos (h e he), List.map_id']

theorem map_bare_abs_of_pos {es : List Expr} (h : ∀ e ∈ es, e.sign = .pos) :
    (es.map fun e => e.abs.bare) = es.map bare :=
  List.map_congr_left fun e he => by rw [abs_of_pos (h e he)]

@[simp] theorem bare_number (q : Rat) : (number q).bare = number q := bare_mk ..

end Expr

namespace Ratio

theorem neg_map_bare (t : Ratio Expr) : (t.map bare).neg = t.neg.map bare := by
  match t with
  | ⟨n :: ns, ds⟩ => simp [neg, map]
  | ⟨[], d :: ds⟩ => simp [neg, map]
  | ⟨[], []⟩ => simp [neg, map, ← Expr.bare_neg]

theorem mul_map (f : α → β) (r t : Ratio α) : (r.map f).mul (t.map f) = (r.mul t).map f := by simp [mul, map]

theorem inv_map (f : α → β) (t : Ratio α) : (t.map f).inv = t.inv.map f := rfl

theorem prod_map (f : α → β) (rs : List (Ratio α)) : prod (rs.map (map f)) = (prod rs).map f := by
  simp [prod, map, List.flatMap_map, List.map_flatMap]

end Ratio

theorem Expr.asRatio_bare (e : Expr) : e.bare.asRatio = e.asRatio.map bare := by
  obtain ⟨s, b, c⟩ := e
  rw [bare_mk]
  cases b with
  | sum ts =>
    match ts with
    | [] => rfl
    | [t] => cases s <;> simp [asRatio, Shape.map, Ratio.neg_map_bare]
    | t :: u :: ts => simp [asRatio, Shape.map, Ratio.of, Ratio.map]
  | _ => simp [asRatio, Shape.map, Ratio.of, Ratio.map]

theorem Expr.asTerms_bare (e : Expr) : e.bare.asTerms = e.asTerms.map (Ratio.map bare) := by
  obtain ⟨s, b, c⟩ := e
  rw [bare_mk]
  cases b with
  | sum ts => cases s <;> simp [asTerms, Shape.map, Function.comp_def, Ratio.neg_map_bare]
  | _ => simp [asTerms, Shape.map, Ratio.of, Ratio.map]

namespace Ratio

theorem spliceFactors_bare (t : Ratio Expr) : (t.map bare).spliceFactors = t.spliceFactors.map bare := by
  have h : ∀ es : List Expr, (es.map bare).map Expr.asRatio = (es.map Expr.asRatio).map (map bare) := by
    intro es
    rw [List.map_map, List.map_map]
    exact List.map_congr_left fun e _ => Expr.asRatio_bare e
  simp only [spliceFactors]
  rw [map, h, h, prod_map, prod_map, inv_map, mul_map]

theorem spliceTerm_bare (t : Ratio Expr) : (t.map bare).spliceTerm = t.spliceTerm.map (map bare) := by
  rw [spliceTerm, spliceTerm, spliceFactors_bare]
  match t.spliceFactors with
  | ⟨[e], []⟩ => exact Expr.asTerms_bare e
  | ⟨[], ds⟩ => rfl
  | ⟨n :: m :: ns, ds⟩ => rfl
  | ⟨[n], d :: ds⟩ => rfl

end Ratio

namespace Expr

theorem ignoresAnalysis_flattenStep : IgnoresAnalysis flattenStep := fun e => by
  obtain ⟨s, b, c⟩ := e
  rw [bare_mk]
  cases b with
  | sum ts =>
    have h : (ts.map (Ratio.map bare)).flatMap Ratio.spliceTerm = (ts.flatMap Ratio.spliceTerm).map (Ratio.map bare) := by
      rw [List.flatMap_map, List.map_flatMap]
      exact congrArg (List.flatMap · ts) (funext Ratio.spliceTerm_bare)
    simp only [flattenStep, Shape.map, h]
    match ts.flatMap Ratio.spliceTerm with
    | [⟨[only], []⟩] => simp [Ratio.map, Function.comp_def]
    | [] => simp
    | [⟨[], ds⟩] => simp [Ratio.map, Shape.map]
    | [⟨n :: m :: ns, ds⟩] => simp [Ratio.map, Shape.map]
    | [⟨[n], d :: ds⟩] => simp [Ratio.map, Shape.map]
    | t :: u :: ts => simp [Ratio.map, Shape.map]
  | _ => simp [flattenStep, Shape.map]

end Expr

/-! ## Reducing -/

namespace Expr

@[simp] theorem number?_bare (e : Expr) : e.bare.number? = e.number? := by
  obtain ⟨s, b, c⟩ := e
  cases b <;> simp [number?, Shape.map]

@[simp] theorem divisor?_bare (e : Expr) : e.bare.divisor? = e.divisor? := by rw [divisor?, number?_bare, divisor?]

@[simp] theorem isOne_bare (e : Expr) : e.bare.isOne = e.isOne := by
  obtain ⟨s, b, c⟩ := e
  cases s <;> cases b <;> simp [isOne, Shape.map]

theorem shape_of_isOne {e : Expr} (h : e.isOne = true) : e.shape = .number 1 := by
  obtain ⟨s, b, c⟩ := e
  cases s <;> cases b <;> simp_all [isOne]

end Expr

/-- A monomial with every analysis in its factors forgotten. -/
def Monomial.bare (m : Monomial) : Monomial := ⟨m.coefficient, m.numerator.map Expr.bare, m.denominator.map Expr.bare⟩

theorem contains_bare (d : Expr) (es : List Expr) : (es.map bare).contains d.bare = es.contains d := by
  induction es with
  | nil => rfl
  | cons e es ih => rw [List.map_cons, List.contains_cons, List.contains_cons, ih, Expr.beq_bare]

theorem erase_bare (d : Expr) (es : List Expr) : (es.map bare).erase d.bare = (es.erase d).map bare := by
  induction es with
  | nil => rfl
  | cons e es ih =>
    rw [List.map_cons, List.erase_cons, List.erase_cons, Expr.beq_bare, ih]
    split <;> rfl

theorem cancel_bare (ns ds : List Expr) :
    cancel (ns.map bare) (ds.map bare) = ((cancel ns ds).1.map bare, (cancel ns ds).2.map bare) := by
  induction ds generalizing ns with
  | nil => rfl
  | cons d ds ih =>
    rw [List.map_cons, cancel, contains_bare, cancel]
    split
    · rw [erase_bare, ih]
    · rw [ih]; rfl

theorem Ratio.split_bare (t : Ratio Expr) : (t.map bare).split = t.split.bare := by
  have hsign : ∀ (s : Sign) (es : List Expr),
      (es.map bare).foldl (fun s e => s * e.sign) s = es.foldl (fun s e => s * e.sign) s := by
    intro s es
    rw [List.foldl_map]
    simp only [Expr.sign_bare]
  simp only [split, Monomial.bare, sign, magnitude, factors_map, hsign]
  simp [map, List.filterMap_map, List.filter_map, Function.comp_def]

namespace Monomial

theorem reduce_bare (m : Monomial) : m.bare.reduce = m.reduce.bare := by
  simp only [reduce, bare, cancel_bare]

theorem negateFirst_bare (es : List Expr) : negateFirst (es.map Expr.bare) = (negateFirst es).map Expr.bare := by
  cases es with
  | nil => rfl
  | cons e es =>
    have : ({ e.bare with sign := .neg } : Expr) = Expr.bare { e with sign := .neg } := by
      rw [Expr.bare_mk, Expr.bare_eq e]
    rw [List.map_cons, negateFirst, this]
    rfl

/-- Numbers in front of factors have no analysis. -/
theorem number_append_bare (p : Prop) [Decidable p] (q : Rat) (es : List Expr) :
    (if p then [Expr.number q] else []) ++ es.map Expr.bare =
      ((if p then [Expr.number q] else []) ++ es).map Expr.bare := by
  split <;> simp

theorem toRatio_bare (m : Monomial) : m.bare.toRatio = m.toRatio.map Expr.bare := by
  by_cases h0 : m.coefficient = 0
  · rw [toRatio_of_eq_zero h0, toRatio_of_eq_zero (m := m.bare) h0]
    simp [Ratio.map]
  · have ha : m.bare.above = m.above.map Expr.bare := by
      rw [above, above, ← number_append_bare]
      simp only [bare, List.isEmpty_map]
    have hb : m.bare.below = m.below.map Expr.bare := by
      rw [below, below, ← number_append_bare]
      rfl
    rw [toRatio_of_ne_zero h0, toRatio_of_ne_zero (m := m.bare) h0, ha, hb, negateFirst_bare, Ratio.map]
    by_cases hneg : m.coefficient < 0
    · simp [bare, hneg]
    · simp [bare, hneg]

theorem sortFactors_bare (es : List Expr) : sortFactors (es.map Expr.bare) = (sortFactors es).map Expr.bare :=
  (List.map_mergeSort fun a _ b _ => (Expr.le_bare a b).symm).symm

theorem isLike_bare (m n : Monomial) : m.bare.isLike n.bare = m.isLike n := by
  simp only [isLike, bare, sortFactors_bare, Expr.beq_map_bare]

theorem addTo_bare (m : Monomial) (ns : List Monomial) : m.bare.addTo (ns.map bare) = (m.addTo ns).map bare := by
  induction ns with
  | nil => rfl
  | cons n ns ih =>
    rw [List.map_cons, addTo, addTo, isLike_bare]
    split
    · rfl
    · rw [ih]; rfl

theorem addAll_bare (ms acc : List Monomial) : addAll (ms.map bare) (acc.map bare) = (addAll ms acc).map bare := by
  induction ms generalizing acc with
  | nil => rfl
  | cons m ms ih =>
    rw [List.map_cons, addAll, List.foldl_cons, ← addAll, addTo_bare, ih]
    rfl

end Monomial

theorem Ratio.collect_bare (ts : List (Ratio Expr)) :
    collect (ts.map (map bare)) = (collect ts).map (map bare) := by
  have hsplit : (ts.map (map bare)).map split = (ts.map split).map Monomial.bare := by
    rw [List.map_map, List.map_map]
    exact List.map_congr_left fun t _ => split_bare t
  have hadd := Monomial.addAll_bare (ts.map split) []
  rw [List.map_nil] at hadd
  rw [collect_eq, hsplit, hadd, collect_eq, List.map_map, List.map_map]
  exact List.map_congr_left fun m _ => Monomial.toRatio_bare m

theorem Ratio.reduce_bare (t : Ratio Expr) : (t.map bare).reduce = t.reduce.map bare := by
  rw [reduce, split_bare, Monomial.reduce_bare, Monomial.toRatio_bare, reduce]

namespace Expr

theorem ignoresAnalysis_reduceStep : IgnoresAnalysis reduceStep := fun e => by
  obtain ⟨s, b, c⟩ := e
  rw [bare_mk]
  cases b with
  | sum ts =>
    have h : (ts.map (Ratio.map bare)).map Ratio.reduce = (ts.map Ratio.reduce).map (Ratio.map bare) := by
      rw [List.map_map, List.map_map]
      exact List.map_congr_left fun t _ => Ratio.reduce_bare t
    simp only [reduceStep, Shape.map, h, Ratio.collect_bare, bare_mk]
    rw [List.map_map]
    exact congrArg (Expr.mk s · none) (congrArg Shape.sum (List.map_congr_left fun t _ => by simp [Function.comp_def]))
  | _ => simp [reduceStep, Shape.map]

/-! ## Neutral factors and terms -/

theorem dropUnit_bare (t : Ratio Expr) : dropUnit (t.map bare) = (dropUnit t).map bare := by
  match t with
  | ⟨ns, [d]⟩ =>
    simp only [dropUnit, Ratio.map, List.map_cons, List.map_nil, isOne_bare]
    split <;> rfl
  | ⟨ns, []⟩ => rfl
  | ⟨ns, d :: d' :: ds⟩ => rfl

theorem ignoresAnalysis_dropUnits : IgnoresAnalysis dropUnits := fun e => by
  obtain ⟨s, b, c⟩ := e
  rw [bare_mk]
  cases b with
  | sum ts => simp [dropUnits, Shape.map, Function.comp_def, dropUnit_bare]
  | _ => simp [dropUnits, Shape.map]

theorem isZeroTerm_bare (t : Ratio Expr) : isZeroTerm (t.map bare) = isZeroTerm t := by
  match t with
  | ⟨[e], []⟩ => simp [isZeroTerm, Ratio.map]
  | ⟨[], ds⟩ => rfl
  | ⟨n :: m :: ns, ds⟩ => rfl
  | ⟨[n], d :: ds⟩ => rfl

theorem withoutOnes_bare (es : List Expr) : withoutOnes (es.map bare) = (withoutOnes es).map bare := by
  match es with
  | [] => rfl
  | [e] => rfl
  | a :: b :: es =>
    simp only [List.map_cons, withoutOnes]
    rw [← List.map_cons, ← List.map_cons, List.filter_map]
    simp [Function.comp_def]

theorem ignoresAnalysis_neutralStep : IgnoresAnalysis neutralStep := fun e => by
  obtain ⟨s, b, c⟩ := e
  rw [bare_mk]
  cases b with
  | sum ts =>
    have h : (ts.map (Ratio.map bare)).filter (fun t => !isZeroTerm t) =
        (ts.filter fun t => !isZeroTerm t).map (Ratio.map bare) := by
      rw [List.filter_map]
      simp only [Function.comp_def, isZeroTerm_bare]
    simp only [neutralStep, Shape.map, h]
    match ts.filter fun t => !isZeroTerm t with
    | [] => simp
    | t :: ts => simp [Shape.map, Ratio.map, withoutOnes_bare, Function.comp_def]
  | _ => simp [neutralStep, Shape.map]

end Expr

end Isolate
