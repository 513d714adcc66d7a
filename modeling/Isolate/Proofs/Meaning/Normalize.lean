import Isolate.Proofs.Meaning.Collect
import Isolate.Proofs.Meaning.Flatten
import Isolate.Proofs.Round

/-!
# Normalising keeps the meaning

Each step of simplifying keeps the meaning of a node (`keeps_reduceStep`, `keeps_dropUnits`, `keeps_neutralStep`), so
simplifying keeps the meaning of a tree (`Expr.keeps_simplified`), and so does a round of the usual passes
(`Expr.keeps_tidy`).

* `Equation.isDefined_normalize`: however many rounds are run, and whether they settle or not, the equation is then
  defined where it was before, and every side has the value that it had.
-/

namespace Isolate

variable {I : Interpretation}

namespace Expr

/-! ## Reducing in place -/

theorem keeps_reduceStep (e : Expr) : e.Keeps I (reduceStep e) := by
  obtain ⟨s, b, c⟩ := e
  unfold reduceStep
  split
  · rename_i ts hb
    obtain rfl : b = .sum ts := hb
    refine keeps_sum fun h => ?_
    have hd : ∀ u ∈ ts.map Ratio.reduce, u.IsDefined I := by
      intro u hu
      obtain ⟨t, ht, rfl⟩ := List.mem_map.mp hu
      exact (Ratio.isDefined_reduce (h t ht)).1
    obtain ⟨hc, hv⟩ := Ratio.isDefined_collect hd
    refine ⟨hc, hv.trans ?_⟩
    rw [List.map_map]
    exact congrArg total (List.map_congr_left fun t ht => (Ratio.isDefined_reduce (h t ht)).2)
  · exact Keeps.refl _

theorem value_of_isOne {e : Expr} (h : e.isOne = true) : e.value I = 1 := by
  obtain ⟨s, b, c⟩ := e
  cases s <;> cases b <;> simp [isOne] at h
  subst h
  rw [value_mk]
  rfl

theorem isDefined_dropUnit {t : Ratio Expr} (h : t.IsDefined I) :
    (dropUnit t).IsDefined I ∧ (dropUnit t).value I = t.value I := by
  obtain ⟨ns, ds⟩ := t
  unfold dropUnit
  split
  · rename_i d hd
    obtain rfl : ds = [d] := hd
    split
    · rename_i h1
      refine ⟨Ratio.isDefined_iff.mpr ⟨(Ratio.isDefined_iff.mp h).1, fun d hd => by cases hd⟩, ?_⟩
      simp [Ratio.value_eq, value_of_isOne h1]
    · exact ⟨h, rfl⟩
  · exact ⟨h, rfl⟩

/-- Terms that keep their values one by one keep their total. -/
theorem isDefined_map {f : Ratio Expr → Ratio Expr} {ts : List (Ratio Expr)} (h : ∀ t ∈ ts, t.IsDefined I)
    (hf : ∀ t, t.IsDefined I → (f t).IsDefined I ∧ (f t).value I = t.value I) :
    (∀ u ∈ ts.map f, u.IsDefined I) ∧ total ((ts.map f).map (Ratio.value I)) = total (ts.map (Ratio.value I)) := by
  constructor
  · intro u hu
    obtain ⟨t, ht, rfl⟩ := List.mem_map.mp hu
    exact (hf t (h t ht)).1
  · rw [List.map_map]
    exact congrArg total (List.map_congr_left fun t ht => (hf t (h t ht)).2)

theorem keeps_dropUnits (e : Expr) : e.Keeps I (dropUnits e) := by
  obtain ⟨s, b, c⟩ := e
  unfold dropUnits
  split
  · rename_i ts hb
    obtain rfl : b = .sum ts := hb
    exact keeps_sum fun h => isDefined_map h fun t => isDefined_dropUnit
  · exact Keeps.refl _

/-! ## Dropping neutral terms and factors -/

theorem value_of_isZeroTerm {t : Ratio Expr} (h : isZeroTerm t = true) : t.value I = 0 := by
  unfold isZeroTerm at h
  split at h
  · rename_i e
    have he : e.number? = some 0 := by simpa using h
    have : Ratio.value I ⟨[e], []⟩ = e.value I := Ratio.value_of I e
    rw [this, value_eq_abs, value_of_number? he]
    cases e.sign <;> rfl
  · cases h

theorem total_filter_isZeroTerm (ts : List (Ratio Expr)) :
    total ((ts.filter fun t => !isZeroTerm t).map (Ratio.value I)) = total (ts.map (Ratio.value I)) := by
  induction ts with
  | nil => rfl
  | cons t ts ih =>
    rw [List.filter_cons]
    split
    · rw [List.map_cons, total_cons, ih, List.map_cons, total_cons]
    · rename_i h
      have h0 : isZeroTerm t = true := by simpa using h
      rw [ih, List.map_cons, total_cons, value_of_isZeroTerm h0, zero_add]

theorem mem_withoutOnes {e : Expr} {es : List Expr} (h : e ∈ withoutOnes es) : e ∈ es := by
  unfold withoutOnes at h
  split at h
  · exact h
  · exact List.mem_of_mem_filter h

theorem product_withoutOnes (es : List Expr) :
    product ((withoutOnes es).map (value I)) = product (es.map (value I)) := by
  unfold withoutOnes
  split
  · rfl
  · clear * -
    induction es with
    | nil => rfl
    | cons e es ih =>
      rw [List.filter_cons]
      split
      · rw [List.map_cons, product_cons, ih, List.map_cons, product_cons]
      · rename_i h
        have h1 : e.isOne = true := by simpa using h
        rw [ih, List.map_cons, product_cons, value_of_isOne h1, one_mul]

theorem isDefined_withoutOnes {t : Ratio Expr} (h : t.IsDefined I) :
    Ratio.IsDefined I ⟨withoutOnes t.numerator, withoutOnes t.denominator⟩ ∧
      Ratio.value I ⟨withoutOnes t.numerator, withoutOnes t.denominator⟩ = t.value I := by
  rw [Ratio.isDefined_iff] at h ⊢
  refine ⟨⟨fun e he => h.1 e (mem_withoutOnes he), fun d hd => h.2 d (mem_withoutOnes hd)⟩, ?_⟩
  rw [Ratio.value_eq, product_withoutOnes, product_withoutOnes, Ratio.value_eq]

theorem keeps_neutralStep (e : Expr) : e.Keeps I (neutralStep e) := by
  obtain ⟨s, b, c⟩ := e
  unfold neutralStep
  split
  · rename_i ts hb
    obtain rfl : b = .sum ts := hb
    have hk : Keeps I ⟨s, .sum ts, c⟩ ⟨s, .sum (ts.filter fun t => !isZeroTerm t), none⟩ :=
      keeps_sum fun h => ⟨fun t ht => h t (List.mem_of_mem_filter ht), total_filter_isZeroTerm ts⟩
    split
    · rename_i h
      rw [h] at hk
      refine hk.trans fun _ => ⟨isDefined_of_number rfl, ?_⟩
      rw [value_number, value_sum]
      cases s <;> rfl
    · exact hk.trans (keeps_sum fun h => isDefined_map h fun t => isDefined_withoutOnes)
  · exact Keeps.refl _

/-! ## Simplifying -/

theorem keeps_reduced (e : Expr) : e.Keeps I e.reduced :=
  (((isBottomUp_editUp reduceStep).keeps keeps_reduceStep e).trans (keeps_analyze _)).trans
    ((isBottomUp_editUp dropUnits).keeps keeps_dropUnits _)

/-- **Simplifying keeps the meaning.** -/
theorem keeps_simplified (e : Expr) : e.Keeps I e.simplified :=
  ((keeps_reduced e).trans ((isBottomUp_rebuildUp neutralStep).keeps keeps_neutralStep _)).trans (keeps_analyze _)

theorem keeps_tidy (e : Expr) : e.Keeps I e.tidy :=
  (((keeps_flatten e).trans (keeps_analyze _)).trans (keeps_simplified _)).trans (keeps_analyze _)

end Expr

namespace Equation

/-! ## Equations -/

/-- The second equation is defined where the first is, and its sides have the same values there, one by one. -/
def Keeps (I : Interpretation) (q r : Equation) : Prop :=
  q.IsDefined I → r.IsDefined I ∧ r.sides.map (Expr.value I) = q.sides.map (Expr.value I)

theorem Keeps.refl (q : Equation) : q.Keeps I q := fun h => ⟨h, rfl⟩

theorem Keeps.trans {q r u : Equation} (h : q.Keeps I r) (h' : r.Keeps I u) : q.Keeps I u := fun hq => by
  obtain ⟨hr, hqr⟩ := h hq
  obtain ⟨hu, hru⟩ := h' hr
  exact ⟨hu, hru.trans hqr⟩

theorem keeps_map {f : Expr → Expr} (hf : ∀ e : Expr, e.Keeps I (f e)) (q : Equation) :
    q.Keeps I ⟨q.sides.map f⟩ := fun h => by
  constructor
  · intro e he
    obtain ⟨a, ha, rfl⟩ := List.mem_map.mp he
    exact (hf a (h a ha)).1
  · rw [List.map_map]
    exact List.map_congr_left fun a ha => (hf a (h a ha)).2

theorem keeps_settle (mode : MatchMode) (limit : Int) (fuel round : Nat) (q : Equation) :
    q.Keeps I (settle usualPasses mode limit fuel round q).1 := by
  induction fuel generalizing round q with
  | zero => exact Keeps.refl q
  | succ fuel ih =>
    have ht : q.Keeps I q.tidy := keeps_map Expr.keeps_tidy q
    rw [settle_succ]
    split
    · exact ht
    · exact ht.trans (ih _ _)

/-- Whatever the mode and the greatest number of rounds, normalising keeps the meaning of an equation. -/
theorem keeps_normalize (mode : MatchMode) (limit : Int) (q : Equation) :
    q.Keeps I (q.normalize usualPasses mode limit).1 :=
  (keeps_map Expr.keeps_analyze q).trans (keeps_settle mode limit _ _ _)

/-- **Normalising keeps the meaning.** However many rounds are run, and whether they settle or end at the limit, the
equation is then defined wherever it was before, and every side has the value that it had. -/
theorem isDefined_normalize {q : Equation} (h : q.IsDefined I) (mode : MatchMode) (limit : Int) :
    (q.normalize usualPasses mode limit).1.IsDefined I ∧
      (q.normalize usualPasses mode limit).1.sides.map (Expr.value I) = q.sides.map (Expr.value I) :=
  keeps_normalize mode limit q h

/-- The equation `x / -(y / 2) = 5`. -/
def nestedQuotient : Equation := ⟨[(Expr.var "x").div ((Expr.var "y").div (.number 2)).neg, .number 5]⟩

/-- Every variable is three, and every operator that is no arithmetic gives zero. -/
def allThree : Interpretation := ⟨fun _ => 3, fun _ _ => 0, fun _ _ => 0, fun _ _ => 0, fun _ => 0⟩

theorem isDefined_nestedQuotient : nestedQuotient.IsDefined allThree := by
  simp [nestedQuotient, IsDefined, Expr.div, Expr.sum, Expr.var, Expr.number, Expr.neg, Expr.ofShape,
    Expr.isDefined_sum, Ratio.isDefined_iff, Expr.isDefined_var, Expr.isDefined_number, Expr.value_mk,
    Interpretation.apply, Shape.map, Ratio.map, Ratio.quotient, Sign.apply, Sign.flip, allThree]

theorem isDefined_normalize_nestedQuotient : nestedQuotient.IsDefined allThree ∧
    (nestedQuotient.normalize usualPasses .bijective 64).1.IsDefined allThree ∧
      (nestedQuotient.normalize usualPasses .bijective 64).1.sides.map (Expr.value allThree) =
        nestedQuotient.sides.map (Expr.value allThree) :=
  ⟨isDefined_nestedQuotient, isDefined_normalize isDefined_nestedQuotient .bijective 64⟩

end Equation

end Isolate
