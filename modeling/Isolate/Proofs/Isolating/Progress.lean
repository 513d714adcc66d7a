import Isolate.Proofs.Isolating.Descent

/-!
# Progress is seen

An isolation step at analysed sides changes nothing, or it peels a side (`Equation.Isolates`). What it leaves of the side
has fewer nodes and terms, or is the side without its minus (`Expr.Peels.shrinks`). Trees that are alike have one number
of nodes and terms and one sign, whatever the order and the names are, so a step is never taken for none.

* `Equation.isLike_applyInverse_iff`: what a step makes of an equation is like the equation just if the step has changed
  nothing.
-/

namespace Isolate

/-! ## Nodes and terms -/

/-- How many terms a node has. -/
def Shape.breadth : Shape α → Nat
  | .sum ts => ts.length
  | _ => 0

@[simp] theorem Shape.breadth_map (f : α → β) (b : Shape α) : (b.map f).breadth = b.breadth := by
  cases b <;> simp [map, breadth]

namespace Expr

variable {e p : Expr} {es : List Expr} {ts : List (Ratio Expr)} {template : String} {step : Step}

/-- How many nodes and terms a tree has. -/
def size (e : Expr) : Nat := e.fold fun _ b => 1 + b.breadth + b.children.sum

theorem size_eq (e : Expr) : e.size = 1 + e.shape.breadth + (e.children.map size).sum := by
  rw [size, fold_eq, Shape.breadth_map, Shape.children_map]
  rfl

theorem size_pos (e : Expr) : 0 < e.size := by
  rw [size_eq]
  omega

theorem size_sum (hshape : e.shape = .sum ts) :
    e.size = 1 + ts.length + ((ts.flatMap Ratio.factors).map size).sum := by
  rw [size_eq, children, hshape]
  rfl

@[simp] theorem size_bare (e : Expr) : e.bare.size = e.size := by
  induction e using Expr.induction with
  | h e ih =>
    rw [size_eq, size_eq e, children, shape_bare, Shape.breadth_map, Shape.children_map, List.map_map]
    exact congrArg _ (congrArg List.sum (List.map_congr_left ih))

/-- Trees that are alike have one number of nodes and terms. -/
theorem Alike.size_eq {V F : String → String → Prop} {a b : Expr} (h : a.Alike V F b) : a.size = b.size := by
  induction a using Expr.induction generalizing b with
  | h a ih =>
    have hbreadth : a.shape.breadth = b.shape.breadth := by
      have hc := h.corr
      revert hc
      cases a.shape <;> cases b.shape <;> simp only [Shape.Corr, Shape.breadth, false_implies, implies_true]
      exact Corr.length_eq
    rw [Expr.size_eq a, Expr.size_eq b, hbreadth, h.children.sum_eq fun c hc d hcd => ih c hc hcd]

/-! ## What a step leaves -/

theorem sum_size_parted_le (es : List Expr) :
    ((es.filter isMoved).map size).sum + ((es.filter isVarying).map size).sum ≤ (es.map size).sum := by
  induction es with
  | nil => rfl
  | cons e es ih =>
    rw [List.filter_cons, List.filter_cons, List.map_cons, List.sum_cons]
    cases hv : e.isVarying <;> cases ho : e.isOne <;> simp [isMoved, hv, ho] <;> omega

theorem sum_size_pos (h : es ≠ []) : 0 < (es.map size).sum := by
  obtain ⟨e, es, rfl⟩ := List.exists_cons_of_ne_nil h
  have := e.size_pos
  rw [List.map_cons, List.sum_cons]
  omega

theorem size_kept_lt {t : Ratio Expr} (hshape : e.shape = .sum [t]) (hmoved : t.moved.factors ≠ []) :
    (sum [t.kept]).size < e.size := by
  have hn := sum_size_parted_le t.numerator
  have hd := sum_size_parted_le t.denominator
  have hm := sum_size_pos hmoved
  rw [size_sum hshape, size_sum rfl]
  simp only [List.flatMap_singleton, Ratio.factors, Ratio.kept, Ratio.moved, List.map_append, List.sum_append] at hm ⊢
  simp only [List.length_singleton]
  omega

theorem size_varying_lt (hshape : e.shape = .sum ts) (hmoved : movedTerms ts ≠ []) :
    (sum (ts.filter Ratio.isVarying)).size < e.size := by
  have hlength : (ts.filter Ratio.isVarying).length < ts.length := by
    refine List.length_filter_lt_length_iff_exists.mpr ?_
    obtain ⟨u, hu⟩ := List.exists_mem_of_ne_nil _ hmoved
    obtain ⟨t, ht, -⟩ := List.mem_map.mp hu
    obtain ⟨ht, hconstant⟩ := List.mem_filter.mp ht
    exact ⟨t, ht, by simpa using hconstant⟩
  have hfactors : (((ts.filter Ratio.isVarying).flatMap Ratio.factors).map size).sum ≤
      ((ts.flatMap Ratio.factors).map size).sum :=
    ((List.filter_sublist.flatMap _).map size).sum_le_sum fun _ _ => Nat.zero_le _
  rw [size_sum hshape, size_sum rfl]
  omega

/-- **A step leaves fewer nodes and terms of a side, or takes its minus.** -/
theorem Peels.shrinks (h : Peels template e step p) : p.size < e.size ∨ e.sign = .neg ∧ p = e.abs := by
  cases h with
  | call hshape =>
    refine .inl ?_
    rw [size_eq e, children, hshape]
    simp [Shape.children]
  | ratio hshape hmoved => exact .inl (size_kept_lt hshape hmoved)
  | terms hshape hmoved => exact .inl (size_varying_lt hshape hmoved)
  | minus hsign => exact .inr ⟨hsign, rfl⟩

end Expr

/-! ## Two sides -/

namespace Equation

variable {q : Equation} {template : String} {target : Option String} {done : Isolated}

/-- What an isolation step at analysed sides amounts to where it does not fail. -/
theorem isolates_of_applyInverse (hq : q.analyze = q) (h : q.applyInverse template target = .ok done) :
    Isolates template target q (.ok done) := by
  rw [← h]
  exact isolates_applyInverse template target (applyInverse_eq_ok h).1 hq

/-- Sides that are like each other have one size and one sign. -/
theorem size_eq_of_isLike {first : Bool} {a b c d : Expr}
    (h : isLike .bijective (sided first a b) (sided first c d) = true) : a.size = c.size ∧ a.sign = c.sign := by
  obtain ⟨c', d', hsided, hac, -⟩ := forall₂_sided (alike_of_isLike h)
  obtain ⟨rfl, -⟩ : c = c' ∧ d = d' := by
    cases first <;> simpa [sided, and_comm] using hsided
  have harranged := Expr.alike_arrange (V := fun _ _ => True) (F := fun _ _ => True) (fun _ => trivial) fun _ => trivial
  constructor
  · rw [(harranged a).size_eq, hac.size_eq, ← (harranged c).size_eq]
  · rw [(Expr.alike_iff.mp (harranged a)).1, (Expr.alike_iff.mp hac).1, ← (Expr.alike_iff.mp (harranged c)).1]

/-- Sides that are the same, analyses apart, have one size and one sign. -/
theorem size_eq_of_bare {first : Bool} {a b c d : Expr} (h : (sided first a b).bare = (sided first c d).bare) :
    a.size = c.size ∧ a.sign = c.sign := by
  have hac : a.bare = c.bare := by
    cases first <;> simp [sided, bare] at h <;> simp [h]
  rw [← a.size_bare, ← c.size_bare, ← a.sign_bare, ← c.sign_bare, hac]
  exact ⟨rfl, rfl⟩

/-- A step that leaves something like the equation, or the same but for analyses, has changed nothing. -/
theorem Isolates.eq_self (h : Isolates template target q (.ok done))
    (hlike : isLike .bijective done.equation q = true ∨ done.equation.bare = q.bare) :
    done.equation = q ∧ done.conditions = [] := by
  cases h with
  | same hsame hconditions => exact ⟨hsame, hconditions⟩
  | step hq hold hfirst honly hfound hpeels hdone =>
    rw [hdone, hq] at hlike
    obtain ⟨hsize, hsign⟩ := hlike.elim size_eq_of_isLike size_eq_of_bare
    rcases hpeels.shrinks with hlt | ⟨hneg, rfl⟩
    · omega
    · cases hsign.trans hneg

/-- **Progress is seen exactly.** What an isolation step at analysed sides makes of an equation is like the equation, up to
renaming and order, just if the step has left the equation as it was. -/
theorem isLike_applyInverse_iff (hq : q.analyze = q) (h : q.applyInverse template target = .ok done) :
    isLike .bijective done.equation q = true ↔ done.equation.bare = q.bare := by
  have hisolates := isolates_of_applyInverse hq h
  constructor
  · intro hlike
    rw [(hisolates.eq_self (.inl hlike)).1]
  · intro hbare
    rw [(hisolates.eq_self (.inr hbare)).1]
    exact isLike_self q

/-- The equation `f(x) = y`, which a step turns into its mirror image `x = f(y)`. -/
def mirrored : Equation := ⟨[(Expr.call "f" [.var "x"]).analyze, (Expr.var "y").analyze]⟩

theorem isLike_applyInverse_iff_mirrored : mirrored.analyze = mirrored ∧
    ∃ done, mirrored.applyInverse Config.default.placeholder (some "x") = .ok done ∧
      done.equation = ⟨[(Expr.var "x").analyze, .call "f" [.var "y"]]⟩ ∧
      (isLike .bijective done.equation mirrored = true ↔ done.equation.bare = mirrored.bare) := by
  have hanalyzed : mirrored.analyze = mirrored := by cbv
  have hdone : mirrored.applyInverse Config.default.placeholder (some "x") =
      .ok ⟨⟨[(Expr.var "x").analyze, .call "f" [.var "y"]]⟩, [],
        [⟨.warning, .inversion, "no inverse known for f(); using f() as a placeholder"⟩]⟩ := by cbv
  exact ⟨hanalyzed, _, hdone, rfl, isLike_applyInverse_iff hanalyzed hdone⟩

end Equation

end Isolate
