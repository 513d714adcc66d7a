import Isolate.Proofs.Isolating.Meaning
import Isolate.Proofs.Solving.Trace
import Mathlib

/-!
# Solving keeps the solutions

Nodes of a solved graph are normal forms, which keep the values of all sides, and isolation steps, which are equivalences
if they can be taken back. Along a trace this gives the meaning of the leaf (`Search.Trace.equivalent`).

* `Solved.IsReversible`: every step on a way can be taken back, given the conditions of its edge.
* `Equation.solve_equivalent`: the equation of a leaf is equivalent to the equation that is solved.
-/

namespace Isolate

variable {I : Interpretation} {task : Search.Task} {q r : Equation}

/-- The step that is found at an equation can be taken there. -/
def Equation.Takes (template : String) (target : Option String) (q : Equation) (found : Inversion) : Prop :=
  ∃ i r, q.isolation template target = .ok (some (i, found)) ∧ q.transform found.step i = .ok r

/-- Every step on a way through a solved graph can be taken back, given the conditions of its edge. -/
def Solved.IsReversible (I : Interpretation) (template : String) (target : Option String) (s : Solved)
    (way : List Int) : Prop :=
  ∀ above below q conditions found, [above, below] <:+: way → s.graph.get above = .ok q →
    s.graph.conditions above below = .ok conditions → q.Takes template target found →
    found.step.IsReversible I conditions

namespace Search

/-! ## One node -/

theorem Settles.equivalent (h : Settles task q r) : q.Equivalent I r := by
  obtain ⟨u, rounds, hn, rfl⟩ := h
  have hu : (q.normalize Equation.usualPasses task.config.mode task.config.maxRounds).1 = u := by rw [hn]
  have hkeeps := Equation.keeps_normalize (I := I) task.config.mode task.config.maxRounds q
  rw [hu] at hkeeps
  exact (hkeeps.trans (Equation.keeps_map Expr.keeps_analyze u)).equivalent

/-- The isolation step at a node, if it can be taken back. -/
theorem Tries.equivalent {conditions : List String} (h : Tries task .applyInverse q r conditions)
    (hback : ∀ found, q.Takes task.config.placeholder task.target found → found.step.IsReversible I conditions) :
    q.Equivalent I r := by
  cases h with
  | skipped => exact .refl q
  | made hmade =>
    unfold Strategy.apply at hmade ⊢
    simp only at hmade ⊢
    split at hmade
    · rename_i done hdone
      cases hmade
      show q.Equivalent I done.equation
      obtain ⟨hlen, ⟨hsame, -⟩ | ⟨i, found, hfound, hr, hconditions⟩⟩ := Equation.applyInverse_eq_ok hdone
      · rw [hsame]
        exact .refl q
      · have hsubset : found.conditions ⊆ done.conditions := by rw [hconditions]; exact List.Subset.refl _
        exact Equation.equivalent_of_isolation hlen hfound hr hsubset (hback found ⟨i, _, hfound, hr⟩)
    · cases hmade

/-! ## All nodes -/

/-- **The last equation of a trace is equivalent to the first one**, before it is normalised and after. -/
theorem Trace.equivalent {rest : List (List String × Equation)} (h : Trace task .applyInverse q r rest)
    (hback : ∀ edge ∈ Graph.chainEdges r rest, ∀ found,
      edge.1.Takes task.config.placeholder task.target found → found.step.IsReversible I edge.2) :
    q.Equivalent I (Graph.lastOf r rest) ∧ r.Equivalent I (Graph.lastOf r rest) := by
  induction h with
  | stuck hsettles hstuck => exact ⟨hsettles.equivalent, .refl _⟩
  | leaf hsettles htries hlike =>
    have hleaf := htries.equivalent (hback _ List.mem_cons_self)
    exact ⟨hsettles.equivalent.trans hleaf, hleaf⟩
  | step hsettles htries hnew hbelow ih =>
    obtain ⟨hfirst, hrest⟩ := List.forall_mem_cons.mp hback
    have hdown := (htries.equivalent hfirst).trans (ih hrest).1
    exact ⟨hsettles.equivalent.trans hdown, hdown⟩

end Search

/-! ## The graph -/

/-- On the way down a chain, the steps are those of its edges. -/
theorem Solved.isReversible_chain {template : String} {target : Option String} {leaves : List Int}
    {rest : List (List String × Equation)} :
    Solved.IsReversible I template target ⟨Graph.chain r rest, 0, leaves⟩ (Graph.numbersTo rest.length) ↔
      ∀ edge ∈ Graph.chainEdges r rest, ∀ found, edge.1.Takes template target found →
        found.step.IsReversible I edge.2 := by
  constructor
  · intro h edge hedge found hfound
    obtain ⟨k, hk⟩ := List.mem_iff_getElem?.mp hedge
    obtain ⟨hlt, -⟩ := List.getElem?_eq_some_iff.mp hk
    rw [Graph.length_chainEdges] at hlt
    obtain ⟨hget, hconditions⟩ := Graph.edge_chain hk
    exact h k (k + 1) edge.1 edge.2 found (Graph.infix_numbersTo hlt) hget hconditions hfound
  · intro h above below q conditions found hway hget hconditions hfound
    obtain ⟨k, hlt, rfl, rfl⟩ := Graph.infix_numbersTo_iff.mp hway
    rw [← Graph.length_chainEdges r] at hlt
    obtain ⟨hget', hconditions'⟩ := Graph.edge_chain (List.getElem?_eq_getElem hlt)
    obtain rfl := Except.ok.inj (hget'.symm.trans hget)
    obtain rfl := Except.ok.inj (hconditions'.symm.trans hconditions)
    exact h _ (List.getElem_mem hlt) found hfound

namespace Equation

/-- **Solving keeps the solutions.** If the isolation steps on the way from the root to a leaf can be taken back, then
the equation of the leaf is defined where the solved equation is, and holds there just if that one does; and so it is for
the equation that is left at the root. -/
theorem solve_equivalent {config : Config} {target : Option String} {q : Equation} {s : Solved} {leaf : Int}
    (h : (q.solve ⟨[.applyInverse], config, target⟩).1 = .ok s) (hleaf : leaf ∈ s.leaves) (I : Interpretation) :
    ∃ root way e, s.graph.get s.root = .ok root ∧ s.graph.path s.root leaf = .ok way ∧ s.graph.get leaf = .ok e ∧
      (s.IsReversible I config.placeholder target way → q.Equivalent I e ∧ root.Equivalent I e) := by
  obtain ⟨r, rest, htrace, rfl⟩ := solve_trace rfl h
  obtain rfl := List.mem_singleton.mp hleaf
  refine ⟨r, _, _, Graph.get_zero_chain r rest, Graph.path_chain r rest, Graph.get_length_chain r rest, fun hback => ?_⟩
  exact htrace.equivalent (Solved.isReversible_chain.mp hback)

/-! ## An equation -/

/-- The equation `2 * sin(x) = 6`. -/
def doubledSine : Equation := ⟨[(Expr.number 2).mul (.call "sin" [.var "x"]), .number 6]⟩

/-- The equation `sin(x) = 3`. -/
def singleSine : Equation := ⟨[.call "sin" [.var "x"], .number 3]⟩

/-- The equation `x = arcsin(3)`. -/
def arcsine : Equation := ⟨[.var "x", .call "arcsin" [.number 3]]⟩

/-- The chain of `2 * sin(x) = 6`, with its leaf. -/
def solvedSine : Solved :=
  ⟨.chain doubledSine.analyze
    [(["2 != 0"], singleSine.analyze), ([], arcsine.analyze), ([], arcsine.analyze)], 0, [3]⟩

/-- Variables are two, the sine adds one, and every other function takes one away. -/
def shifted : Interpretation where
  var _ := 2
  call name as := if name = "sin" then total as + 1 else total as - 1
  power _ _ := 0
  modulo _ _ := 0
  factorial _ := 0

theorem solve_doubledSine : (doubledSine.solve ⟨[.applyInverse], .default, none⟩).1 = .ok solvedSine := by cbv

theorem isReversible_solvedSine : solvedSine.IsReversible shifted Config.default.placeholder none [0, 1, 2, 3] := by
  have hmultiply : doubledSine.analyze.isolation Config.default.placeholder none =
      .ok (some (0, ⟨.multiply ⟨[], [(Expr.number 2).analyze]⟩ ⟨[(Expr.call "sin" [.var "x"]).analyze], []⟩,
        ["2 != 0"]⟩)) := by cbv
  have hundo : singleSine.analyze.isolation Config.default.placeholder none =
      .ok (some (0, ⟨.undo "arcsin" "sin" true, []⟩)) := by cbv
  have hnone : arcsine.analyze.isolation Config.default.placeholder none = .ok none := by cbv
  refine Solved.isReversible_chain.mpr fun edge hedge found hfound => ?_
  obtain ⟨i, r, hisolation, -⟩ := hfound
  simp only [Graph.chainEdges, List.mem_cons, List.not_mem_nil, or_false] at hedge
  rcases hedge with rfl | rfl | rfl
  · rw [hmultiply] at hisolation
    cases hisolation
    intro fs hfs c hc hin
    rcases List.mem_pair.mp hfs with rfl | rfl
    · simp
    · have htwo : (Expr.number 2).analyze.value shifted = 2 := by cbv
      rw [List.map_singleton, product_cons, product_nil, htwo]
      norm_num
  · rw [hundo] at hisolation
    cases hisolation
    constructor
    · intro t
      simp [shifted]
    · intro u
      simp [shifted]
  · rw [hnone] at hisolation
    cases hisolation

theorem isDefined_doubledSine : doubledSine.IsDefined shifted := by
  simp [doubledSine, IsDefined, Expr.mul, Expr.sum, Expr.var, Expr.call, Expr.number, Expr.ofShape,
    Expr.isDefined_sum, Ratio.isDefined_iff, Expr.isDefined_var, Expr.isDefined_number, Expr.isDefined_call]

theorem holds_doubledSine : doubledSine.Holds shifted := by
  rw [doubledSine, holds_pair]
  simp [Expr.mul, Expr.sum, Expr.var, Expr.call, Expr.number, Expr.ofShape, Expr.value_mk,
    Interpretation.apply, Shape.map, Ratio.map, Ratio.quotient, Sign.apply, shifted]
  norm_num

theorem solve_equivalent_doubledSine : ∃ e, solvedSine.graph.get 3 = .ok e ∧ e.IsDefined shifted ∧ e.Holds shifted := by
  obtain ⟨root, way, e, -, hway, he, hback⟩ := solve_equivalent solve_doubledSine List.mem_cons_self shifted
  have hway' : solvedSine.graph.path 0 3 = .ok [0, 1, 2, 3] := Graph.path_chain _ _
  obtain rfl := Except.ok.inj (hway.symm.trans hway')
  obtain ⟨hdefined, hiff⟩ := (hback isReversible_solvedSine).1 isDefined_doubledSine
  exact ⟨e, he, hdefined, hiff.mp holds_doubledSine⟩

end Equation

end Isolate
