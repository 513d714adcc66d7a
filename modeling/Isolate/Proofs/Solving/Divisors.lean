import Isolate.Proofs.Isolating.Equivalence
import Isolate.Proofs.Solving.SolutionSet

/-!
# Divisors that are lost

The solved equation may be undefined where a leaf is defined and holds: a divisor that cancels leaves no condition
behind. It is lost where an equation is brought to its normal form, and nowhere else. Isolation steps lose none, as
their conditions say of all factors that move that they are not zero (`Search.Tries.isDefined`).

* `Solved.LosesDivisor`: on a way through a solved graph, an undefined equation has a normal form that is defined.
* `Equation.solve_defined`: where no divisor is lost, the solved equation is defined and holds if a leaf is and does.
-/

namespace Isolate

variable {I : Interpretation} {task : Search.Task} {q r : Equation}

/-! ## Nodes of a chain -/

namespace Graph

/-- Two elements of a list are next to each other. -/
theorem infix_pair_iff {as : List α} {a b : α} : [a, b] <:+: as ↔ ∃ k : Nat, as[k]? = some a ∧ as[k + 1]? = some b := by
  constructor
  · rintro ⟨pre, post, rfl⟩
    exact ⟨pre.length, by simp, by simp⟩
  · rintro ⟨k, ha, hb⟩
    have hlt := (List.getElem?_eq_some_iff.mp hb).1
    refine List.infix_iff_getElem?.mpr ⟨k, by simp; omega, fun i hi => ?_⟩
    match i with
    | 0 => rwa [Nat.zero_add]
    | 1 => rwa [Nat.add_comm]

end Graph

/-! ## Isolation steps -/

/-- What the isolation strategy leaves of an equation, before it is normalised. -/
def Equation.stepped (config : Config) (target : Option String) (q : Equation) : Equation :=
  (Strategy.applyInverse.apply config target q).equation

namespace Search

theorem Tries.eq_stepped {conditions : List String} (h : Tries task .applyInverse q r conditions) :
    r = q.stepped task.config task.target := by
  cases h with
  | made _ => rfl
  | skipped hfault =>
    unfold Equation.stepped
    unfold Strategy.apply at hfault ⊢
    simp only at hfault ⊢
    split at hfault
    · cases hfault
    · rfl

/-- **An isolation step loses no divisor.** -/
theorem Tries.isDefined {conditions : List String} (h : Tries task .applyInverse q r conditions)
    (hback : ∀ found, q.Takes task.config.placeholder task.target found → found.step.IsReversible I conditions)
    (hr : r.IsDefined I) : q.IsDefined I := by
  cases h with
  | skipped => exact hr
  | made hmade =>
    unfold Strategy.apply at hmade hr
    simp only at hmade hr
    split at hmade
    · rename_i done hdone
      cases hmade
      rw [hdone] at hr
      obtain ⟨hlen, ⟨hsame, -⟩ | ⟨i, found, hfound, htransform, hconditions⟩⟩ := Equation.applyInverse_eq_ok hdone
      · rwa [← hsame]
      · have hsubset : found.conditions ⊆ done.conditions := by
          rw [hconditions]
          exact List.Subset.refl _
        have hstep := hback found ⟨i, _, hfound, htransform⟩
        exact Equation.isDefined_of_isolation hlen hfound htransform hsubset hstep hr
    · cases hmade

/-- **Along a trace, divisors are lost by normalisation only.** -/
theorem Trace.isDefined {rest : List (List String × Equation)} (h : Trace task .applyInverse q r rest)
    (hback : ∀ edge ∈ Graph.chainEdges r rest, ∀ found,
      edge.1.Takes task.config.placeholder task.target found → found.step.IsReversible I edge.2)
    (hkeeps : ∀ a b, [a, b] <:+: r :: rest.map Prod.snd → b.IsDefined I →
      (a.stepped task.config task.target).IsDefined I)
    (hlast : (Graph.lastOf r rest).IsDefined I) : r.IsDefined I := by
  induction h with
  | stuck hsettles hstuck => exact hlast
  | leaf hsettles htries hlike => exact htries.isDefined (hback _ List.mem_cons_self) hlast
  | @step q r c c' conditions rest hsettles htries hnew hbelow ih =>
    obtain ⟨hfirst, hrest⟩ := List.forall_mem_cons.mp hback
    have hkeeps' : ∀ a b, [a, b] <:+: c' :: rest.map Prod.snd → b.IsDefined I →
        (a.stepped task.config task.target).IsDefined I :=
      fun a b hab => hkeeps a b (hab.trans (List.suffix_cons r _).isInfix)
    have hpair : [r, c'] <:+: r :: List.map Prod.snd ((conditions, c') :: rest) := ⟨[], rest.map Prod.snd, rfl⟩
    have hmade := hkeeps r c' hpair (ih hrest hkeeps' hlast)
    rw [← htries.eq_stepped] at hmade
    exact htries.isDefined hfirst hmade

end Search

/-! ## The graph -/

/-- On a way through a solved graph, a divisor is lost: what the strategy makes of an equation is undefined, and yet the
normal form that stands below is defined. -/
def Solved.LosesDivisor (I : Interpretation) (config : Config) (target : Option String) (s : Solved)
    (way : List Int) : Prop :=
  ∃ above below a b, [above, below] <:+: way ∧ s.graph.get above = .ok a ∧ s.graph.get below = .ok b ∧ b.IsDefined I ∧
    ¬(a.stepped config target).IsDefined I

/-- On the way down a chain, it is lost between two equations that are next to each other. -/
theorem Solved.losesDivisor_chain {config : Config} {target : Option String} {leaves : List Int}
    {rest : List (List String × Equation)} :
    Solved.LosesDivisor I config target ⟨Graph.chain r rest, 0, leaves⟩ (Graph.numbersTo rest.length) ↔
      ∃ a b, [a, b] <:+: r :: rest.map Prod.snd ∧ b.IsDefined I ∧ ¬(a.stepped config target).IsDefined I := by
  have hlen : (r :: rest.map Prod.snd).length = rest.length + 1 := by rw [List.length_cons, List.length_map]
  constructor
  · rintro ⟨above, below, a, b, hway, ha, hb, hdefined⟩
    obtain ⟨k, hk, rfl, rfl⟩ := Graph.infix_numbersTo_iff.mp hway
    have hget : ∀ m < rest.length + 1, ∃ e, (r :: rest.map Prod.snd)[m]? = some e :=
      fun m hm => ⟨_, List.getElem?_eq_getElem (by omega)⟩
    obtain ⟨a', ha'⟩ := hget k (by omega)
    obtain ⟨b', hb'⟩ := hget (k + 1) (by omega)
    obtain rfl := Except.ok.inj ((Graph.get_chain ha').symm.trans ha)
    obtain rfl := Except.ok.inj ((Graph.get_chain hb').symm.trans hb)
    exact ⟨a', b', Graph.infix_pair_iff.mpr ⟨k, ha', hb'⟩, hdefined⟩
  · rintro ⟨a, b, hab, hdefined⟩
    obtain ⟨k, ha, hb⟩ := Graph.infix_pair_iff.mp hab
    have hlt := (List.getElem?_eq_some_iff.mp hb).1
    exact ⟨k, k + 1, a, b, Graph.infix_numbersTo (by omega), Graph.get_chain ha, Graph.get_chain hb, hdefined⟩

namespace Equation

/-- **Nothing but normalisation loses a divisor.** Let a leaf be defined and hold, and let the isolation steps on the way
to it be such that they can be taken back. Then the root is defined and holds as well, unless the normal form of a node on
the way has lost a divisor; and so it is for the equation that is solved, unless the root has lost one. -/
theorem solve_defined {config : Config} {target : Option String} {q : Equation} {s : Solved} {leaf : Int}
    (h : (q.solve ⟨[.applyInverse], config, target⟩).1 = .ok s) (hleaf : leaf ∈ s.leaves) (I : Interpretation) :
    ∃ root way e, s.graph.get s.root = .ok root ∧ s.graph.path s.root leaf = .ok way ∧ s.graph.get leaf = .ok e ∧
      (s.IsReversible I config.placeholder target way → e.IsDefined I → e.Holds I →
        ¬s.LosesDivisor I config target way →
          (root.IsDefined I ∧ root.Holds I) ∧ ((root.IsDefined I → q.IsDefined I) → q.IsDefined I ∧ q.Holds I)) := by
  obtain ⟨r, rest, htrace, rfl⟩ := solve_trace rfl h
  obtain rfl := List.mem_singleton.mp hleaf
  refine ⟨r, _, _, Graph.get_zero_chain r rest, Graph.path_chain r rest, Graph.get_length_chain r rest, ?_⟩
  intro hback he hholds hloses
  have hsteps := Solved.isReversible_chain.mp hback
  have hroot : r.IsDefined I := htrace.isDefined hsteps (fun a b hab hb => by_contra fun ha =>
    hloses (Solved.losesDivisor_chain.mpr ⟨a, b, hab, hb, ha⟩)) he
  obtain ⟨hequation, hnormal⟩ := htrace.equivalent hsteps
  exact ⟨⟨hroot, (hnormal hroot).2.mpr hholds⟩, fun hq => ⟨hq hroot, (hequation (hq hroot)).2.mpr hholds⟩⟩

/-! ## A divisor with a condition -/

/-- The equation `x / sin(2) = 3 / sin(2)`. -/
def sameDivisors : Equation :=
  ⟨[.sum [⟨[.var "x"], [.call "sin" [.number 2]]⟩], .sum [⟨[.number 3], [.call "sin" [.number 2]]⟩]]⟩

/-- The equation `x = 3`. -/
def three : Equation := ⟨[.var "x", .number 3]⟩

/-- The chain of `x / sin(2) = 3 / sin(2)`. -/
def solvedDivisors : Solved :=
  ⟨.chain sameDivisors.analyze [(["sin(2) != 0"], three.analyze), ([], three.analyze)], 0, [2]⟩

/-- Every variable is three, and every call is two. -/
def threeAndTwo : Interpretation where
  var _ := 3
  call _ _ := 2
  power _ _ := 0
  modulo _ _ := 0
  factorial _ := 0

theorem solve_sameDivisors : (sameDivisors.solve ⟨[.applyInverse], .default, none⟩).1 = .ok solvedDivisors := by cbv

theorem isReversible_solvedDivisors :
    solvedDivisors.IsReversible threeAndTwo Config.default.placeholder none [0, 1, 2] := by
  have hmultiply : sameDivisors.analyze.isolation Config.default.placeholder none =
      .ok (some (0, ⟨.multiply ⟨[(Expr.call "sin" [.number 2]).analyze], []⟩ ⟨[(Expr.var "x").analyze], []⟩,
        ["sin(2) != 0"]⟩)) := by cbv
  have hnone : three.analyze.isolation Config.default.placeholder none = .ok none := by cbv
  refine Solved.isReversible_chain.mpr fun edge hedge found hfound => ?_
  obtain ⟨i, r, hisolation, -⟩ := hfound
  simp only [Graph.chainEdges, List.mem_cons, List.not_mem_nil, or_false] at hedge
  rcases hedge with rfl | rfl
  · rw [hmultiply] at hisolation
    cases hisolation
    intro fs hfs c hc hin
    rcases List.mem_pair.mp hfs with rfl | rfl
    · have hsine : (Expr.call "sin" [.number 2]).analyze.value threeAndTwo = 2 := by cbv
      rw [List.map_singleton, product_cons, product_nil, hsine]
      norm_num
    · simp
  · rw [hnone] at hisolation
    cases hisolation

theorem isDefined_three : three.analyze.IsDefined threeAndTwo :=
  (keeps_map Expr.keeps_analyze three
    (isDefined_pair.mpr ⟨Expr.isDefined_var .pos "x" none, Expr.isDefined_number .pos 3 none⟩)).1

theorem not_losesDivisor_solvedDivisors : ¬solvedDivisors.LosesDivisor threeAndTwo .default none [0, 1, 2] := by
  have hmoved : sameDivisors.analyze.stepped .default none = ⟨[.sum [⟨[(Expr.var "x").analyze], []⟩],
      .sum [⟨[(Expr.call "sin" [.number 2]).analyze, .sum [⟨[(Expr.number 3).analyze],
        [(Expr.call "sin" [.number 2]).analyze]⟩]], []⟩]]⟩ := by cbv
  have hsame : three.analyze.stepped .default none = three.analyze := by cbv
  refine fun hloses => ?_
  obtain ⟨a, b, hab, -, hundefined⟩ := Solved.losesDivisor_chain.mp hloses
  have ha : a = sameDivisors.analyze ∨ a = three.analyze := by
    obtain ⟨k, hk, hk'⟩ := Graph.infix_pair_iff.mp hab
    rcases k with _ | _ | k
    · exact .inl (Option.some.inj hk).symm
    · exact .inr (Option.some.inj hk).symm
    · simp at hk'
  rcases ha with rfl | rfl
  · rw [hmoved] at hundefined
    have hsine : (Expr.call "sin" [.number 2]).analyze.IsDefined threeAndTwo := by
      refine (Expr.keeps_analyze _ (Expr.isDefined_call.mpr ?_)).1
      exact List.forall_mem_singleton.mpr (Expr.isDefined_number .pos 2 none)
    have htwo : (Expr.call "sin" [.number 2]).analyze.value threeAndTwo = 2 := by cbv
    have hthree : (Expr.number 3).analyze.IsDefined threeAndTwo := Expr.isDefined_of_number rfl
    refine hundefined (isDefined_pair.mpr ⟨Expr.isDefined_sum_singleton.mpr ?_, Expr.isDefined_sum_singleton.mpr ?_⟩)
    · exact ⟨List.forall_mem_singleton.mpr (Expr.keeps_analyze _ (Expr.isDefined_var .pos "x" none)).1,
        List.forall_mem_nil _⟩
    · refine ⟨List.forall_mem_cons.mpr ⟨hsine, List.forall_mem_singleton.mpr ?_⟩, List.forall_mem_nil _⟩
      refine Expr.isDefined_sum_singleton.mpr ⟨List.forall_mem_singleton.mpr hthree, List.forall_mem_singleton.mpr ?_⟩
      rw [htwo]
      exact ⟨hsine, two_ne_zero⟩
  · rw [hsame] at hundefined
    exact hundefined isDefined_three

theorem solve_defined_sameDivisors : ∃ root, solvedDivisors.graph.get 0 = .ok root ∧ root.IsDefined threeAndTwo ∧
    root.Holds threeAndTwo := by
  obtain ⟨root, way, e, hroot, hway, he, hback⟩ := solve_defined solve_sameDivisors List.mem_cons_self threeAndTwo
  have hway' : solvedDivisors.graph.path 0 2 = .ok [0, 1, 2] := Graph.path_chain _ _
  have he' : solvedDivisors.graph.get 2 = .ok three.analyze := Graph.get_length_chain _ _
  obtain rfl := Except.ok.inj (hway.symm.trans hway')
  obtain rfl := Except.ok.inj (he.symm.trans he')
  have hholds : three.analyze.Holds threeAndTwo := holds_pair.mpr (by cbv)
  exact ⟨root, hroot,
    (hback isReversible_solvedDivisors isDefined_three hholds not_losesDivisor_solvedDivisors).1⟩

/-! ## A divisor that cancels -/

/-- The equation `x + 3 / sin(2) = 3 / sin(2)`. -/
def sameFractions : Equation :=
  ⟨[.sum [.of (.var "x"), ⟨[.number 3], [.call "sin" [.number 2]]⟩], .sum [⟨[.number 3], [.call "sin" [.number 2]]⟩]]⟩

/-- The equation `x = 0`. -/
def zero : Equation := ⟨[.var "x", .number 0]⟩

/-- The chain of `x + 3 / sin(2) = 3 / sin(2)`: no edge has a condition. -/
def solvedFractions : Solved := ⟨.chain sameFractions.analyze [([], zero.analyze), ([], zero.analyze)], 0, [2]⟩

/-- Everything is zero. -/
def vanishing : Interpretation where
  var _ := 0
  call _ _ := 0
  power _ _ := 0
  modulo _ _ := 0
  factorial _ := 0

theorem solve_sameFractions : (sameFractions.solve ⟨[.applyInverse], .default, none⟩).1 = .ok solvedFractions := by cbv

theorem isReversible_solvedFractions :
    solvedFractions.IsReversible vanishing Config.default.placeholder none [0, 1, 2] := by
  have hadd : sameFractions.analyze.isolation Config.default.placeholder none =
      .ok (some (0, ⟨.add [⟨[(Expr.number 3).analyze.neg], [(Expr.call "sin" [.number 2]).analyze]⟩]
        [.of (Expr.var "x").analyze], []⟩)) := by cbv
  have hnone : zero.analyze.isolation Config.default.placeholder none = .ok none := by cbv
  refine Solved.isReversible_chain.mpr fun edge hedge found hfound => ?_
  obtain ⟨i, r, hisolation, -⟩ := hfound
  simp only [Graph.chainEdges, List.mem_cons, List.not_mem_nil, or_false] at hedge
  rcases hedge with rfl | rfl
  · rw [hadd] at hisolation
    cases hisolation
    trivial
  · rw [hnone] at hisolation
    cases hisolation

theorem not_isDefined_sameFractions : ¬sameFractions.analyze.IsDefined vanishing := by
  intro h
  have hshape : (Expr.sum [⟨[.number 3], [.call "sin" [.number 2]]⟩]).analyze.shape =
      (Expr.sum [⟨[(Expr.number 3).analyze], [(Expr.call "sin" [.number 2]).analyze]⟩]).shape := by cbv
  have hsine : (Expr.call "sin" [.number 2]).analyze.value vanishing = 0 := by cbv
  have hside := (Expr.isDefined_of_shape hshape).mp (isDefined_pair.mp h).2
  exact (Expr.isDefined_sum_singleton.mp hside).2 _ List.mem_cons_self |>.2 hsine

theorem solve_sameFractions_undefined : ∃ root way e,
    (sameFractions.solve ⟨[.applyInverse], .default, none⟩).1 = .ok solvedFractions ∧
      solvedFractions.graph.get 0 = .ok root ∧ solvedFractions.graph.path 0 2 = .ok way ∧
      solvedFractions.graph.get 2 = .ok e ∧
      solvedFractions.IsReversible vanishing Config.default.placeholder none way ∧ e.IsDefined vanishing ∧
      e.Holds vanishing ∧ ¬root.IsDefined vanishing ∧ ¬sameFractions.IsDefined vanishing := by
  refine ⟨_, _, _, solve_sameFractions, Graph.get_zero_chain _ _, Graph.path_chain _ _, Graph.get_length_chain _ _,
    isReversible_solvedFractions, ?_, ?_, not_isDefined_sameFractions, fun h => ?_⟩
  · refine (keeps_map Expr.keeps_analyze zero (isDefined_pair.mpr ⟨?_, ?_⟩)).1
    · exact Expr.isDefined_var .pos "x" none
    · exact Expr.isDefined_number .pos 0 none
  · show zero.analyze.Holds vanishing
    exact holds_pair.mpr (by cbv)
  · exact not_isDefined_sameFractions (keeps_map Expr.keeps_analyze _ h).1

end Equation

end Isolate
