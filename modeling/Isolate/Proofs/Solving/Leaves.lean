import Isolate.Proofs.Isolating.Progress
import Isolate.Proofs.Solving.Faults

/-!
# Where the search stops

At its last node, the search has a normal form that the strategy leaves as it is: there is nothing to be undone, or the
strategy fails and the fault is passed over (`Search.Trace.stops`). What the strategy does depends on the equation only
(`Search.Tries.unique`), so a search that starts from the last equation stops there.

* `Solved.solutions_chain`: a solved chain has one solution, with the conditions of all its edges.
* `Equation.solve_of_stops`: the search from a normal form that the strategy leaves as it is.
* `Equation.solve_leaf_stable`: the equation of a leaf is its own and only solution.
-/

namespace Isolate

variable {task : Search.Task} {strategy : Strategy} {config : Config} {target : Option String} {q r c c' : Equation}
  {conditions conditions' : List String} {rest : List (List String × Equation)}

/-! ## The solution of a chain -/

namespace Solved

/-- The conditions on the way down a chain, each once, after those that are known. -/
def gathered (known : List String) : List (List String × Equation) → List String
  | [] => known
  | (conditions, _) :: rest => gathered (known ++ conditions.filter fun c => !known.contains c) rest

/-- Going down the edges of a chain gathers their conditions. -/
theorem gather_of_edges {g : Graph} {i : Int} (known : List String)
    (h : ∀ (k : Nat) (p : List String × Equation), rest[k]? = some p → g.conditions (i + k) (i + k + 1) = .ok p.1) :
    ∃ path, gather g i known ((List.range rest.length).map fun k : Nat => i + k + 1) = .ok path ∧
      ((i, known) :: path).getLast?.map (·.2) = some (gathered known rest) := by
  induction rest generalizing i known with
  | nil => exact ⟨[], rfl, rfl⟩
  | cons p rest ih =>
    have hfirst : g.conditions i (i + 1) = .ok p.1 := by simpa using h 0 p rfl
    have hrest : ∀ (k : Nat) (p : List String × Equation), rest[k]? = some p →
        g.conditions (i + 1 + k) (i + 1 + k + 1) = .ok p.1 := by
      intro k p' hk
      have hk' := h (k + 1) p' hk
      rwa [show i + (k + 1 : Nat) = i + 1 + k by omega] at hk'
    obtain ⟨path, hpath, hlast⟩ := ih (known ++ p.1.filter fun c => !known.contains c) hrest
    have hway : (List.range (p :: rest).length).map (fun k : Nat => i + k + 1) =
        (i + 1) :: (List.range rest.length).map fun k : Nat => i + 1 + k + 1 := by
      rw [List.length_cons, List.range_succ_eq_map, List.map_cons, List.map_map]
      refine congrArg₂ _ (by simp) (List.map_congr_left fun k _ => ?_)
      simp only [Function.comp_apply]
      omega
    refine ⟨(i + 1, known ++ p.1.filter fun c => !known.contains c) :: path, ?_, ?_⟩
    · rw [hway, gather, hfirst]
      show (do return (i + 1, _) :: (← gather g (i + 1) (known ++ p.1.filter fun c => !known.contains c)
        ((List.range rest.length).map fun k : Nat => i + 1 + k + 1)) : Except Fault (List (Int × List String))) = _
      rw [hpath]
      rfl
    · rw [List.getLast?_cons_cons, hlast]
      rfl

/-- **A solved chain has one solution**: its last equation, with the conditions of all edges. -/
theorem solutions_chain (r : Equation) (rest : List (List String × Equation)) :
    (⟨Graph.chain r rest, 0, [rest.length]⟩ : Solved).solutions =
      .ok [(Graph.lastOf r rest, gathered [] rest)] := by
  have hedges : ∀ (k : Nat) (p : List String × Equation), rest[k]? = some p →
      (Graph.chain r rest).conditions (0 + k) (0 + k + 1) = .ok p.1 := by
    intro k p hk
    rw [Int.zero_add]
    exact Graph.conditions_chain hk
  obtain ⟨path, hgather, hlast⟩ := gather_of_edges [] hedges
  have hway : Graph.numbersTo rest.length = 0 :: (List.range rest.length).map fun k : Nat => (0 : Int) + k + 1 := by
    rw [Graph.numbersTo, List.range_succ_eq_map, List.map_cons, List.map_map]
    refine congrArg _ (List.map_congr_left fun k _ => ?_)
    simp
  have hpath : (⟨Graph.chain r rest, 0, [rest.length]⟩ : Solved).path rest.length = .ok ((0, []) :: path) := by
    rw [Solved.path, Graph.path_chain, hway]
    show (do return (0, []) :: (← gather (Graph.chain r rest) 0 []
      ((List.range rest.length).map fun k : Nat => (0 : Int) + k + 1)) : Except Fault (List (Int × List String))) = _
    rw [hgather]
    rfl
  have hconditions : (⟨Graph.chain r rest, 0, [rest.length]⟩ : Solved).conditions rest.length =
      .ok (gathered [] rest) := by
    rw [conditions, hpath]
    show Except.ok ((((0, []) :: path).getLast?.map (·.2)).getD []) = _
    rw [hlast]
    rfl
  rw [solutions, List.mapM_cons, List.mapM_nil, Graph.get_length_chain, hconditions]
  rfl

end Solved

/-! ## Nodes at which the search stops -/

namespace Equation

theorem length_analyze (q : Equation) : q.analyze.sides.length = q.sides.length := List.length_map ..

theorem analyze_analyze (q : Equation) : q.analyze.analyze = q.analyze := by
  rw [analyze, analyze, List.map_map]
  exact congrArg Equation.mk (List.map_congr_left fun e _ => Expr.analyze_analyze e)

theorem analyze_of_tidy (h : r.tidy = r) : r.analyze = r := by
  rw [analyze]
  exact congrArg Equation.mk
    ((List.map_congr_left fun e he => Expr.analyze_of_tidy (tidy_of_mem h he)).trans (List.map_id _))

/-- Normalising leaves what a round leaves. -/
theorem normalize_of_tidy {limit : Int} (h : r.tidy = r) (hlimit : 1 ≤ limit) :
    r.normalize usualPasses .bijective limit = (r, .ok 1) := by
  obtain ⟨fuel, hfuel⟩ : ∃ fuel, limit.toNat = fuel + 1 := ⟨limit.toNat - 1, by omega⟩
  rw [normalize, analyze_of_tidy h, hfuel, settle_succ, h, if_pos (isLike_self _)]

theorem mem_sided (first : Bool) (a b : Expr) : a ∈ (sided first a b).sides := by cases first <;> simp [sided]

/-- An isolation step can be tried where an analysed side has a variable. -/
theorem isApplicable_of_isVarying {e : Expr} (he : e ∈ q.sides) (ha : e.analyze = e) (hvary : e.isVarying = true) :
    Strategy.applyInverse.isApplicable q = true := by
  refine List.any_eq_true.mpr ⟨e, he, ?_⟩
  rw [Expr.summary_of_analyze ha]
  exact hvary

/-- An isolation step that cannot be tried would change nothing. -/
theorem applyInverse_of_not_isApplicable {template : String} (hq : q.analyze = q) (hlen : q.sides.length = 2)
    (h : Strategy.applyInverse.isApplicable q = false) : q.applyInverse template target = .ok ⟨q, [], []⟩ := by
  have hconstant : ∀ e ∈ q.sides, e.analyze = e → e.holds target = false := by
    intro e he ha
    refine Bool.eq_false_iff.mpr fun hold => ?_
    rw [isApplicable_of_isVarying he ha (Expr.isVarying_of_holds hold)] at h
    cases h
  rcases exists_sided target hlen with ⟨a, b, rfl, ha, hb⟩ | ⟨first, a, b, rfl, hold, -⟩
  · obtain ⟨haa, hbb⟩ := analyze_sided (show (sided true a b).analyze = _ from hq)
    exact applyInverse_of_not_holds haa hbb ha hb
  · rw [hconstant a (mem_sided first a b) (analyze_sided hq).1] at hold
    cases hold

end Equation

namespace Search

/-! ## What is known of a normal form -/

namespace Settles

theorem normalize_eq (h : Settles task q r) (hmode : task.config.mode = .bijective) :
    ∃ rounds, q.normalize Equation.usualPasses .bijective task.config.maxRounds = (r, .ok rounds) := by
  obtain ⟨u, rounds, hn, rfl⟩ := h
  rw [hmode] at hn
  rw [Equation.analyze_of_tidy (Equation.tidy_of_normalize hn)]
  exact ⟨rounds, hn⟩

theorem tidy_eq (h : Settles task q r) (hmode : task.config.mode = .bijective) : r.tidy = r := by
  obtain ⟨rounds, hn⟩ := h.normalize_eq hmode
  exact Equation.tidy_of_normalize hn

theorem analyze_eq (h : Settles task q r) : r.analyze = r := by
  obtain ⟨u, rounds, -, rfl⟩ := h
  exact u.analyze_analyze

theorem length_eq (h : Settles task q r) : r.sides.length = q.sides.length := by
  obtain ⟨u, rounds, hn, rfl⟩ := h
  obtain ⟨k, rfl⟩ := Equation.settle_eq_iterate hn
  rw [Equation.length_analyze, Equation.sides_iterate_tidy, List.length_map, Equation.length_analyze]

/-- The normal form of two sides. -/
theorem sided {first : Bool} {a b : Expr} (h : Settles task (Equation.sided first a b) r)
    (hmode : task.config.mode = .bijective) :
    ∃ a' b', r = Equation.sided first a' b' ∧ a'.IsNormalOf a ∧ b'.IsNormalOf b := by
  obtain ⟨rounds, hn⟩ := h.normalize_eq hmode
  exact Equation.forall₂_sided (Equation.isNormalOf_normalize hn)

/-- Only with a round at least does normalising end. -/
theorem one_le_maxRounds (h : Settles task q r) : 1 ≤ task.config.maxRounds := by
  obtain ⟨u, rounds, hn, -⟩ := h
  by_contra hlt
  rw [Equation.normalize, show task.config.maxRounds.toNat = 0 by omega] at hn
  cases hn

/-- A normal form is normalised to itself. -/
theorem eq_self (h : Settles task r c) (hr : r.tidy = r) (hmode : task.config.mode = .bijective) : c = r := by
  obtain ⟨rounds, hn⟩ := h.normalize_eq hmode
  rw [Equation.normalize_of_tidy hr h.one_le_maxRounds] at hn
  exact (Prod.mk.inj hn).1.symm

end Settles

/-! ## What is known of a strategy -/

namespace Tries

/-- What comes of trying a strategy depends on the equation only. -/
theorem unique (h : Tries task strategy q c conditions) (h' : Tries task strategy q c' conditions') :
    c = c' ∧ conditions = conditions' := by
  cases h with
  | made hmade =>
    cases h' with
    | made hmade' => exact ⟨rfl, Except.ok.inj (hmade.symm.trans hmade')⟩
    | skipped hfault =>
      rw [hmade] at hfault
      cases hfault
  | skipped hfault =>
    cases h' with
    | made hmade =>
      rw [hmade] at hfault
      cases hfault
    | skipped => exact ⟨rfl, rfl⟩

/-- Where something comes of a strategy, no fault does. -/
theorem not_refuses {fault : Fault} (h : Tries task strategy q c conditions) : ¬Refuses task strategy q fault := by
  rintro ⟨hfault, hpolicy⟩
  cases h with
  | made hmade =>
    rw [hmade] at hfault
    cases hfault
  | skipped hskipped hskippable hskip =>
    obtain rfl := Except.error.inj (hskipped.symm.trans hfault)
    rw [hpolicy hskippable] at hskip
    cases hskip

/-- A step that is made. -/
theorem of_applyInverse {done : Equation.Isolated} (h : q.applyInverse config.placeholder target = .ok done) :
    Tries ⟨[.applyInverse], config, target⟩ .applyInverse q done.equation done.conditions := by
  have hoff : Strategy.applyInverse.apply config target q = ⟨done.equation, .ok done.conditions, done.log⟩ := by
    rw [Strategy.apply, h]
  have hmade : Tries ⟨[.applyInverse], config, target⟩ .applyInverse q
      (Strategy.applyInverse.apply config target q).equation done.conditions := .made (by rw [hoff])
  rwa [hoff] at hmade

/-- An isolation step that is made, or one that is passed over. -/
theorem cases_applyInverse (h : Tries task .applyInverse q c conditions) :
    (∃ done, q.applyInverse task.config.placeholder task.target = .ok done ∧ done.equation = c ∧
      done.conditions = conditions) ∨ task.config.onUnsupported = .skip ∧ c = q ∧ conditions = [] := by
  cases h with
  | made hmade =>
    unfold Strategy.apply at hmade ⊢
    simp only at hmade ⊢
    split at hmade
    · rename_i done hdone
      rw [hdone]
      exact .inl ⟨done, rfl, rfl, Except.ok.inj hmade⟩
    · cases hmade
  | skipped hfault hskippable hskip => exact .inr ⟨hskip, rfl, rfl⟩

theorem length_eq (h : Tries task strategy q c conditions) (hq : q.analyze = q) :
    c.sides.length = q.sides.length := by
  cases strategy with
  | flatten =>
    cases h with
    | made => exact List.length_map ..
    | skipped => rfl
  | simplify =>
    cases h with
    | made =>
      rw [Strategy.apply, ← hq, Equation.simplify_analyze, hq]
      exact List.length_map ..
    | skipped => rfl
  | applyInverse =>
    rcases h.cases_applyInverse with ⟨done, hdone, rfl, -⟩ | ⟨-, rfl, -⟩
    · cases Equation.isolates_of_applyInverse hq hdone with
      | same hsame => rw [hsame]
      | @step _ first a b p name found hq' hold hfirst honly hfound hpeels hdone' =>
        rw [hdone', hq']
        cases first <;> rfl
    · rfl

/-- What is like the equation is the equation. -/
theorem eq_self (h : Tries task .applyInverse q c conditions) (hq : q.analyze = q)
    (hlike : Equation.isLike .bijective c q = true) : c = q ∧ conditions = [] := by
  rcases h.cases_applyInverse with ⟨done, hdone, rfl, rfl⟩ | ⟨-, rfl, rfl⟩
  · exact (Equation.isolates_of_applyInverse hq hdone).eq_self (.inl hlike)
  · exact ⟨rfl, rfl⟩

end Tries

/-- The strategy leaves a normal form as it is. -/
structure Stops (task : Task) (strategy : Strategy) (r : Equation) : Prop where
  tidy_eq : r.tidy = r
  tries : Tries task strategy r r []

/-- **The last equation of a trace is one at which the search stops.** -/
theorem Trace.stops (h : Trace ⟨[.applyInverse], config, target⟩ .applyInverse q r rest)
    (hmode : config.mode = .bijective) (hlen : q.sides.length = 2) :
    Stops ⟨[.applyInverse], config, target⟩ .applyInverse (Graph.lastOf r rest) := by
  induction h with
  | @stuck q r hsettles hstuck =>
    have htidy := hsettles.tidy_eq hmode
    have hnone : r.applyInverse config.placeholder target = .ok ⟨r, [], []⟩ :=
      Equation.applyInverse_of_not_isApplicable (Equation.analyze_of_tidy htidy) (hsettles.length_eq.trans hlen) hstuck
    exact ⟨htidy, .of_applyInverse hnone⟩
  | leaf hsettles htries hlike =>
    have htidy := hsettles.tidy_eq hmode
    rw [hmode] at hlike
    obtain ⟨rfl, rfl⟩ := htries.eq_self (Equation.analyze_of_tidy htidy) hlike
    exact ⟨htidy, htries⟩
  | step hsettles htries hnew hbelow ih =>
    have hanalyzed := Equation.analyze_of_tidy (hsettles.tidy_eq hmode)
    exact ih ((htries.length_eq hanalyzed).trans (hsettles.length_eq.trans hlen))

/-- Below an equation at which the search stops, there is that equation or nothing. -/
theorem Stops.trace (h : Stops task strategy q) (hmode : task.config.mode = .bijective)
    (htrace : Trace task strategy q r rest) : r = q ∧ (rest = [] ∨ rest = [([], q)]) := by
  cases htrace with
  | stuck hsettles => exact ⟨hsettles.eq_self h.tidy_eq hmode, .inl rfl⟩
  | leaf hsettles htries =>
    obtain rfl := hsettles.eq_self h.tidy_eq hmode
    obtain ⟨rfl, rfl⟩ := htries.unique h.tries
    exact ⟨rfl, .inr rfl⟩
  | step hsettles htries hnew =>
    obtain rfl := hsettles.eq_self h.tidy_eq hmode
    obtain ⟨rfl, rfl⟩ := htries.unique h.tries
    rw [hmode, Equation.isLike_self] at hnew
    cases hnew

end Search

namespace Equation

/-- The search has a level at least to go down to. -/
theorem maxDepth_of_solve {s : Solved} (h : (q.solve task).1 = .ok s) : 0 ≤ task.config.maxDepth := by
  obtain ⟨m, hrun, -⟩ := gives_of_solve h
  by_contra hlt
  rw [Search.expandAt, show (task.config.maxDepth - 0 + 1).toNat = 0 by omega] at hrun
  exact Search.not_gives_throw hrun

/-- **The search from an equation at which it stops** has that equation as its only solution, without conditions. -/
theorem solve_of_stops (h : Search.Stops task strategy q) (hone : task.strategies = [strategy])
    (hmode : task.config.mode = .bijective) (hrounds : 1 ≤ task.config.maxRounds) (hdepth : 0 ≤ task.config.maxDepth) :
    ∃ s, (q.solve task).1 = .ok s ∧ s.solutions = .ok [(q, [])] := by
  cases hsolve : (q.solve task).1 with
  | ok s =>
    obtain ⟨r, rest, htrace, rfl⟩ := solve_trace hone hsolve
    refine ⟨_, rfl, ?_⟩
    rw [Solved.solutions_chain]
    obtain ⟨rfl, rfl | rfl⟩ := h.trace hmode htrace
    · rfl
    · rfl
  | error fault =>
    -- it would fail at once, as it never gets further than the equation
    obtain ⟨levels, hlevels⟩ : ∃ levels, (task.config.maxDepth - 0 + 1).toNat = levels + 1 :=
      ⟨task.config.maxDepth.toNat, by omega⟩
    have hfails := fails_of_solve hsolve
    rw [Search.expandAt, hlevels] at hfails
    cases Search.fails_expand hone (Search.atEnd_single q) hfails with
    | normalize hfault =>
      rw [hmode, normalize_of_tidy h.tidy_eq hrounds] at hfault
      cases hfault
    | attempt hsettles hrefuses =>
      obtain rfl := hsettles.eq_self h.tidy_eq hmode
      exact absurd hrefuses h.tries.not_refuses
    | below hsettles htries hnew =>
      obtain rfl := hsettles.eq_self h.tidy_eq hmode
      obtain ⟨rfl, rfl⟩ := htries.unique h.tries
      rw [hmode, isLike_self] at hnew
      cases hnew

/-- **The equation of a leaf is its own and only solution.** If the search from an equation of two sides gives a result,
then for each of its solutions the search from the solution, for the same target by the same configuration, gives a
result with one solution: the same equation, without conditions. -/
theorem solve_leaf_stable {s : Solved} (hmode : config.mode = .bijective) (hlen : q.sides.length = 2)
    (h : (q.solve ⟨[.applyInverse], config, target⟩).1 = .ok s) :
    ∃ solutions, s.solutions = .ok solutions ∧ ∀ leaf ∈ solutions,
      ∃ s', (leaf.1.solve ⟨[.applyInverse], config, target⟩).1 = .ok s' ∧ s'.solutions = .ok [(leaf.1, [])] := by
  obtain ⟨r, rest, htrace, rfl⟩ := solve_trace rfl h
  refine ⟨_, Solved.solutions_chain r rest, fun leaf hleaf => ?_⟩
  rw [List.mem_singleton.mp hleaf]
  exact solve_of_stops (htrace.stops hmode hlen) rfl hmode htrace.settles.one_le_maxRounds (maxDepth_of_solve h)

/-- Faults are passed over. -/
def skipping : Config := { Config.default with onUnsupported := .skip }

/-- The equation `2 * f(x, 3) = 6`, which has a step before there is a call of two arguments. -/
def binaryCall : Equation :=
  ⟨[(Expr.number 2).mul (.call "f" [.var "x", .number 3]), .number 6]⟩

theorem solve_leaf_stable_binaryCall : ∃ s, (binaryCall.solve ⟨[.applyInverse], skipping, none⟩).1 = .ok s ∧
    s.leaves = [2] ∧ ∃ solutions, s.solutions = .ok solutions ∧ ∀ leaf ∈ solutions,
      ∃ s', (leaf.1.solve ⟨[.applyInverse], skipping, none⟩).1 = .ok s' ∧ s'.solutions = .ok [(leaf.1, [])] := by
  have hrun : (binaryCall.solve ⟨[.applyInverse], skipping, none⟩).1.map (·.leaves) = .ok [2] := by cbv
  cases hs : (binaryCall.solve ⟨[.applyInverse], skipping, none⟩).1 with
  | error fault =>
    rw [hs] at hrun
    cases hrun
  | ok s =>
    rw [hs] at hrun
    exact ⟨s, rfl, Except.ok.inj hrun, solve_leaf_stable rfl rfl hs⟩

end Equation

end Isolate
