import Isolate.Proofs.Isolating.Remaining
import Isolate.Proofs.Solving.Leaves

/-!
# The graph records the run

If no fault is passed over, every edge of a solved chain stands for one isolation step (`Search.Trace.records`): its
conditions are those of the step, and the node below holds the normal form of what the step makes. As the variable
remains on its side, a step that makes progress is followed by another try, so that the search always ends with a step
that changes nothing (`Search.Trace.ends`).

* `Solved.IsRecord`: what the graph says about the run.
* `Equation.solve_isRecord`: a solved graph is a record of its run.
-/

namespace Isolate

variable {task : Search.Task} {config : Config} {target : Option String} {q r c : Equation} {conditions : List String}
  {rest : List (List String × Equation)}

/-! ## What is recorded -/

/-- Normalising the equation by the configuration ends with success, and with `e`. -/
def Equation.HasNormalForm (config : Config) (q e : Equation) : Prop :=
  ∃ rounds, q.normalize usualPasses config.mode config.maxRounds = (e, .ok rounds)

/-- An isolation step at an equation arises under the conditions, and its result has the normal form `e'`. -/
def Equation.LeadsTo (config : Config) (target : Option String) (e : Equation) (conditions : List String)
    (e' : Equation) : Prop :=
  ∃ done, e.analyze.applyInverse config.placeholder target = .ok done ∧ done.conditions = conditions ∧
    done.equation.HasNormalForm config e'

/-- A solved graph tells the run from an equation: `n` steps one after the other, the last of which, if there is one,
changes nothing. -/
structure Solved.IsRecord (config : Config) (target : Option String) (q : Equation) (s : Solved) (n : Nat) : Prop where
  root : s.root = 0
  leaves : s.leaves = [(n : Int)]
  numbers : s.graph.nodes.map (·.index) = (List.range (n + 1)).map Int.ofNat
  edges : s.graph.edges.map (fun e => (e.1, e.2.1)) = (List.range n).map fun k : Nat => ((k : Int), (k : Int) + 1)
  first : ∃ e, s.graph.get 0 = .ok e ∧ q.HasNormalForm config e
  steps : ∀ k : Nat, k < n → ∃ e conditions e', s.graph.get k = .ok e ∧ s.graph.conditions k (k + 1) = .ok conditions ∧
    s.graph.get (k + 1) = .ok e' ∧ e.LeadsTo config target conditions e'
  last : ∀ k : Nat, n = k + 1 → s.graph.conditions k n = .ok [] ∧ ∃ e, s.graph.get k = .ok e ∧ s.graph.get n = .ok e

namespace Search

theorem Settles.hasNormalForm (h : Settles task q r) (hmode : task.config.mode = .bijective) :
    q.HasNormalForm task.config r := by
  obtain ⟨rounds, hn⟩ := h.normalize_eq hmode
  exact ⟨rounds, by rw [hmode, hn]⟩

/-- A step at a normal form that changes something leaves a variable. -/
theorem Tries.isApplicable (h : Tries ⟨[.applyInverse], config, target⟩ .applyInverse q c conditions)
    (hmode : config.mode = .bijective) (hq : q.tidy = q) (hnew : Equation.isLike config.mode c q = false)
    (hsettles : Settles ⟨[.applyInverse], config, target⟩ c r) : Strategy.applyInverse.isApplicable r = true := by
  have hne : c ≠ q := by
    rintro rfl
    rw [hmode, Equation.isLike_self] at hnew
    cases hnew
  rcases h.cases_applyInverse with ⟨done, hdone, rfl, -⟩ | ⟨-, hsame, -⟩
  · cases Equation.isolates_of_applyInverse (Equation.analyze_of_tidy hq) hdone with
    | same hsame => exact absurd hsame hne
    | @step _ first a b p name found hq' hold hfirst honly hfound hpeels hdone' =>
      subst hq'
      rw [hdone'] at hsettles
      obtain ⟨a', b', rfl, ha, -⟩ := hsettles.sided hmode
      have hta : a.tidy = a := (Equation.forall_sided.mp fun e => Equation.tidy_of_mem hq).1
      have hvary := hpeels.isVarying hta (Expr.isVarying_of_holds hold) ha
      exact Equation.isApplicable_of_isVarying (Equation.mem_sided first a' b') ha.analyze_eq hvary
  · exact absurd hsame hne

/-- **Every edge of a trace stands for one isolation step**, if no fault is passed over. -/
theorem Trace.records (h : Trace ⟨[.applyInverse], config, target⟩ .applyInverse q r rest)
    (hmode : config.mode = .bijective) (hraise : config.onUnsupported = .raise) (hlen : q.sides.length = 2) (k : Nat)
    {e : Equation} (he : (r :: rest.map (·.2))[k]? = some e) {p : List String × Equation} (hp : rest[k]? = some p) :
    e.LeadsTo config target p.1 p.2 := by
  have hmade : ∀ {r c : Equation} {conditions : List String},
      Tries ⟨[.applyInverse], config, target⟩ .applyInverse r c conditions → r.tidy = r → ∀ {c' : Equation},
        c.HasNormalForm config c' → r.LeadsTo config target conditions c' := by
    intro r c conditions htries hr c' hc
    rcases htries.cases_applyInverse with ⟨done, hdone, rfl, rfl⟩ | ⟨hskip, -⟩
    · exact ⟨done, by rw [Equation.analyze_of_tidy hr, hdone], rfl, hc⟩
    · rw [hraise] at hskip
      cases hskip
  induction h generalizing k e p with
  | stuck => cases hp
  | @leaf q r c conditions hsettles htries hlike =>
    have hr := hsettles.tidy_eq hmode
    cases k with
    | zero =>
      cases he
      cases hp
      rw [hmode] at hlike
      obtain ⟨rfl, -⟩ := htries.eq_self (Equation.analyze_of_tidy hr) hlike
      exact hmade htries hr ⟨1, by rw [hmode]; exact Equation.normalize_of_tidy hr hsettles.one_le_maxRounds⟩
    | succ k => cases hp
  | @step q r c c' conditions rest hsettles htries hnew hbelow ih =>
    have hr := hsettles.tidy_eq hmode
    cases k with
    | zero =>
      cases he
      cases hp
      exact hmade htries hr (hbelow.settles.hasNormalForm hmode)
    | succ k =>
      have hlen' := (htries.length_eq (Equation.analyze_of_tidy hr)).trans (hsettles.length_eq.trans hlen)
      exact ih hlen' k he hp

/-- **A trace with a step ends with one that changes nothing.** -/
theorem Trace.ends (h : Trace ⟨[.applyInverse], config, target⟩ .applyInverse q r rest)
    (hmode : config.mode = .bijective) : rest = [] ∨ ∃ pre, rest = pre ++ [([], Graph.lastOf r pre)] := by
  induction h with
  | stuck => exact .inl rfl
  | leaf hsettles htries hlike =>
    rw [hmode] at hlike
    obtain ⟨rfl, rfl⟩ := htries.eq_self (Equation.analyze_of_tidy (hsettles.tidy_eq hmode)) hlike
    exact .inr ⟨[], rfl⟩
  | @step q r c c' conditions rest hsettles htries hnew hbelow ih =>
    have happlicable := htries.isApplicable hmode (hsettles.tidy_eq hmode) hnew hbelow.settles
    rcases ih with rfl | ⟨pre, rfl⟩
    · -- what the step leaves has a variable, so the search does not stop there
      cases hbelow with
      | stuck _ hstuck =>
        rw [happlicable] at hstuck
        cases hstuck
    · exact .inr ⟨(conditions, c') :: pre, rfl⟩

end Search

/-! ## Solving -/

/-- The chain of a trace records the run. -/
theorem Search.Trace.isRecord (h : Search.Trace ⟨[.applyInverse], config, target⟩ .applyInverse q r rest)
    (hmode : config.mode = .bijective) (hraise : config.onUnsupported = .raise) (hlen : q.sides.length = 2) :
    Solved.IsRecord config target q ⟨Graph.chain r rest, 0, [(rest.length : Int)]⟩ rest.length where
  root := rfl
  leaves := rfl
  numbers := by
    show (Graph.chainNodes [] 0 r rest).map (·.index) = _
    rw [Graph.index_chainNodes]
    exact List.map_congr_left fun k _ => Int.zero_add _
  edges := by
    show (Graph.edgesFrom [] (Graph.chainNodes [] 0 r rest)).map (fun e => (e.1, e.2.1)) = _
    rw [Graph.edgesFrom_chainNodes (List.forall_mem_nil _) (List.forall_mem_nil _)]
    exact List.map_congr_left fun k _ => by rw [Int.zero_add]
  first := ⟨r, Graph.get_chain (k := 0) rfl, h.settles.hasNormalForm hmode⟩
  steps k hk := by
    have hnode : k < (r :: rest.map (·.2)).length := by
      rw [List.length_cons, List.length_map]
      omega
    obtain ⟨p, hp⟩ : ∃ p, rest[k]? = some p := ⟨rest[k], List.getElem?_eq_getElem hk⟩
    have he := List.getElem?_eq_getElem hnode
    have he' : (r :: rest.map (·.2))[k + 1]? = some p.2 := by
      rw [List.getElem?_cons_succ, List.getElem?_map, hp]
      rfl
    refine ⟨_, p.1, p.2, Graph.get_chain he, Graph.conditions_chain hp, ?_, h.records hmode hraise hlen k he hp⟩
    exact_mod_cast Graph.get_chain he'
  last k hk := by
    rcases h.ends hmode with rfl | ⟨pre, rfl⟩
    · cases hk
    · obtain rfl : k = pre.length := by simpa using hk.symm
      have hlast : (pre ++ [([], Graph.lastOf r pre)])[pre.length]? = some ([], Graph.lastOf r pre) := by simp
      refine ⟨?_, Graph.lastOf r pre, Graph.get_chain ?_, Graph.get_chain ?_⟩
      · rw [hk]
        exact_mod_cast Graph.conditions_chain hlast
      · rw [List.map_append, ← List.cons_append, List.getElem?_append_left (by simp), Graph.getElem?_lastOf]
      · rw [hk, List.getElem?_cons_succ, List.getElem?_map, hlast]
        rfl

namespace Equation

/-- **A solved graph is a record of its run.** If the search from an equation of two sides gives a result, and no fault
is passed over, then the nodes make a chain from the normal form of the equation down to the only leaf, the edges of which
stand for one isolation step each; the last of the steps changes nothing. -/
theorem solve_isRecord {s : Solved} (hmode : config.mode = .bijective) (hraise : config.onUnsupported = .raise)
    (hlen : q.sides.length = 2) (h : (q.solve ⟨[.applyInverse], config, target⟩).1 = .ok s) :
    ∃ n, s.IsRecord config target q n := by
  obtain ⟨r, rest, htrace, rfl⟩ := solve_trace rfl h
  exact ⟨rest.length, htrace.isRecord hmode hraise hlen⟩

/-- The equation `3 - x = y`. -/
def difference : Equation := ⟨[(Expr.number 3).sub (.var "x"), .var "y"]⟩

theorem solve_isRecord_difference : ∃ s, (difference.solve ⟨[.applyInverse], .default, some "x"⟩).1 = .ok s ∧
    s.IsRecord .default (some "x") difference 3 := by
  have hrun : (difference.solve ⟨[.applyInverse], .default, some "x"⟩).1.map (·.leaves) = .ok [3] := by cbv
  cases hs : (difference.solve ⟨[.applyInverse], .default, some "x"⟩).1 with
  | error fault =>
    rw [hs] at hrun
    cases hrun
  | ok s =>
    rw [hs] at hrun
    obtain ⟨n, hrecord⟩ := solve_isRecord rfl rfl rfl hs
    have hn : [(n : Int)] = [3] := hrecord.leaves.symm.trans (Except.ok.inj hrun)
    obtain rfl : n = 3 := Int.ofNat_inj.mp (List.cons.inj hn).1
    exact ⟨s, rfl, hrecord⟩

end Equation

end Isolate
