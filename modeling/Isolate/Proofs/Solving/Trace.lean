import Isolate.Proofs.Solving.Chain
import Isolate.Proofs.Solving.Run

/-!
# The search with one strategy

Every node gets at most one node below it, so the search makes a chain. What stands in the chain is told by its trace
(`Search.Trace`): normal forms one after the other, each made by the strategy from the one above it, and at the end the
leaf.

* `Search.gives_expand`: the search extends a chain by a trace, and its last node is the only leaf.
* `Equation.solve_trace`: a solved graph is the chain of a trace.
-/

namespace Isolate

namespace Search

variable {task : Task} {strategy : Strategy} {s s' : SearchState}

/-- What the search leaves in a chain: the first equation becomes its normal form, and the others stand below it, each
with its conditions. A leaf is not normalised. -/
inductive Trace (task : Task) (strategy : Strategy) : Equation → Equation → List (List String × Equation) → Prop
  | stuck {q r : Equation} (hsettles : Settles task q r) (hstuck : strategy.isApplicable r = false) :
      Trace task strategy q r []
  | leaf {q r c : Equation} {conditions : List String} (hsettles : Settles task q r)
      (htries : Tries task strategy r c conditions) (hlike : Equation.isLike task.config.mode c r = true) :
      Trace task strategy q r [(conditions, c)]
  | step {q r c c' : Equation} {conditions : List String} {rest : List (List String × Equation)}
      (hsettles : Settles task q r) (htries : Tries task strategy r c conditions)
      (hnew : Equation.isLike task.config.mode c r = false) (hbelow : Trace task strategy c c' rest) :
      Trace task strategy q r ((conditions, c') :: rest)

theorem Trace.settles {q r : Equation} {rest : List (List String × Equation)} (h : Trace task strategy q r rest) :
    Settles task q r := by
  cases h with
  | stuck hsettles | leaf hsettles | step hsettles => exact hsettles

/-- What expanding a node consists of, if one strategy is tried. -/
theorem gives_expand_succ {levels : Nat} {i : Int} {q : Equation} {leaves : List Int}
    (hone : task.strategies = [strategy]) (hget : s.graph.get i = .ok q)
    (h : Gives (expand task (levels + 1) i) s leaves s') :
    ∃ r b m m' below, Settles task q r ∧ Branching task strategy i s.graph r b m.graph ∧
      Gives (b.marked.mapM (expand task levels)) m below m' ∧ m'.graph.set i b.equation = .ok s'.graph ∧
      leaves = (if b.leaves.isEmpty && b.marked.isEmpty then [i] else b.leaves) ++ below.flatten := by
  obtain ⟨q', b, m, m', below, hget', hbranch, hrest⟩ := gives_expand_levels h
  obtain rfl := Except.ok.inj (hget.symm.trans hget')
  rw [hone] at hbranch
  obtain ⟨r, hsettles, hbranching⟩ := gives_branch hbranch
  exact ⟨r, b, m, m', below, hsettles, hbranching, hrest⟩

open Isolate.Graph in
/-- **The search extends a chain by a trace.** It starts at the last node, below `pre` and joined to `before`. -/
theorem gives_expand (hone : task.strategies = [strategy]) {levels : Nat} {pre : List GraphNode}
    {before : List (Int × List String)} {i : Int} {q : Equation} {leaves : List Int} (hpre : ∀ n ∈ pre, n.index < i)
    (hbefore : ∀ p ∈ before, p.1 < i) (hgraph : s.graph = ⟨pre ++ chainNodes before i q [], i + 1⟩)
    (h : Gives (expand task levels i) s leaves s') :
    ∃ r rest, Trace task strategy q r rest ∧
      s'.graph = ⟨pre ++ chainNodes before i r rest, i + rest.length + 1⟩ ∧ leaves = [i + rest.length] := by
  induction levels generalizing pre before i q s s' leaves with
  | zero => exact absurd h not_gives_throw
  | succ levels ih =>
    have hget : s.graph.get i = .ok q := by
      rw [hgraph]
      exact get_first hpre
    obtain ⟨r, b, m, m', below, hsettles, hbranching, hbelow, hset, hleaves⟩ := gives_expand_succ hone hget h
    rw [hgraph] at hbranching
    generalize hm : m.graph = g at hbranching
    cases hbranching with
    | stuck hstuck =>
      obtain ⟨rfl, rfl⟩ := gives_mapM_nil.mp hbelow
      rw [hm, set_chain hpre] at hset
      refine ⟨r, [], .stuck hsettles hstuck, ?_, ?_⟩
      · rw [← Except.ok.inj hset]
        simp
      · rw [hleaves]
        simp
    | @leaf c conditions child _ htries hadd hlike =>
      obtain ⟨rfl, rfl⟩ := gives_mapM_nil.mp hbelow
      rw [addPath_last hpre hbefore] at hadd
      cases hadd
      rw [hm, set_chain hpre] at hset
      refine ⟨r, [(conditions, c)], .leaf hsettles htries hlike, ?_, ?_⟩
      · rw [← Except.ok.inj hset]
        simp
      · rw [hleaves]
        simp
    | @step c conditions child _ htries hadd hnew =>
      obtain ⟨leaves', hexpand, rfl⟩ := gives_mapM_singleton.mp hbelow
      rw [addPath_last hpre hbefore] at hadd
      cases hadd
      have hbefore' : ∀ p ∈ [(i, conditions)], p.1 < i + 1 := by
        intro p hp
        rw [List.mem_singleton.mp hp]
        exact Int.lt_succ i
      have hgraph' : m.graph = ⟨(pre ++ [⟨i, some q, before ++ [(i + 1, conditions)]⟩]) ++
          chainNodes [(i, conditions)] (i + 1) c [], i + 1 + 1⟩ := by
        rw [hm, append_chainNodes_cons]
      obtain ⟨r', rest, htrace, hg, rfl⟩ := ih (forall_index_lt_append hpre rfl) hbefore' hgraph' hexpand
      have hg' : m'.graph = ⟨pre ++ chainNodes before i q ((conditions, r') :: rest), i + 1 + rest.length + 1⟩ := by
        rw [hg, append_chainNodes_cons]
      rw [hg', set_chain hpre] at hset
      refine ⟨r, (conditions, r') :: rest, .step hsettles htries hnew htrace, ?_, ?_⟩
      · rw [← Except.ok.inj hset, List.length_cons, show i + (rest.length + 1 : Nat) = i + 1 + rest.length by omega]
      · rw [hleaves, List.length_cons, show i + (rest.length + 1 : Nat) = i + 1 + rest.length by omega]
        simp

end Search

/-- **A solved graph is the chain of a trace**, and the leaf is its last node. -/
theorem Equation.solve_trace {task : Search.Task} {strategy : Strategy} {q : Equation} {s : Solved}
    (hone : task.strategies = [strategy]) (h : (q.solve task).1 = .ok s) :
    ∃ r rest, Search.Trace task strategy q r rest ∧ s = ⟨Graph.chain r rest, 0, [rest.length]⟩ := by
  obtain ⟨m, hrun, hs⟩ := gives_of_solve h
  have hsingle : (Graph.single q).1 = ⟨Graph.chainNodes [] 0 q [], 0 + 1⟩ := by
    rw [Graph.single, Graph.empty, Graph.addNode_next (List.forall_mem_nil _)]
    rfl
  obtain ⟨r, rest, htrace, hgraph, hleaves⟩ := Search.gives_expand hone (List.forall_mem_nil _)
    (List.forall_mem_nil _) hsingle hrun
  refine ⟨r, rest, htrace, ?_⟩
  rw [hs, hgraph, hleaves, Graph.chain]
  simp

end Isolate
