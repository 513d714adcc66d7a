import Isolate.Proofs.Solving.Trace

/-!
# Runs of the search that fail

A run of a part of the search that ends with a fault (`Search.Fails`), and where the fault comes from. At the end of a
chain (`Search.AtEnd`), the graph is never at fault: a node is there to be read, to be extended and to be replaced.

* `Search.fails_branch_cons` and `Search.fails_expand_levels`: why expanding a node fails, whatever strategies are tried.
* `Search.fails_expand`: if one strategy is tried, expanding a node fails because it cannot be normalised, because the
  strategy fails, or because expanding the node below it fails.
-/

namespace Isolate

namespace Search

/-- From a state, a part of the search ends with a fault. -/
def Fails (x : Search α) (s : SearchState) (fault : Fault) : Prop := ∃ s', x.run.run s = (.error fault, s')

variable {s : SearchState} {task : Task} {strategy : Strategy} {q : Equation} {fault : Fault}

/-! ## Parts of any kind -/

theorem not_fails_pure {a : α} : ¬Fails (pure a) s fault := by
  rintro ⟨s', h⟩
  cases h

theorem fails_throw {fault' : Fault} : Fails (throw fault' : Search α) s fault ↔ fault' = fault := by
  constructor
  · rintro ⟨s', h⟩
    cases h
    rfl
  · rintro rfl
    exact ⟨s, rfl⟩

theorem fails_bind {x : Search α} {f : α → Search β} :
    Fails (x >>= f) s fault ↔ Fails x s fault ∨ ∃ a m, Gives x s a m ∧ Fails (f a) m fault := by
  simp only [Fails, run_bind]
  constructor
  · rintro ⟨s', h⟩
    split at h
    · rename_i a m hx
      exact .inr ⟨a, m, hx, s', h⟩
    · rename_i fault' m hx
      cases h
      exact .inl ⟨_, hx⟩
  · rintro (⟨s', hx⟩ | ⟨a, m, hx, s', h⟩)
    · exact ⟨s', by rw [hx]⟩
    · refine ⟨s', ?_⟩
      rw [hx]
      exact h

/-- A list of parts fails where the first of it does, or the others after it. -/
theorem fails_mapM_cons {f : α → Search β} {x : α} {xs : List α} : Fails ((x :: xs).mapM f) s fault ↔
    Fails (f x) s fault ∨ ∃ y m, Gives (f x) s y m ∧ Fails (xs.mapM f) m fault := by
  rw [List.mapM_cons, fails_bind]
  refine or_congr_right (exists_congr fun y => exists_congr fun m => and_congr_right fun _ => ?_)
  rw [fails_bind]
  refine or_iff_left ?_
  rintro ⟨zs, m', -, h⟩
  exact not_fails_pure h

theorem not_fails_get : ¬Fails get s fault := by
  rintro ⟨s', h⟩
  cases h

theorem not_fails_modify {f : SearchState → SearchState} : ¬Fails (modify f) s fault := by
  rintro ⟨s', h⟩
  cases h

theorem not_fails_report {entries : List LogEntry} : ¬Fails (report entries) s fault := not_fails_modify

/-! ## The parts of the search -/

theorem fails_addBelow {parent : Int} {conditions : List String} (h : Fails (addBelow parent q conditions) s fault) :
    s.graph.addPath q conditions parent = .error fault := by
  rcases fails_bind.mp h with h | ⟨t, m, hget, h⟩
  · exact absurd h not_fails_get
  · obtain ⟨rfl, rfl⟩ := gives_get.mp hget
    split at h
    · rename_i fault' hadd
      rw [hadd, fails_throw.mp h]
    · rcases fails_bind.mp h with h | ⟨u, m, hset, h⟩
      · exact absurd h not_fails_modify
      · exact absurd h not_fails_pure

theorem fails_normalize (h : Fails (normalize task q) s fault) :
    (q.normalize Equation.usualPasses task.config.mode task.config.maxRounds).2 = .error fault := by
  unfold normalize at h
  split at h
  · rename_i u fault' hn
    rw [hn, fails_throw.mp h]
  · rcases fails_bind.mp h with h | ⟨u, m, hreport, h⟩
    · exact absurd h not_fails_report
    · exact absurd h not_fails_pure

/-- The strategy fails at an equation, and the fault is not passed over. -/
def Refuses (task : Task) (strategy : Strategy) (q : Equation) (fault : Fault) : Prop :=
  (strategy.apply task.config task.target q).outcome = .error fault ∧
    (fault.isSkippable = true → task.config.onUnsupported = .raise)

theorem Refuses.eq_error (h : Refuses task .applyInverse q fault) :
    q.applyInverse task.config.placeholder task.target = .error fault := by
  have hmade := h.1
  unfold Strategy.apply at hmade
  simp only at hmade
  split at hmade
  · cases hmade
  · rename_i fault' hfault
    cases hmade
    exact hfault

theorem fails_attempt {index : Int} (h : Fails (attempt task index q strategy) s fault) :
    Refuses task strategy q fault := by
  rcases fails_bind.mp h with h | ⟨u, m, hreport, h⟩
  · exact absurd h not_fails_report
  · split at h
    · exact absurd h not_fails_pure
    · rename_i fault' hfault
      split at h
      · rcases fails_bind.mp h with h | ⟨u, m, hwarning, h⟩
        · exact absurd h not_fails_report
        · exact absurd h not_fails_pure
      · rename_i hpolicy
        obtain rfl := fails_throw.mp h
        refine ⟨hfault, fun hskippable => ?_⟩
        cases hp : task.config.onUnsupported with
        | raise => rfl
        | skip => simp [hskippable, hp] at hpolicy

/-- Why trying strategies at a node fails: the first one does not get as far as a node below, or the others fail. -/
theorem fails_branch_cons {index : Int} {rest : List Strategy} {b₀ : Branches}
    (h : Fails (branch task index (strategy :: rest) b₀) s fault) :
    (b₀.equation.normalize Equation.usualPasses task.config.mode task.config.maxRounds).2 = .error fault ∨
      ∃ r, Settles task b₀.equation r ∧ (Refuses task strategy r fault ∨
        (∃ c conditions, s.graph.addPath c conditions index = .error fault) ∨
        ∃ b₁ m, Branching task strategy index s.graph r b₁ m.graph ∧
          Fails (branch task index rest ⟨r, b₀.leaves ++ b₁.leaves, b₀.marked ++ b₁.marked⟩) m fault) := by
  unfold branch at h
  rcases fails_bind.mp h with h | ⟨⟨r, rounds⟩, m₁, hnormalize, h⟩
  · exact .inl (fails_normalize h)
  obtain ⟨hsettles, hgraph₁⟩ := gives_normalize hnormalize
  refine .inr ⟨r, hsettles, ?_⟩
  rcases fails_bind.mp h with h | ⟨x, m₂, hdebug, h⟩
  · exact absurd h not_fails_report
  have hgraph₂ := (graph_of_report hdebug).trans hgraph₁
  split at h
  · rcases fails_bind.mp h with h | ⟨⟨c, conditions⟩, m₃, hattempt, h⟩
    · exact .inl (fails_attempt h)
    obtain ⟨htries, hgraph₃⟩ := gives_attempt hattempt
    refine .inr ?_
    rcases fails_bind.mp h with h | ⟨child, m₄, hbelow, h⟩
    · have hadd := fails_addBelow h
      rw [hgraph₃, hgraph₂] at hadd
      exact .inl ⟨c, conditions, hadd⟩
    have hadd := gives_addBelow hbelow
    rw [hgraph₃, hgraph₂] at hadd
    split at h
    · rename_i hlike
      refine .inr ⟨⟨r, [child], []⟩, m₄, .leaf htries hadd hlike, ?_⟩
      rwa [List.append_nil]
    · rename_i hlike
      rcases fails_bind.mp h with h | ⟨x, m₅, hreport, h⟩
      · exact absurd h not_fails_report
      rw [← graph_of_report hreport] at hadd
      refine .inr ⟨⟨r, [], [child]⟩, m₅, .step htries hadd (Bool.eq_false_iff.mpr hlike), ?_⟩
      rwa [List.append_nil]
  · rename_i hstuck
    rcases fails_bind.mp h with h | ⟨x, m₃, hdebug', h⟩
    · exact absurd h not_fails_report
    refine .inr (.inr ⟨⟨r, [], []⟩, m₃, ?_, ?_⟩)
    · rw [graph_of_report hdebug', hgraph₂]
      exact .stuck (Bool.eq_false_iff.mpr hstuck)
    · rwa [List.append_nil, List.append_nil]

/-- Why trying one strategy at a node fails. -/
theorem fails_branch {index : Int} (h : Fails (branch task index [strategy] ⟨q, [], []⟩) s fault) :
    (q.normalize Equation.usualPasses task.config.mode task.config.maxRounds).2 = .error fault ∨
      ∃ r, Settles task q r ∧ (Refuses task strategy r fault ∨
        ∃ c conditions, s.graph.addPath c conditions index = .error fault) := by
  rcases fails_branch_cons h with h | ⟨r, hsettles, h | h | ⟨b₁, m, -, h⟩⟩
  · exact .inl h
  · exact .inr ⟨r, hsettles, .inl h⟩
  · exact .inr ⟨r, hsettles, .inr h⟩
  · exact absurd h not_fails_pure

/-- Why expanding a node fails: its equation is not there, no strategy gets through, expanding a node below fails, or the
equation cannot be replaced. -/
theorem fails_expand_levels {levels : Nat} {index : Int} (h : Fails (expand task (levels + 1) index) s fault) :
    s.graph.get index = .error fault ∨
      ∃ q, s.graph.get index = .ok q ∧ (Fails (branch task index task.strategies ⟨q, [], []⟩) s fault ∨
        ∃ b m, Gives (branch task index task.strategies ⟨q, [], []⟩) s b m ∧
          (Fails (b.marked.mapM (expand task levels)) m fault ∨
            ∃ below m', Gives (b.marked.mapM (expand task levels)) m below m' ∧
              m'.graph.set index b.equation = .error fault)) := by
  unfold expand at h
  rcases fails_bind.mp h with h | ⟨t, m₁, hstate, h⟩
  · exact absurd h not_fails_get
  obtain ⟨rfl, rfl⟩ := gives_get.mp hstate
  split at h
  · rename_i q hget
    refine .inr ⟨q, hget, ?_⟩
    rcases fails_bind.mp h with h | ⟨q', m₂, hq, h⟩
    · exact absurd h not_fails_pure
    obtain ⟨rfl, rfl⟩ := gives_pure.mp hq
    rcases fails_bind.mp h with h | ⟨b, m, hbranch, h⟩
    · exact .inl h
    refine .inr ⟨b, m, hbranch, ?_⟩
    rcases fails_bind.mp h with h | ⟨below, m', hbelow, h⟩
    · exact .inl h
    refine .inr ⟨below, m', hbelow, ?_⟩
    rcases fails_bind.mp h with h | ⟨t, m₃, hstate, h⟩
    · exact absurd h not_fails_get
    obtain ⟨rfl, rfl⟩ := gives_get.mp hstate
    cases hset : m'.graph.set index b.equation with
    | ok g =>
      simp only [hset] at h
      rcases fails_bind.mp h with h | ⟨u, m₄, hmodify, h⟩
      · exact absurd h not_fails_modify
      · exact absurd h not_fails_pure
    | error fault' =>
      simp only [hset] at h
      rcases fails_bind.mp h with h | ⟨u, m₄, hthrow, h⟩
      · rw [fails_throw.mp h]
      · exact absurd hthrow not_gives_throw
  · rename_i fault' hget
    rcases fails_bind.mp h with h | ⟨u, m₂, hthrow, h⟩
    · rw [hget, fails_throw.mp h]
      exact .inl rfl
    · exact absurd hthrow not_gives_throw

/-! ## A node -/

open Isolate.Graph in
/-- The graph ends with a node that has the equation and no node below it, and knows smaller numbers only. -/
def AtEnd (g : Graph) (i : Int) (q : Equation) : Prop :=
  ∃ pre before, (∀ n ∈ pre, n.index < i) ∧ (∀ p ∈ before, p.1 < i) ∧ g = ⟨pre ++ chainNodes before i q [], i + 1⟩

open Isolate.Graph in
theorem atEnd_single (q : Equation) : AtEnd (Graph.single q).1 0 q := by
  refine ⟨[], [], List.forall_mem_nil _, List.forall_mem_nil _, ?_⟩
  rw [Graph.single, Graph.empty, addNode_next (List.forall_mem_nil _)]
  rfl

namespace AtEnd

variable {g : Graph} {i : Int} {c : Equation} {conditions : List String}

open Isolate.Graph in
theorem get (h : AtEnd g i q) : g.get i = .ok q := by
  obtain ⟨pre, before, hpre, -, rfl⟩ := h
  exact get_first hpre

open Isolate.Graph in
theorem set (h : AtEnd g i q) (r : Equation) : ∃ g', g.set i r = .ok g' := by
  obtain ⟨pre, before, hpre, -, rfl⟩ := h
  exact ⟨_, set_chain hpre⟩

open Isolate.Graph in
theorem set_of_addPath {g' : Graph} {child : Int} (h : AtEnd g i q) (hadd : g.addPath c conditions i = .ok (g', child))
    (r : Equation) : ∃ g'', g'.set i r = .ok g'' := by
  obtain ⟨pre, before, hpre, hbefore, rfl⟩ := h
  rw [addPath_last hpre hbefore] at hadd
  cases hadd
  exact ⟨_, set_chain hpre⟩

open Isolate.Graph in
/-- A node can be added at the end, and the end moves on to it. -/
theorem addPath (h : AtEnd g i q) (c : Equation) (conditions : List String) :
    ∃ g', g.addPath c conditions i = .ok (g', i + 1) ∧ AtEnd g' (i + 1) c := by
  obtain ⟨pre, before, hpre, hbefore, rfl⟩ := h
  refine ⟨_, addPath_last hpre hbefore conditions, pre ++ [⟨i, some q, before ++ [(i + 1, conditions)]⟩],
    [(i, conditions)], forall_index_lt_append hpre rfl, ?_, by rw [append_chainNodes_cons]⟩
  intro p hp
  rw [List.mem_singleton.mp hp]
  exact Int.lt_succ i

open Isolate.Graph in
/-- When the node below the end has been expanded, the equation of the end can still be replaced. -/
theorem set_of_gives {m m' : SearchState} {levels : Nat} {leaves : List Int} (hone : task.strategies = [strategy])
    (h : AtEnd g i q) (hadd : g.addPath c conditions i = .ok (m.graph, i + 1))
    (hbelow : Gives (expand task levels (i + 1)) m leaves m') (r : Equation) : ∃ g', m'.graph.set i r = .ok g' := by
  obtain ⟨pre, before, hpre, hbefore, rfl⟩ := h
  rw [addPath_last hpre hbefore] at hadd
  have hgraph : m.graph = ⟨(pre ++ [⟨i, some q, before ++ [(i + 1, conditions)]⟩]) ++
      chainNodes [(i, conditions)] (i + 1) c [], i + 1 + 1⟩ := by
    rw [← append_chainNodes_cons, ← (Prod.mk.inj (Except.ok.inj hadd)).1]
  have hbefore' : ∀ p ∈ [(i, conditions)], p.1 < i + 1 := by
    intro p hp
    rw [List.mem_singleton.mp hp]
    exact Int.lt_succ i
  obtain ⟨c', rest, -, hg, -⟩ := gives_expand hone (forall_index_lt_append hpre rfl) hbefore' hgraph hbelow
  rw [hg, ← append_chainNodes_cons]
  exact ⟨_, set_chain hpre⟩

end AtEnd

/-- Why expanding a node fails. -/
inductive Failing (task : Task) (strategy : Strategy) (levels : Nat) (i : Int) (q : Equation) (fault : Fault) : Prop
  | normalize (h : (q.normalize Equation.usualPasses task.config.mode task.config.maxRounds).2 = .error fault)
  | attempt {r : Equation} (hsettles : Settles task q r) (h : Refuses task strategy r fault)
  | below {r c : Equation} {conditions : List String} {m : SearchState} (hsettles : Settles task q r)
      (htries : Tries task strategy r c conditions) (hnew : Equation.isLike task.config.mode c r = false)
      (hat : AtEnd m.graph (i + 1) c) (h : Fails (expand task levels (i + 1)) m fault)

/-- **Why expanding a node fails**, if one strategy is tried: the graph is never the reason. -/
theorem fails_expand (hone : task.strategies = [strategy]) {levels : Nat} {i : Int} (hat : AtEnd s.graph i q)
    (h : Fails (expand task (levels + 1) i) s fault) : Failing task strategy levels i q fault := by
  rcases fails_expand_levels h with h | ⟨q', hget, h⟩
  · rw [hat.get] at h
    cases h
  obtain rfl := Except.ok.inj (hat.get.symm.trans hget)
  rw [hone] at h
  rcases h with h | ⟨b, m, hbranch, h⟩
  · rcases fails_branch h with h | ⟨r, hsettles, h | ⟨c, conditions, hadd⟩⟩
    · exact .normalize h
    · exact .attempt hsettles h
    · obtain ⟨g', hok, -⟩ := hat.addPath c conditions
      rw [hok] at hadd
      cases hadd
  obtain ⟨r, hsettles, hbranching⟩ := gives_branch hbranch
  generalize hm : m.graph = g at hbranching
  cases hbranching with
  | stuck hstuck =>
    rcases h with h | ⟨below, m', hbelow, h⟩
    · exact absurd h not_fails_pure
    obtain ⟨rfl, rfl⟩ := gives_pure.mp hbelow
    obtain ⟨g', hset⟩ := hat.set r
    cases h.symm.trans (hm ▸ hset)
  | leaf htries hadd hlike =>
    rcases h with h | ⟨below, m', hbelow, h⟩
    · exact absurd h not_fails_pure
    obtain ⟨rfl, rfl⟩ := gives_pure.mp hbelow
    obtain ⟨g', hset⟩ := hat.set_of_addPath hadd r
    cases h.symm.trans (hm ▸ hset)
  | @step c conditions child _ htries hadd hnew =>
    obtain ⟨g', hadd', hend⟩ := hat.addPath c conditions
    rw [hadd] at hadd'
    cases hadd'
    rcases h with h | ⟨below, m', hbelow, h⟩
    · rcases fails_mapM_cons.mp h with h | ⟨leaves, m₁, hexpand, h⟩
      · exact .below hsettles htries hnew (hm ▸ hend) h
      · exact absurd h not_fails_pure
    · obtain ⟨leaves, hexpand, rfl⟩ := gives_mapM_singleton.mp hbelow
      obtain ⟨g', hset⟩ := hat.set_of_gives hone (hm ▸ hadd) hexpand r
      cases h.symm.trans hset

end Search

/-- A search that fails does so in expanding the root. -/
theorem Equation.fails_of_solve {task : Search.Task} {q : Equation} {fault : Fault}
    (h : (q.solve task).1 = .error fault) :
    Search.Fails (Search.expandAt task 0 0) ⟨(Graph.single q).1, []⟩ fault := by
  have hsingle : Graph.single q = ((Graph.single q).1, 0) := rfl
  rw [solve, hsingle] at h
  simp only at h
  split at h
  · rename_i s hrun
    obtain rfl := Except.error.inj h
    exact ⟨s, hrun⟩
  · cases h

end Isolate
