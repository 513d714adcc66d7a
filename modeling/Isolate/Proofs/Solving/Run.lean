import Isolate.Solve.Search

/-!
# Runs of the search

A run of a part of the search that ends with a result (`Search.Gives`), and what such a run says about each part. The
log is left out: it is written, and nothing is read from it.

* `Search.Settles`: an equation is normalised and analysed.
* `Search.Tries`: what a strategy makes of an equation, which is the equation itself if the fault was passed over.
* `Search.gives_branch`: a node at which one strategy is tried.
-/

namespace Isolate

namespace Search

/-- From a state, a part of the search ends with a result and leaves another state behind. -/
def Gives (x : Search α) (s : SearchState) (a : α) (s' : SearchState) : Prop := x.run.run s = (.ok a, s')

variable {s s' : SearchState} {task : Task} {strategy : Strategy} {q c : Equation} {conditions : List String}

/-! ## Parts of any kind -/

theorem gives_pure {a b : α} : Gives (pure a) s b s' ↔ a = b ∧ s = s' := by
  show ((Except.ok a : Except Fault α), s) = (.ok b, s') ↔ _
  rw [Prod.mk.injEq, Except.ok.injEq]

theorem not_gives_throw {fault : Fault} {a : α} : ¬Gives (throw fault) s a s' := by
  intro h
  cases h

/-- The run of one part after the other; a fault ends it. -/
theorem run_bind {x : Search α} {f : α → Search β} : (x >>= f).run.run s = match x.run.run s with
    | (.ok a, m) => (f a).run.run m
    | (.error fault, m) => (.error fault, m) := by
  show (x.run >>= ExceptT.bindCont f).run s = _
  rw [StateT.run_bind]
  show (match x.run.run s with | (r, m) => (ExceptT.bindCont f r).run m) = _
  rcases x.run.run s with ⟨_ | a, m⟩
  · rfl
  · rfl

theorem gives_bind {x : Search α} {f : α → Search β} {b : β} :
    Gives (x >>= f) s b s' ↔ ∃ a m, Gives x s a m ∧ Gives (f a) m b s' := by
  rw [Gives, run_bind]
  constructor
  · intro h
    split at h
    · rename_i a m hx
      exact ⟨a, m, hx, h⟩
    · cases h
  · rintro ⟨a, m, hx, hf⟩
    rw [hx]
    exact hf

theorem gives_get {t : SearchState} : Gives get s t s' ↔ s = t ∧ s = s' := by
  show ((Except.ok s : Except Fault SearchState), s) = (.ok t, s') ↔ _
  rw [Prod.mk.injEq, Except.ok.injEq]

theorem gives_modify {f : SearchState → SearchState} {u : Unit} : Gives (modify f) s u s' ↔ f s = s' := by
  show ((Except.ok () : Except Fault Unit), f s) = (.ok u, s') ↔ _
  rw [Prod.mk.injEq]
  exact and_iff_right rfl

section Lists

variable {f : α → Search β} {x : α} {xs : List α} {ys : List β}

theorem gives_mapM_nil : Gives (([] : List α).mapM f) s ys s' ↔ [] = ys ∧ s = s' := by
  rw [List.mapM_nil]
  exact gives_pure

/-- The first of a list is run, and the others go on from there. -/
theorem gives_mapM_cons : Gives ((x :: xs).mapM f) s ys s' ↔
    ∃ y m zs, Gives (f x) s y m ∧ Gives (xs.mapM f) m zs s' ∧ ys = y :: zs := by
  rw [List.mapM_cons]
  constructor
  · intro h
    obtain ⟨y, m, hx, h⟩ := gives_bind.mp h
    obtain ⟨zs, m', hxs, h⟩ := gives_bind.mp h
    obtain ⟨rfl, rfl⟩ := gives_pure.mp h
    exact ⟨y, m, zs, hx, hxs, rfl⟩
  · rintro ⟨y, m, zs, hx, hxs, rfl⟩
    exact gives_bind.mpr ⟨y, m, hx, gives_bind.mpr ⟨zs, s', hxs, gives_pure.mpr ⟨rfl, rfl⟩⟩⟩

theorem gives_mapM_singleton : Gives ([x].mapM f) s ys s' ↔ ∃ y, Gives (f x) s y s' ∧ ys = [y] := by
  rw [gives_mapM_cons]
  constructor
  · rintro ⟨y, m, zs, hx, hnil, rfl⟩
    obtain ⟨rfl, rfl⟩ := gives_mapM_nil.mp hnil
    exact ⟨y, hx, rfl⟩
  · rintro ⟨y, hx, rfl⟩
    exact ⟨y, s', [], hx, gives_mapM_nil.mpr ⟨rfl, rfl⟩, rfl⟩

end Lists

/-! ## The parts of the search -/

theorem graph_of_report {entries : List LogEntry} {u : Unit} (h : Gives (report entries) s u s') :
    s'.graph = s.graph := by
  rw [← gives_modify.mp h]

theorem gives_addBelow {parent child : Int} (h : Gives (addBelow parent q conditions) s child s') :
    s.graph.addPath q conditions parent = .ok (s'.graph, child) := by
  obtain ⟨t, m, hget, h⟩ := gives_bind.mp h
  obtain ⟨rfl, rfl⟩ := gives_get.mp hget
  split at h
  · exact absurd h not_gives_throw
  · rename_i graph child' hadd
    obtain ⟨u, m, hset, h⟩ := gives_bind.mp h
    obtain ⟨rfl, rfl⟩ := gives_pure.mp h
    rw [hadd, ← gives_modify.mp hset]

/-- The second equation is the normal form of the first one, analysed. -/
def Settles (task : Task) (q r : Equation) : Prop :=
  ∃ u rounds, q.normalize Equation.usualPasses task.config.mode task.config.maxRounds = (u, .ok rounds) ∧ r = u.analyze

theorem gives_normalize {r : Equation} {rounds : Nat} (h : Gives (normalize task q) s (r, rounds) s') :
    Settles task q r ∧ s'.graph = s.graph := by
  unfold normalize at h
  split at h
  · exact absurd h not_gives_throw
  · rename_i u _ hn
    obtain ⟨x, m, hreport, h⟩ := gives_bind.mp h
    obtain ⟨he, rfl⟩ := gives_pure.mp h
    cases he
    exact ⟨⟨u, rounds, hn, rfl⟩, graph_of_report hreport⟩

/-- What comes of trying a strategy: what it makes, or the equation itself under no conditions if the fault is passed
over. -/
inductive Tries (task : Task) (strategy : Strategy) (q : Equation) : Equation → List String → Prop
  | made {conditions : List String} (h : (strategy.apply task.config task.target q).outcome = .ok conditions) :
      Tries task strategy q (strategy.apply task.config task.target q).equation conditions
  | skipped {fault : Fault} (h : (strategy.apply task.config task.target q).outcome = .error fault)
      (hskippable : fault.isSkippable = true) (hpolicy : task.config.onUnsupported = .skip) :
      Tries task strategy q q []

theorem gives_attempt {index : Int} (h : Gives (attempt task index q strategy) s (c, conditions) s') :
    Tries task strategy q c conditions ∧ s'.graph = s.graph := by
  obtain ⟨x, m, hreport, h⟩ := gives_bind.mp h
  have hgraph := graph_of_report hreport
  split at h
  · rename_i conditions' hmade
    obtain ⟨he, rfl⟩ := gives_pure.mp h
    cases he
    exact ⟨.made hmade, hgraph⟩
  · rename_i fault hfault
    split at h
    · rename_i hskip
      obtain ⟨hskippable, hpolicy⟩ := Bool.and_eq_true_iff.mp hskip
      obtain ⟨x, m, hwarning, h⟩ := gives_bind.mp h
      obtain ⟨he, rfl⟩ := gives_pure.mp h
      cases he
      exact ⟨.skipped hfault hskippable (of_decide_eq_true hpolicy), (graph_of_report hwarning).trans hgraph⟩
    · exact absurd h not_gives_throw

/-! ## A node -/

/-- What one strategy makes of a node: nothing, a leaf below it, or a node below it that is expanded. -/
inductive Branching (task : Task) (strategy : Strategy) (index : Int) (g : Graph) (r : Equation) :
    Branches → Graph → Prop
  | stuck (hstuck : strategy.isApplicable r = false) : Branching task strategy index g r ⟨r, [], []⟩ g
  | leaf {c : Equation} {conditions : List String} {child : Int} {g' : Graph}
      (htries : Tries task strategy r c conditions) (hadd : g.addPath c conditions index = .ok (g', child))
      (hlike : Equation.isLike task.config.mode c r = true) :
      Branching task strategy index g r ⟨r, [child], []⟩ g'
  | step {c : Equation} {conditions : List String} {child : Int} {g' : Graph}
      (htries : Tries task strategy r c conditions) (hadd : g.addPath c conditions index = .ok (g', child))
      (hnew : Equation.isLike task.config.mode c r = false) :
      Branching task strategy index g r ⟨r, [], [child]⟩ g'

theorem Branching.equation_eq {index : Int} {g g' : Graph} {r : Equation} {b : Branches}
    (h : Branching task strategy index g r b g') : b.equation = r := by
  cases h with
  | stuck | leaf | step => rfl

/-- The first strategy makes its own of a node, and the others go on from there. -/
theorem gives_branch_cons {index : Int} {rest : List Strategy} {b₀ b : Branches}
    (h : Gives (branch task index (strategy :: rest) b₀) s b s') :
    ∃ r b₁ m, Settles task b₀.equation r ∧ Branching task strategy index s.graph r b₁ m.graph ∧
      Gives (branch task index rest ⟨r, b₀.leaves ++ b₁.leaves, b₀.marked ++ b₁.marked⟩) m b s' := by
  unfold branch at h
  obtain ⟨⟨r, rounds⟩, m₁, hnormalize, h⟩ := gives_bind.mp h
  obtain ⟨hsettles, hgraph₁⟩ := gives_normalize hnormalize
  obtain ⟨x, m₂, hdebug, h⟩ := gives_bind.mp h
  have hgraph₂ := (graph_of_report hdebug).trans hgraph₁
  split at h
  · obtain ⟨⟨c, conditions⟩, m₃, hattempt, h⟩ := gives_bind.mp h
    obtain ⟨htries, hgraph₃⟩ := gives_attempt hattempt
    obtain ⟨child, m₄, hbelow, h⟩ := gives_bind.mp h
    have hadd := gives_addBelow hbelow
    rw [hgraph₃, hgraph₂] at hadd
    split at h
    · rename_i hlike
      refine ⟨r, ⟨r, [child], []⟩, m₄, hsettles, .leaf htries hadd hlike, ?_⟩
      rwa [List.append_nil]
    · rename_i hlike
      obtain ⟨x, m₅, hreport, h⟩ := gives_bind.mp h
      rw [← graph_of_report hreport] at hadd
      refine ⟨r, ⟨r, [], [child]⟩, m₅, hsettles, .step htries hadd (Bool.eq_false_iff.mpr hlike), ?_⟩
      rwa [List.append_nil]
  · rename_i hstuck
    obtain ⟨x, m₃, hdebug', h⟩ := gives_bind.mp h
    refine ⟨r, ⟨r, [], []⟩, m₃, hsettles, ?_, ?_⟩
    · rw [graph_of_report hdebug', hgraph₂]
      exact .stuck (Bool.eq_false_iff.mpr hstuck)
    · rwa [List.append_nil, List.append_nil]

theorem gives_branch {index : Int} {b : Branches} (h : Gives (branch task index [strategy] ⟨q, [], []⟩) s b s') :
    ∃ r, Settles task q r ∧ Branching task strategy index s.graph r b s'.graph := by
  obtain ⟨r, b₁, m, hsettles, hbranching, h⟩ := gives_branch_cons h
  obtain ⟨rfl, rfl⟩ := gives_pure.mp h
  obtain rfl := hbranching.equation_eq
  exact ⟨b₁.equation, hsettles, hbranching⟩

/-- Expanding a node: its strategies are tried, then the marked nodes are expanded, and at last the node gets the
equation that its strategies left. -/
theorem gives_expand_levels {levels : Nat} {index : Int} {leaves : List Int}
    (h : Gives (expand task (levels + 1) index) s leaves s') :
    ∃ q b m m' below, s.graph.get index = .ok q ∧ Gives (branch task index task.strategies ⟨q, [], []⟩) s b m ∧
      Gives (b.marked.mapM (expand task levels)) m below m' ∧ m'.graph.set index b.equation = .ok s'.graph ∧
        leaves = (if b.leaves.isEmpty && b.marked.isEmpty then [index] else b.leaves) ++ below.flatten := by
  unfold expand at h
  obtain ⟨t, m₁, hstate, h⟩ := gives_bind.mp h
  obtain ⟨rfl, rfl⟩ := gives_get.mp hstate
  split at h
  · rename_i q hget
    obtain ⟨q', m₂, hq, h⟩ := gives_bind.mp h
    obtain ⟨rfl, rfl⟩ := gives_pure.mp hq
    obtain ⟨b, m, hbranch, h⟩ := gives_bind.mp h
    obtain ⟨below, m', hbelow, h⟩ := gives_bind.mp h
    obtain ⟨t', m₃, hstate, h⟩ := gives_bind.mp h
    obtain ⟨rfl, rfl⟩ := gives_get.mp hstate
    refine ⟨q, b, m, m', below, hget, hbranch, hbelow, ?_⟩
    cases hset : m'.graph.set index b.equation with
    | ok g =>
      simp only [hset] at h
      obtain ⟨u, m₄, hmodify, h⟩ := gives_bind.mp h
      obtain ⟨rfl, rfl⟩ := gives_pure.mp h
      rw [← gives_modify.mp hmodify]
      exact ⟨rfl, rfl⟩
    | error fault =>
      simp only [hset] at h
      obtain ⟨u, m₄, hthrow, -⟩ := gives_bind.mp h
      exact absurd hthrow not_gives_throw
  · obtain ⟨u, m₂, hthrow, -⟩ := gives_bind.mp h
    exact absurd hthrow not_gives_throw

end Search

/-- A solved graph is what expanding the root leaves. -/
theorem Equation.gives_of_solve {task : Search.Task} {q : Equation} {s : Solved} (h : (q.solve task).1 = .ok s) :
    ∃ m, Search.Gives (Search.expandAt task 0 0) ⟨(Graph.single q).1, []⟩ s.leaves m ∧ s = ⟨m.graph, 0, s.leaves⟩ := by
  have hsingle : Graph.single q = ((Graph.single q).1, 0) := rfl
  rw [solve, hsingle] at h
  simp only at h
  split at h
  · cases h
  · rename_i leaves m hrun
    obtain rfl := Except.ok.inj h
    exact ⟨m, hrun, rfl⟩

end Isolate
