import Isolate.Proofs.Isolating.Refusal
import Isolate.Proofs.Solving.Frame
import Isolate.Proofs.Solving.Leaves

/-!
# What a search is refused for

Whatever strategies are tried, every equation that the search comes to has as many sides as the first one
(`Search.Sized`), and it is analysed before a strategy is tried on it. So if faults are passed over, a refusal can only
end the search because an isolation step needs two sides.

* `Search.gives_expand_sized`: expanding a node keeps the number of sides.
* `Search.fails_expand_refusal`: the refusals that end the search.
-/

namespace Isolate

/-! ## Parts that never refuse -/

theorem Graph.neverRefuses_get (g : Graph) (i : Int) : NeverRefuses (g.get i) := by
  unfold get
  split
  · unfold GraphNode.held
    split
    · exact neverRefuses_ok _
    · exact neverRefuses_error rfl
  · exact neverRefuses_error rfl

theorem Graph.neverRefuses_addPath (g : Graph) (q : Equation) (conditions : List String) (i : Int) :
    NeverRefuses (g.addPath q conditions i) := by
  unfold addPath
  split
  · exact neverRefuses_ok _
  · exact neverRefuses_error rfl

theorem Graph.neverRefuses_set (g : Graph) (i : Int) (q : Equation) : NeverRefuses (g.set i q) := by
  unfold set
  split
  · exact neverRefuses_ok _
  · exact neverRefuses_error rfl

theorem Equation.neverRefuses_settle (mode : MatchMode) (limit : Int) (fuel round : Nat) (q : Equation) :
    NeverRefuses (settle usualPasses mode limit fuel round q).2 := by
  induction fuel generalizing round q with
  | zero => exact neverRefuses_error rfl
  | succ fuel ih =>
    rw [settle_succ]
    split
    · exact neverRefuses_ok _
    · exact ih _ _

namespace Search

variable {task : Task} {strategy : Strategy} {strategies : List Strategy} {s s' : SearchState} {q : Equation}
  {fault : Fault} {i : Int} {n levels : Nat} {g g' : Graph} {b b₀ : Branches}

/-! ## Lists of nodes -/

section Lists

variable {f : α → Search β} {P : SearchState → Prop} {xs : List α} {ys : List β}

/-- What one part after the other keeps. -/
theorem gives_mapM_invariant (hf : ∀ x s y s', P s → Gives (f x) s y s' → P s') (hs : P s)
    (h : Gives (xs.mapM f) s ys s') : P s' := by
  induction xs generalizing s ys with
  | nil =>
    obtain ⟨rfl, rfl⟩ := gives_mapM_nil.mp h
    exact hs
  | cons x xs ih =>
    obtain ⟨y, m, zs, hx, hxs, rfl⟩ := gives_mapM_cons.mp h
    exact ih (hf x s y m hs hx) hxs

/-- One part after the other fails where one of them fails. -/
theorem fails_mapM (hf : ∀ x s y s', P s → Gives (f x) s y s' → P s') (hs : P s) (h : Fails (xs.mapM f) s fault) :
    ∃ x m, P m ∧ Fails (f x) m fault := by
  induction xs generalizing s with
  | nil => exact absurd h not_fails_pure
  | cons x xs ih =>
    rcases fails_mapM_cons.mp h with h | ⟨y, m, hx, h⟩
    · exact ⟨x, s, hs, h⟩
    · exact ih (hf x s y m hs hx) h

end Lists

/-! ## The number of sides -/

/-- The graph is a tree, and all its equations have that many sides. -/
structure Sized (n : Nat) (g : Graph) : Prop where
  isTree : ∃ parents, g.HasParents parents
  length_eq : ∀ i q, g.get i = .ok q → q.sides.length = n

theorem Sized.single (q : Equation) : Sized q.sides.length (Graph.single q).1 := by
  refine ⟨⟨[], .single q⟩, fun i r h => ?_⟩
  have hnode : (Graph.single q).1.node? i = if i = 0 then some ⟨0, some q, []⟩ else none :=
    Graph.node?_put (g := Graph.empty) rfl q i
  rw [Graph.get, hnode] at h
  by_cases hi : i = 0
  · rw [if_pos hi] at h
    cases h
    rfl
  · rw [if_neg hi] at h
    cases h

theorem Sized.addPath {conditions : List String} {child : Int} (h : Sized n g) (hq : q.sides.length = n)
    (hadd : g.addPath q conditions i = .ok (g', child)) : Sized n g' := by
  obtain ⟨⟨parents, hparents⟩, hlength⟩ := h
  refine ⟨⟨_, (hparents.addPath hadd).2⟩, fun j r hr => ?_⟩
  rw [Graph.get_addPath hparents.contains_next hadd] at hr
  by_cases hj : j = child
  · rw [if_pos hj] at hr
    cases hr
    exact hq
  · rw [if_neg hj] at hr
    exact hlength j r hr

theorem Sized.set (h : Sized n g) (hq : q.sides.length = n) (hset : g.set i q = .ok g') : Sized n g' := by
  obtain ⟨⟨parents, hparents⟩, hlength⟩ := h
  refine ⟨⟨parents, hparents.set hset⟩, fun j r hr => ?_⟩
  rw [Graph.get_set hset] at hr
  by_cases hj : j = i
  · rw [if_pos hj] at hr
    cases hr
    exact hq
  · rw [if_neg hj] at hr
    exact hlength j r hr

theorem Branching.sized {r : Equation} (h : Branching task strategy i g r b g') (hs : Sized n g) (hr : r.analyze = r)
    (hlen : r.sides.length = n) : Sized n g' := by
  cases h with
  | stuck => exact hs
  | leaf htries hadd => exact hs.addPath ((htries.length_eq hr).trans hlen) hadd
  | step htries hadd => exact hs.addPath ((htries.length_eq hr).trans hlen) hadd

theorem gives_branch_sized (hs : Sized n s.graph) (hb : b₀.equation.sides.length = n)
    (h : Gives (branch task i strategies b₀) s b s') : Sized n s'.graph ∧ b.equation.sides.length = n := by
  induction strategies generalizing s b₀ with
  | nil =>
    obtain ⟨rfl, rfl⟩ := gives_pure.mp h
    exact ⟨hs, hb⟩
  | cons strategy rest ih =>
    obtain ⟨r, b₁, m, hsettles, hbranching, h⟩ := gives_branch_cons h
    have hlen := hsettles.length_eq.trans hb
    exact ih (hbranching.sized hs hsettles.analyze_eq hlen) hlen h

/-- **Expanding a node keeps the number of sides.** -/
theorem gives_expand_sized {leaves : List Int} (hs : Sized n s.graph)
    (h : Gives (expand task levels i) s leaves s') : Sized n s'.graph := by
  induction levels generalizing s i leaves s' with
  | zero => exact absurd h not_gives_throw
  | succ levels ih =>
    obtain ⟨q, b, m, m', below, hget, hbranch, hbelow, hset, -⟩ := gives_expand_levels h
    obtain ⟨hm, hlen⟩ := gives_branch_sized hs (hs.length_eq i q hget) hbranch
    have hm' := gives_mapM_invariant (P := fun s => Sized n s.graph) (fun _ _ _ _ hs h => ih hs h) hm hbelow
    exact hm'.set hlen hset

/-! ## Refusals -/

/-- **What a strategy is refused for** at an analysed equation, if faults are passed over: the number of the sides. -/
theorem Refuses.sideCount (h : Refuses task strategy q fault) (hskip : task.config.onUnsupported = .skip)
    (hq : q.analyze = q) (hrefusal : fault.isRefusal = true) :
    strategy = .applyInverse ∧ q.sides.length ≠ 2 ∧ fault = .sideCount q.sides.length := by
  cases strategy with
  | flatten => cases h.1
  | simplify =>
    have hfault := h.1
    rw [Strategy.apply, ← hq, Equation.simplify_analyze] at hfault
    cases hfault
  | applyInverse =>
    rcases Equation.applyInverse_refusal hq h.eq_error hrefusal with hskippable | hcount
    · rw [h.2 hskippable] at hskip
      cases hskip
    · exact ⟨rfl, hcount⟩

theorem fails_branch_refusal (hskip : task.config.onUnsupported = .skip) (hb : b₀.equation.sides.length = n)
    (h : Fails (branch task i strategies b₀) s fault) (hrefusal : fault.isRefusal = true) :
    .applyInverse ∈ strategies ∧ n ≠ 2 ∧ fault = .sideCount n := by
  induction strategies generalizing s b₀ with
  | nil => exact absurd h not_fails_pure
  | cons strategy rest ih =>
    rcases fails_branch_cons h with h | ⟨r, hsettles, h | ⟨c, conditions, hadd⟩ | ⟨b₁, m, -, h⟩⟩
    · cases hrefusal.symm.trans (Equation.neverRefuses_settle _ _ _ _ _ fault h)
    · obtain ⟨rfl, hcount⟩ := h.sideCount hskip hsettles.analyze_eq hrefusal
      rw [hsettles.length_eq, hb] at hcount
      exact ⟨List.mem_cons_self, hcount⟩
    · cases hrefusal.symm.trans (Graph.neverRefuses_addPath _ _ _ _ fault hadd)
    · obtain ⟨hmem, hcount⟩ := ih (hsettles.length_eq.trans hb) h
      exact ⟨List.mem_cons_of_mem _ hmem, hcount⟩

/-- **The refusals that end the search**, if faults are passed over: an isolation step needs two sides. -/
theorem fails_expand_refusal (hskip : task.config.onUnsupported = .skip) (hs : Sized n s.graph)
    (h : Fails (expand task levels i) s fault) (hrefusal : fault.isRefusal = true) :
    .applyInverse ∈ task.strategies ∧ n ≠ 2 ∧ fault = .sideCount n := by
  induction levels generalizing s i with
  | zero =>
    rw [← fails_throw.mp h] at hrefusal
    cases hrefusal
  | succ levels ih =>
    rcases fails_expand_levels h with h | ⟨q, hget, h | ⟨b, m, hbranch, h | ⟨below, m', -, h⟩⟩⟩
    · cases hrefusal.symm.trans (Graph.neverRefuses_get _ _ fault h)
    · exact fails_branch_refusal hskip (hs.length_eq i q hget) h hrefusal
    · obtain ⟨hm, -⟩ := gives_branch_sized hs (hs.length_eq i q hget) hbranch
      obtain ⟨j, m', hm', h⟩ := fails_mapM (P := fun s => Sized n s.graph)
        (fun _ _ _ _ hs h => gives_expand_sized hs h) hm h
      exact ih hm' h
    · cases hrefusal.symm.trans (Graph.neverRefuses_set _ _ _ fault h)

end Search

end Isolate
