import Isolate.Proofs.Solving.Growth
import Isolate.Proofs.Solving.Refusals

/-!
# Passing over faults

Where a strategy fails at a node and the fault is passed over, the search puts the equation of the node below it, and as
an equation is like itself, that is a leaf (`Search.Branching.skips`). All strategies are tried on the same equation,
since a normal form is normalised to itself (`Search.gives_branch_equation`). What is done elsewhere later changes
nothing of this, so it can be read from the solved graph.

* `Graph.PassesOver`: below a node at which a strategy fails, there is a leaf with the same equation.
* `Search.gives_expand_passes`: expanding a node passes over faults there and at the nodes below.
* `Equation.solve_skips`: which refusals end a search that passes faults over, and what it makes of the others.
-/

namespace Isolate

/-- The strategy can be tried on an equation, but fails. -/
def Strategy.FailsAt (task : Search.Task) (q : Equation) (strategy : Strategy) : Prop :=
  strategy.isApplicable q = true ∧ ∃ fault, (strategy.apply task.config task.target q).outcome = .error fault

namespace Graph

/-- If the strategy fails at the equation, the equation is normal, and right below the node `i`, on no conditions, is a
leaf with the same equation. -/
def Skips (task : Search.Task) (leaves : List Int) (g : Graph) (i : Int) (r : Equation) (strategy : Strategy) : Prop :=
  strategy.FailsAt task r →
    r.normalize Equation.usualPasses task.config.mode task.config.maxRounds = (r, .ok 1) ∧
      ∃ leaf ∈ leaves, g.conditions i leaf = .ok [] ∧ g.get leaf = .ok r

/-- Whatever strategy fails at a node, right below is a leaf with the same normal equation. -/
def PassesOver (task : Search.Task) (leaves : List Int) (g : Graph) (i : Int) : Prop :=
  ∃ r, g.get i = .ok r ∧ ∀ strategy ∈ task.strategies, g.Skips task leaves i r strategy

variable {task : Search.Task} {strategy : Strategy} {g g' : Graph} {r : Equation} {is leaves leaves' : List Int} {i : Int}

/-- What is done to other nodes than the leaves changes nothing of this. -/
theorem Skips.frame (h : g.Skips task leaves i r strategy) (hframe : Frame is g g') (hi : g.contains i = true)
    (hleaves : ∀ j ∈ leaves, j ∉ is) (hsub : leaves ⊆ leaves') : g'.Skips task leaves' i r strategy := by
  intro hfails
  obtain ⟨hnormal, leaf, hleaf, hconditions, hget⟩ := h hfails
  have hmem := contains_of_get hget
  refine ⟨hnormal, leaf, hsub hleaf, ?_, ?_⟩
  · rw [hframe.conditions_eq i leaf hi hmem, hconditions]
  · rw [hframe.get_eq leaf hmem (hleaves leaf hleaf), hget]

theorem PassesOver.frame (h : g.PassesOver task leaves i) (hframe : Frame is g g') (hi : i ∉ is)
    (hleaves : ∀ j ∈ leaves, j ∉ is) (hsub : leaves ⊆ leaves') : g'.PassesOver task leaves' i := by
  obtain ⟨r, hget, hskips⟩ := h
  have hmem := contains_of_get hget
  exact ⟨r, by rw [hframe.get_eq i hmem hi, hget], fun strategy hs => (hskips strategy hs).frame hframe hmem hleaves hsub⟩

/-- More leaves do not matter. -/
theorem PassesOver.mono (h : g.PassesOver task leaves i) (hsub : leaves ⊆ leaves') : g.PassesOver task leaves' i :=
  h.frame (.refl [] g) List.not_mem_nil (fun _ _ => List.not_mem_nil) hsub

end Graph

open Isolate.Graph (Frame HasParents)

namespace Search

variable {task : Task} {strategy : Strategy} {strategies : List Strategy} {s s' : SearchState} {q r c : Equation}
  {g g' g'' : Graph} {b b₀ b₁ : Branches} {parents more is leaves leaves' : List Int} {i : Int} {levels : Nat}

/-! ## A node -/

theorem Branching.frame (h : Branching task strategy i g r b g') (hg : g.HasParents parents) :
    Frame [] g g' ∧ ∃ parents', g'.HasParents parents' := by
  cases h with
  | stuck => exact ⟨.refl [] g, parents, hg⟩
  | leaf htries hadd => exact ⟨.addPath hg.contains_next hadd, _, (hg.addPath hadd).2⟩
  | step htries hadd => exact ⟨.addPath hg.contains_next hadd, _, (hg.addPath hadd).2⟩

/-- Trying strategies changes nothing that was there. -/
theorem gives_branch_frame (hg : s.graph.HasParents parents) (h : Gives (branch task i strategies b₀) s b s') :
    Frame [] s.graph s'.graph ∧ b₀.leaves ⊆ b.leaves := by
  induction strategies generalizing s b₀ parents with
  | nil =>
    obtain ⟨rfl, rfl⟩ := gives_pure.mp h
    exact ⟨.refl [] _, List.Subset.refl _⟩
  | cons strategy rest ih =>
    obtain ⟨r, b₁, m, -, hbranching, h⟩ := gives_branch_cons h
    obtain ⟨hframe, parents', hm⟩ := hbranching.frame hg
    obtain ⟨hframe', hleaves⟩ := ih hm h
    exact ⟨hframe.trans hframe' fun _ _ hj => ⟨hj, hj⟩, fun j hj => hleaves (List.mem_append_left _ hj)⟩

/-- A normal form is there for all strategies. -/
theorem gives_branch_equation (hmode : task.config.mode = .bijective) (hb : b₀.equation.tidy = b₀.equation)
    (h : Gives (branch task i strategies b₀) s b s') : b.equation = b₀.equation := by
  induction strategies generalizing s b₀ with
  | nil =>
    obtain ⟨rfl, rfl⟩ := gives_pure.mp h
    rfl
  | cons strategy rest ih =>
    obtain ⟨r, b₁, m, hsettles, -, h⟩ := gives_branch_cons h
    obtain rfl := hsettles.eq_self hb hmode
    have hkept := fun htidy => ih htidy h
    exact hkept hb

/-- Where a strategy fails, what comes of it is the equation itself. -/
theorem Tries.eq_of_failsAt {conditions : List String} (h : Tries task strategy q c conditions)
    (hfails : strategy.FailsAt task q) : c = q ∧ conditions = [] := by
  obtain ⟨-, fault, hfault⟩ := hfails
  cases h with
  | made hmade =>
    rw [hmade] at hfault
    cases hfault
  | skipped => exact ⟨rfl, rfl⟩

/-- **A strategy that fails makes a leaf** with the same equation. -/
theorem Branching.skips (h : Branching task strategy i g r b g') (hg : g.HasParents parents)
    (hmode : task.config.mode = .bijective) (hrounds : 1 ≤ task.config.maxRounds) (hr : r.tidy = r) :
    g'.Skips task b.leaves i r strategy := by
  intro hfails
  refine ⟨by rw [hmode, Equation.normalize_of_tidy hr hrounds], ?_⟩
  cases h with
  | stuck hstuck =>
    rw [hfails.1] at hstuck
    cases hstuck
  | @leaf c conditions child _ htries hadd =>
    obtain ⟨rfl, rfl⟩ := htries.eq_of_failsAt hfails
    refine ⟨child, List.mem_singleton_self child, Graph.conditions_addPath hg.contains_next hadd, ?_⟩
    rw [Graph.get_addPath hg.contains_next hadd, if_pos rfl]
  | step htries hadd hnew =>
    obtain ⟨rfl, rfl⟩ := htries.eq_of_failsAt hfails
    rw [hmode, Equation.isLike_self] at hnew
    cases hnew

/-- **Every strategy that fails at a node makes a leaf.** -/
theorem gives_branch_skips (hmode : task.config.mode = .bijective) (hg : s.graph.HasParents parents)
    (hi : s.graph.contains i = true) (h : Gives (branch task i strategies b₀) s b s') :
    ∀ strategy ∈ strategies, s'.graph.Skips task b.leaves i b.equation strategy := by
  induction strategies generalizing s b₀ parents with
  | nil => exact List.forall_mem_nil _
  | cons strategy rest ih =>
    obtain ⟨r, b₁, m, hsettles, hbranching, h⟩ := gives_branch_cons h
    obtain ⟨hframe, parents', hm⟩ := hbranching.frame hg
    have hi' := hframe.contains_of i hi
    have htidy := hsettles.tidy_eq hmode
    refine List.forall_mem_cons.mpr ⟨?_, ih hm hi' h⟩
    obtain ⟨hframe', hleaves⟩ := gives_branch_frame hm h
    rw [gives_branch_equation hmode htidy h]
    exact (hbranching.skips hg hmode hsettles.one_le_maxRounds htidy).frame hframe' hi' (fun _ _ => List.not_mem_nil)
      (List.append_subset.mp hleaves).2

/-! ## Expanding -/

/-- Nodes have been expanded: nothing else has changed, and they and the new nodes, leaves apart, pass over faults. -/
structure Passes (task : Task) (parents is leaves : List Int) (g g' : Graph) : Prop where
  frame : Frame is g g'
  passes : ∀ j, g'.contains j = true → j ∈ is ∨ parents.length < j ∧ j ∉ leaves → g'.PassesOver task leaves j

theorem Passes.nil (h : g.HasParents parents) : Passes task parents [] [] g g := by
  refine ⟨.refl [] g, fun j hj hwhich => ?_⟩
  have := h.contains_iff.mp hj
  rcases hwhich with hmem | ⟨hlt, -⟩
  · cases hmem
  · omega

/-- A first node has been expanded, and then others. -/
theorem Passes.cons (h : Passes task parents [i] leaves g g') (h' : Passes task (parents ++ more) is leaves' g' g'')
    (hg : g'.HasParents (parents ++ more)) (hgrows : Grows parents more [i] levels leaves)
    (hi : 0 ≤ i ∧ i ≤ parents.length) (hin : ∀ j ∈ is, 0 ≤ j ∧ j ≤ parents.length) (hnot : i ∉ is) :
    Passes task parents (i :: is) (leaves ++ leaves') g g'' := by
  have hlen : ((parents ++ more).length : Int) = parents.length + more.length := by
    rw [List.length_append, Int.natCast_add]
  have hleaves : ∀ j ∈ leaves, j ∉ is := by
    intro j hj hmem
    have := hin j hmem
    rcases ((hgrows.mem_iff j).mp hj).1 with hj | hj
    · exact hnot (List.mem_singleton.mp hj ▸ hmem)
    · omega
  refine ⟨h.frame.trans h'.frame fun j _ hj => ?_, fun j hj hwhich => ?_⟩
  · rw [List.mem_singleton, ← not_or, ← List.mem_cons]
    exact hj
  rw [List.mem_append, List.mem_cons] at hwhich
  by_cases hlater : j ∈ is ∨ (parents ++ more).length < j
  · refine (h'.passes j hj (hlater.imp_right fun hlt => ⟨hlt, ?_⟩)).mono (List.subset_append_right _ _)
    rcases hwhich with (rfl | hmem) | ⟨-, hnone⟩
    · omega
    · have := hin j hmem
      omega
    · exact fun hmem => hnone (.inr hmem)
  · -- what comes later leaves the node alone
    obtain ⟨hjis, hle⟩ := not_or.mp hlater
    have hfirst : 0 ≤ j ∧ (j ∈ [i] ∨ parents.length < j ∧ j ∉ leaves) := by
      rcases hwhich with (rfl | hmem) | ⟨hlt, hnone⟩
      · exact ⟨hi.1, .inl (List.mem_singleton_self j)⟩
      · exact absurd hmem hjis
      · exact ⟨by omega, .inr ⟨hlt, fun hmem => hnone (.inl hmem)⟩⟩
    have hmem := hg.contains_iff.mpr ⟨hfirst.1, not_lt.mp hle⟩
    exact (h.passes j hmem hfirst.2).frame h'.frame hjis hleaves (List.subset_append_left _ _)

section Node

variable {marked here below : List Int} {count : Nat} {r : Equation} (hnodup : (leaves ++ marked).Nodup)
  (hmem : ∀ j, j ∈ leaves ++ marked ↔ parents.length < j ∧ j ≤ parents.length + count)
include hnodup hmem

/-- The marked nodes have been expanded, and then the node above gets the equation at which strategies failed. -/
theorem Passes.node {g₁ g₂ : Graph}
    (h : Passes task (parents ++ List.replicate count i) marked below g₁ g₂)
    (hgrows : Grows (parents ++ List.replicate count i) more marked levels below) (hg : g.HasParents parents)
    (hi : 0 ≤ i ∧ i ≤ parents.length) (hframe : Frame [] g g₁)
    (hskips : ∀ strategy ∈ task.strategies, g₁.Skips task leaves i r strategy) (hset : g₂.set i r = .ok g')
    (hhere : leaves ⊆ here) : Passes task parents [i] (here ++ below) g g' := by
  have hlen : ((parents ++ List.replicate count i).length : Int) = parents.length + count := by
    rw [List.length_append, List.length_replicate, Int.natCast_add]
  have hmarked : ∀ j ∈ marked, parents.length < j := fun j hj => ((hmem j).mp (List.mem_append_right _ hj)).1
  have hleaf : ∀ j ∈ leaves, parents.length < j := fun j hj => ((hmem j).mp (List.mem_append_left _ hj)).1
  have hframe' : Frame (i :: marked) g₁ g' := by
    refine h.frame.trans (.set hset) fun j _ hj => ?_
    rw [List.mem_singleton, and_comm, ← not_or, ← List.mem_cons]
    exact hj
  refine ⟨hframe.trans hframe' fun j hj hne => ⟨List.not_mem_nil, ?_⟩, fun j hj hwhich => ?_⟩
  · rw [List.mem_cons, not_or]
    refine ⟨List.mem_singleton.not.mp hne, fun hin => ?_⟩
    have := hmarked j hin
    have := hg.contains_iff.mp hj
    omega
  rw [List.mem_singleton, List.mem_append] at hwhich
  by_cases hji : j = i
  · subst hji
    refine ⟨r, by rw [Graph.get_set hset, if_pos rfl], fun strategy hs => ?_⟩
    have hmem₁ := hframe.contains_of j (hg.contains_iff.mpr hi)
    refine (hskips strategy hs).frame hframe' hmem₁ (fun l hl => ?_) fun l hl => List.mem_append_left _ (hhere hl)
    rw [List.mem_cons, not_or]
    have := hleaf l hl
    exact ⟨by omega, fun hin => (List.nodup_append.mp hnodup).2.2 l hl l hin rfl⟩
  · obtain ⟨hlt, hnone⟩ := hwhich.resolve_left hji
    rw [Graph.contains_set hset] at hj
    have hwhich : j ∈ marked ∨ (parents ++ List.replicate count i).length < j ∧ j ∉ below := by
      by_cases hle : j ≤ parents.length + count
      · rcases List.mem_append.mp ((hmem j).mpr ⟨hlt, hle⟩) with hj | hj
        · exact absurd (.inl (hhere hj)) hnone
        · exact .inl hj
      · exact .inr ⟨by omega, fun hin => hnone (.inr hin)⟩
    refine (h.passes j hj hwhich).frame (.set hset) (List.mem_singleton.not.mpr hji) (fun l hl => ?_)
      (List.subset_append_right _ _)
    have hnew : parents.length < l := by
      rcases ((hgrows.mem_iff l).mp hl).1 with hl | hl
      · exact hmarked l hl
      · omega
    rw [List.mem_singleton]
    omega

end Node

/-- Expanding any node of a tree to that many levels passes over faults. -/
def ExpandPasses (task : Task) (levels : Nat) : Prop :=
  ∀ {s s' : SearchState} {parents : List Int} {i : Int} {leaves : List Int}, s.graph.HasParents parents →
    0 ≤ i ∧ i ≤ parents.length → Gives (expand task levels i) s leaves s' →
    Passes task parents [i] leaves s.graph s'.graph

theorem gives_mapM_passes (hexpand : ExpandPasses task levels) {below : List (List Int)} (h : s.graph.HasParents parents)
    (hin : ∀ j ∈ is, 0 ≤ j ∧ j ≤ parents.length) (hnodup : is.Nodup)
    (hrun : Gives (is.mapM (expand task levels)) s below s') :
    Passes task parents is below.flatten s.graph s'.graph := by
  induction is generalizing s below parents with
  | nil =>
    obtain ⟨rfl, rfl⟩ := gives_mapM_nil.mp hrun
    exact .nil h
  | cons i is ih =>
    obtain ⟨first, m, rest, hfirst, hrest, rfl⟩ := gives_mapM_cons.mp hrun
    obtain ⟨hi, hin⟩ := List.forall_mem_cons.mp hin
    obtain ⟨hnot, hnodup⟩ := List.nodup_cons.mp hnodup
    obtain ⟨more, h₁, hgrows⟩ := gives_expand_grows task levels h hi hfirst
    exact (hexpand h hi hfirst).cons (ih h₁ (mem_range_append hin more) hnodup hrest) h₁ hgrows hi hin hnot

/-- **Expanding a node passes over faults** at the node and at the nodes below. -/
theorem gives_expand_passes (hmode : task.config.mode = .bijective) (levels : Nat) : ExpandPasses task levels := by
  induction levels with
  | zero =>
    intro s s' parents i leaves _ _ hrun
    exact absurd hrun not_gives_throw
  | succ levels ih =>
    intro s s' parents i leaves h hi hrun
    obtain ⟨q, b, m, m', below, -, hbranch, hbelow, hset, rfl⟩ := gives_expand_levels hrun
    obtain ⟨count, h₁, hnodup, hmem⟩ := gives_branch_branched (branched_nil h q) hbranch
    have hin := mem_range_of_marked (i := i) hmem
    have hmarked := (List.nodup_append.mp hnodup).2.1
    obtain ⟨more, -, hgrows⟩ := gives_mapM_expand (gives_expand_grows task levels) h₁ hin hmarked hbelow
    obtain ⟨hframe, -⟩ := gives_branch_frame h hbranch
    have hskips := gives_branch_skips hmode h (h.contains_iff.mpr hi) hbranch
    refine (gives_mapM_passes ih h₁ hin hmarked hbelow).node hnodup hmem hgrows h hi hframe hskips hset ?_
    split
    · rename_i hnone
      rw [List.isEmpty_iff.mp (Bool.and_eq_true_iff.mp hnone).1]
      exact List.nil_subset _
    · exact List.Subset.refl _

end Search

/-! ## Solving -/

namespace Equation

/-- **A search that passes faults over** is refused by nothing but an isolation step at an equation that has not two
sides, whatever strategies it tries. If items are matched one by one, every node that it has expanded passes over
faults: where a strategy fails, a leaf right below has the same normal equation, on no conditions. -/
theorem solve_skips {task : Search.Task} {q : Equation} (hskip : task.config.onUnsupported = .skip) :
    (∀ fault, (q.solve task).1 = .error fault → fault.isRefusal = true →
      .applyInverse ∈ task.strategies ∧ q.sides.length ≠ 2 ∧ fault = .sideCount q.sides.length) ∧
    (task.config.mode = .bijective → ∀ s, (q.solve task).1 = .ok s → ∀ i, s.graph.contains i = true →
      i = s.root ∨ i ∉ s.leaves → s.graph.PassesOver task s.leaves i) := by
  constructor
  · intro fault h hrefusal
    exact Search.fails_expand_refusal hskip (.single q) (fails_of_solve h) hrefusal
  · intro hmode s h i hi hexpanded
    obtain ⟨m, hrun, hs⟩ := gives_of_solve h
    have hpasses := Search.gives_expand_passes hmode _ (HasParents.single q) ⟨le_rfl, le_rfl⟩ hrun
    have hroot : s.root = 0 := by rw [hs]
    have hgraph : s.graph = m.graph := by rw [hs]
    obtain ⟨parents, hparents, -⟩ := Search.gives_expand_grows task _ (HasParents.single q) ⟨le_rfl, le_rfl⟩ hrun
    rw [hgraph] at hi ⊢
    have hle := (hparents.contains_iff.mp hi).1
    refine hpasses.passes i hi ?_
    rw [List.mem_singleton]
    rcases hle.eq_or_lt with rfl | hlt
    · exact .inl rfl
    · exact .inr ⟨hlt, hexpanded.resolve_left (by omega)⟩

theorem solve_skips_binaryCall : ∃ s, (binaryCall.solve ⟨[.simplify, .applyInverse], skipping, none⟩).1 = .ok s ∧
    s.leaves = [1, 3, 4] ∧ ∀ i, s.graph.contains i = true → i = s.root ∨ i ∉ s.leaves →
      s.graph.PassesOver ⟨[.simplify, .applyInverse], skipping, none⟩ s.leaves i := by
  have hrun : (binaryCall.solve ⟨[.simplify, .applyInverse], skipping, none⟩).1.map (·.leaves) = .ok [1, 3, 4] := by cbv
  cases hs : (binaryCall.solve ⟨[.simplify, .applyInverse], skipping, none⟩).1 with
  | error fault =>
    rw [hs] at hrun
    cases hrun
  | ok s =>
    rw [hs] at hrun
    exact ⟨s, rfl, Except.ok.inj hrun, (solve_skips rfl).2 rfl s hs⟩

/-- The equation `x = y = 2` of three sides. -/
def threeSides : Equation := ⟨[.var "x", .var "y", .number 2]⟩

/-- An equation of three sides is refused, although faults are passed over. -/
theorem solve_threeSides_refused : skipping.onUnsupported = .skip ∧
    (threeSides.solve ⟨[.applyInverse], skipping, none⟩).1 = .error (.sideCount 3) ∧
      (Fault.sideCount 3).isRefusal = true := by
  have hrun : (threeSides.solve ⟨[.applyInverse], skipping, none⟩).1 = .error (.sideCount 3) := by cbv
  exact ⟨rfl, hrun, rfl⟩

end Equation

end Isolate
