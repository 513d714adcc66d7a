import Isolate.Proofs.Solving.Run
import Isolate.Proofs.Solving.Skeleton
import Mathlib

/-!
# The search grows a tree

Whatever strategies are tried, the search adds nodes below the one that it expands, and below those that it has marked
there (`Search.Grows`). What is below one marked node does not touch what is below another, so the leaves that are
collected are the nodes that nothing has been added to, each of them once.

* `Search.gives_branch_branched`: trying strategies at a node adds nodes right below it, leaves and marked ones.
* `Search.gives_expand_grows`: what expanding a node adds, and how deep.
* `Equation.solve_isTree`: a solved graph is a tree, its leaves are the nodes without nodes below, and it is not deeper
  than the configuration allows.
-/

namespace Isolate

open Isolate.Graph (HasParents Descends)

namespace Search

variable {task : Task} {strategy : Strategy} {s s' : SearchState} {g g' : Graph} {b b₁ : Branches}
  {parents more : List Int} {i : Int} {leaves : List Int} {levels : Nat}

/-! ## Strategies at a node -/

/-- Below the node `i` have been added a number of nodes, and each of them has been put once among the leaves or the
marked nodes. -/
def Branched (parents : List Int) (i : Int) (g : Graph) (b : Branches) : Prop :=
  ∃ count, g.HasParents (parents ++ List.replicate count i) ∧ (b.leaves ++ b.marked).Nodup ∧
    ∀ j, j ∈ b.leaves ++ b.marked ↔ parents.length < j ∧ j ≤ parents.length + count

theorem branched_nil (h : g.HasParents parents) (q : Equation) : Branched parents i g ⟨q, [], []⟩ := by
  refine ⟨0, ?_, List.nodup_nil, fun j => ?_⟩
  · rwa [List.replicate_zero, List.append_nil]
  · simp only [List.append_nil, List.not_mem_nil, false_iff]
    omega

/-- A node is added, and put where the other nodes are. -/
theorem Branched.addPath {c r : Equation} {conditions : List String} {child : Int} {marked : List Int}
    (h : Branched parents i g b) (hadd : g.addPath c conditions i = .ok (g', child))
    (hput : (leaves ++ marked).Perm (child :: (b.leaves ++ b.marked))) : Branched parents i g' ⟨r, leaves, marked⟩ := by
  obtain ⟨count, hparents, hnodup, hmem⟩ := h
  obtain ⟨hchild, hparents'⟩ := hparents.addPath hadd
  rw [List.length_append, List.length_replicate, Int.natCast_add] at hchild
  refine ⟨count + 1, ?_, ?_, fun j => ?_⟩
  · rwa [List.replicate_succ', ← List.append_assoc]
  · refine hput.nodup_iff.mpr (List.nodup_cons.mpr ⟨fun hold => ?_, hnodup⟩)
    have := (hmem child).mp hold
    omega
  · rw [hput.mem_iff, List.mem_cons, hmem j]
    omega

theorem Branching.branched {r : Equation} (h : Branching task strategy i g r b₁ g') (hb : Branched parents i g b) :
    Branched parents i g' ⟨r, b.leaves ++ b₁.leaves, b.marked ++ b₁.marked⟩ := by
  cases h with
  | stuck =>
    rw [List.append_nil, List.append_nil]
    exact hb
  | leaf htries hadd hlike =>
    refine hb.addPath hadd ?_
    rw [List.append_nil, List.append_assoc]
    exact List.perm_middle
  | step htries hadd hnew =>
    refine hb.addPath hadd ?_
    rw [List.append_nil, ← List.append_assoc]
    exact List.perm_append_singleton _ _

/-- **Trying strategies adds nodes right below a node**, leaves and marked ones. -/
theorem gives_branch_branched {strategies : List Strategy} (hb : Branched parents i s.graph b)
    (h : Gives (branch task i strategies b) s b₁ s') : Branched parents i s'.graph b₁ := by
  induction strategies generalizing s b with
  | nil =>
    obtain ⟨rfl, rfl⟩ := gives_pure.mp h
    exact hb
  | cons strategy rest ih =>
    obtain ⟨r, b', m, -, hbranching, h⟩ := gives_branch_cons h
    exact ih (hbranching.branched hb) h

/-! ## What expanding adds -/

/-- Nodes have been added to a tree, below nodes of the list `is` and below each other, not more than `levels` deep. The
leaves are the nodes of the list, and those that have been added, to which nothing has been added, each of them once. -/
structure Grows (parents more is : List Int) (levels : Nat) (leaves : List Int) : Prop where
  below : ∀ p ∈ more, p ∈ is ∨ parents.length < p
  nodup : leaves.Nodup
  mem_iff : ∀ j, j ∈ leaves ↔ (j ∈ is ∨ parents.length < j ∧ j ≤ (parents ++ more).length) ∧ j ∉ more
  depth : ∀ j : Int, parents.length < j → j ≤ (parents ++ more).length →
    ∃ i ∈ is, ∃ d ≤ levels, Descends (parents ++ more) i j d

theorem grows_nil (parents : List Int) (levels : Nat) : Grows parents [] [] levels [] := by
  refine ⟨List.forall_mem_nil _, List.nodup_nil, fun j => ?_, fun j hlt hle => ?_⟩
  · simp only [List.append_nil, List.not_mem_nil, not_false_eq_true, and_true, false_or, false_iff]
    omega
  · rw [List.append_nil] at hle
    omega

/-- Nothing is added later to a node of the first part. -/
theorem Grows.not_mem_later {more' is : List Int} {j : Int} (h : Grows (parents ++ more) more' is levels leaves)
    (hi : i ≤ parents.length) (his : ∀ j ∈ is, j ≤ parents.length) (hnot : i ∉ is)
    (hj : j = i ∨ parents.length < j ∧ j ≤ (parents ++ more).length) : j ∉ more' := by
  intro hmem
  rw [List.length_append, Int.natCast_add] at hj
  rcases h.below j hmem with hin | hlt
  · have := his j hin
    rcases hj with rfl | hj
    · exact hnot hin
    · omega
  · rw [List.length_append, Int.natCast_add] at hlt
    omega

/-- Nothing was added before to a node of the second part. -/
theorem Grows.not_mem_earlier {more' is : List Int} {j : Int} (h : Grows parents more [i] levels leaves)
    (hupward : Graph.IsUpward (parents ++ more ++ more')) (his : ∀ j ∈ is, j ≤ parents.length) (hnot : i ∉ is)
    (hj : j ∈ is ∨ (parents ++ more).length < j ∧ j ≤ (parents ++ more ++ more').length) : j ∉ more := by
  intro hmem
  obtain ⟨k, hk, hget⟩ := List.getElem_of_mem hmem
  have hget' : (parents ++ more ++ more')[parents.length + k]? = some j := by
    rw [List.getElem?_append_left (by rw [List.length_append]; omega), List.getElem?_append_right (by omega),
      Nat.add_sub_cancel_left, List.getElem?_eq_getElem hk, hget]
  have := hupward _ j hget'
  rcases hj with hin | hj
  · rcases h.below j hmem with hi | hlt
    · rw [List.mem_singleton.mp hi] at hin
      exact hnot hin
    · have := his j hin
      omega
  · rw [List.length_append, Int.natCast_add] at hj
    omega

/-- The leaves below a first node are none of those below the others. -/
theorem Grows.nodup_cons {more' is leaves' : List Int} (h : Grows parents more [i] levels leaves)
    (h' : Grows (parents ++ more) more' is levels leaves') (hi : i ≤ parents.length)
    (his : ∀ j ∈ is, j ≤ parents.length) (hnot : i ∉ is) : (leaves ++ leaves').Nodup := by
  have hlen : ((parents ++ more).length : Int) = parents.length + more.length := by
    rw [List.length_append, Int.natCast_add]
  refine List.nodup_append.mpr ⟨h.nodup, h'.nodup, fun a ha b hb hab => ?_⟩
  obtain ⟨ha, -⟩ := (h.mem_iff a).mp ha
  obtain ⟨hb, -⟩ := (h'.mem_iff b).mp hb
  rw [List.mem_singleton] at ha
  rcases hb with hb | hb
  · have := his b hb
    rcases ha with rfl | ha
    · exact hnot (hab ▸ hb)
    · omega
  · omega

theorem Grows.mem_cons_iff {more' is leaves' : List Int} (h : Grows parents more [i] levels leaves)
    (h' : Grows (parents ++ more) more' is levels leaves') (hupward : Graph.IsUpward (parents ++ more ++ more'))
    (hi : i ≤ parents.length) (his : ∀ j ∈ is, j ≤ parents.length) (hnot : i ∉ is) (j : Int) :
    j ∈ leaves ++ leaves' ↔
      (j ∈ i :: is ∨ parents.length < j ∧ j ≤ (parents ++ more ++ more').length) ∧ j ∉ more ++ more' := by
  have hlen : ((parents ++ more).length : Int) = parents.length + more.length := by
    rw [List.length_append, Int.natCast_add]
  have hlen' : ((parents ++ more ++ more').length : Int) = (parents ++ more).length + more'.length := by
    rw [List.length_append, Int.natCast_add]
  rw [List.mem_append, h.mem_iff, h'.mem_iff, List.mem_append, List.mem_singleton, List.mem_cons]
  constructor
  · rintro (⟨hj, hmem⟩ | ⟨hj, hmem⟩)
    · refine ⟨?_, not_or.mpr ⟨hmem, h'.not_mem_later hi his hnot hj⟩⟩
      omega
    · refine ⟨?_, not_or.mpr ⟨h.not_mem_earlier hupward his hnot hj, hmem⟩⟩
      rcases hj with hj | hj
      · exact .inl (.inr hj)
      · omega
  · rintro ⟨hj, hmem⟩
    obtain ⟨hmem, hmem'⟩ := not_or.mp hmem
    rcases hj with (hj | hj) | hj
    · exact .inl ⟨.inl hj, hmem⟩
    · exact .inr ⟨.inl hj, hmem'⟩
    · rcases le_or_gt j (parents ++ more).length with hle | hlt
      · exact .inl ⟨.inr ⟨hj.1, hle⟩, hmem⟩
      · exact .inr ⟨.inr ⟨hlt, hj.2⟩, hmem'⟩

/-- What has been added below a first node, and then below others. -/
theorem Grows.cons {more' is leaves' : List Int} (h : Grows parents more [i] levels leaves)
    (h' : Grows (parents ++ more) more' is levels leaves') (hupward : Graph.IsUpward (parents ++ more ++ more'))
    (hi : i ≤ parents.length) (his : ∀ j ∈ is, j ≤ parents.length) (hnot : i ∉ is) :
    Grows parents (more ++ more') (i :: is) levels (leaves ++ leaves') := by
  refine ⟨fun p hp => ?_, h.nodup_cons h' hi his hnot, fun j => ?_, fun j hlt hle => ?_⟩
  · rcases List.mem_append.mp hp with hp | hp
    · refine (h.below p hp).imp_left fun h => ?_
      rw [List.mem_singleton.mp h]
      exact List.mem_cons_self
    · refine (h'.below p hp).imp (List.mem_cons_of_mem _) fun h => ?_
      rw [List.length_append, Int.natCast_add] at h
      omega
  · rw [← List.append_assoc]
    exact h.mem_cons_iff h' hupward hi his hnot j
  · rw [← List.append_assoc] at hle ⊢
    rcases le_or_gt j (parents ++ more).length with hle' | hlt'
    · obtain ⟨i', hi', d, hd, hdown⟩ := h.depth j hlt hle'
      rw [List.mem_singleton.mp hi'] at hdown
      exact ⟨i, List.mem_cons_self, d, hd, hdown.append more'⟩
    · obtain ⟨i', hi', d, hd, hdown⟩ := h'.depth j hlt' hle
      exact ⟨i', List.mem_cons_of_mem _ hi', d, hd, hdown⟩

section Node

variable {marked here below : List Int} {count : Nat} {j : Int}

/-- Nodes that note the node `i` are right below it. -/
theorem descends_replicate (hlt : parents.length < j) (hle : j ≤ parents.length + count) :
    Descends (parents ++ List.replicate count i) i j 1 := by
  obtain ⟨k, rfl⟩ : ∃ k : Nat, j = k + 1 := ⟨(j - 1).toNat, by omega⟩
  refine .down .here ?_
  rw [List.getElem?_append_right (by omega), List.getElem?_replicate_of_lt (by omega)]

/-- The marked nodes are nodes of the tree that is there once all are added. -/
theorem mem_range_of_marked
    (hmem : ∀ j, j ∈ leaves ++ marked ↔ parents.length < j ∧ j ≤ parents.length + count) :
    ∀ j ∈ marked, 0 ≤ j ∧ j ≤ (parents ++ List.replicate count i).length := by
  intro j hj
  have := (hmem j).mp (List.mem_append_right _ hj)
  rw [List.length_append, List.length_replicate]
  omega

variable (hnodup : (leaves ++ marked).Nodup)
  (hmem : ∀ j, j ∈ leaves ++ marked ↔ parents.length < j ∧ j ≤ parents.length + count)
include hnodup hmem

/-- The node itself is a leaf if nothing has been added right below it. -/
theorem mem_here (hhere : here = if leaves.isEmpty && marked.isEmpty then [i] else leaves) :
    (∀ j, j ∈ here ↔ count = 0 ∧ j = i ∨ j ∈ leaves) ∧ here.Nodup := by
  have hempty : (leaves.isEmpty && marked.isEmpty) = true ↔ count = 0 := by
    rw [Bool.and_eq_true, List.isEmpty_iff, List.isEmpty_iff, ← List.append_eq_nil_iff, List.eq_nil_iff_forall_not_mem]
    constructor
    · intro hnone
      have := (hmem (parents.length + 1)).not.mp (hnone _)
      omega
    · intro hzero j hj
      have := (hmem j).mp hj
      omega
  rw [hhere]
  split
  · rename_i hnone
    obtain ⟨hnil, -⟩ := Bool.and_eq_true_iff.mp hnone
    rw [List.isEmpty_iff.mp hnil]
    exact ⟨fun j => by simp [hempty.mp hnone], List.nodup_singleton i⟩
  · rename_i hsome
    exact ⟨fun j => by simp [hempty.not.mp hsome], (List.nodup_append.mp hnodup).1⟩

/-- What is added below the marked nodes is not added to a leaf. -/
theorem Grows.not_mem_leaves (h : Grows (parents ++ List.replicate count i) more marked levels below) :
    ∀ p ∈ more, parents.length < p ∧ p ∉ leaves := by
  intro p hp
  rcases h.below p hp with hp | hlt
  · refine ⟨((hmem p).mp (List.mem_append_right _ hp)).1, fun hp' => ?_⟩
    exact (List.nodup_append.mp hnodup).2.2 p hp' p hp rfl
  · rw [List.length_append, List.length_replicate, Int.natCast_add] at hlt
    refine ⟨by omega, fun hp' => ?_⟩
    have := (hmem p).mp (List.mem_append_left _ hp')
    omega

section Below

variable (h : Grows (parents ++ List.replicate count i) more marked levels below)
include h

/-- What is below the marked nodes is neither the node itself nor a leaf. -/
theorem Grows.nodup_node (hi : i ≤ parents.length)
    (hhere : here = if leaves.isEmpty && marked.isEmpty then [i] else leaves) : (here ++ below).Nodup := by
  have hlen : ((parents ++ List.replicate count i).length : Int) = parents.length + count := by
    rw [List.length_append, List.length_replicate, Int.natCast_add]
  obtain ⟨hhere, hnodup'⟩ := mem_here hnodup hmem hhere
  refine List.nodup_append.mpr ⟨hnodup', h.nodup, fun a ha b hb hab => ?_⟩
  obtain ⟨hb, -⟩ := (h.mem_iff b).mp hb
  subst hab
  rcases (hhere a).mp ha with ⟨-, rfl⟩ | ha <;> rcases hb with hb | hb
  · have := (hmem a).mp (List.mem_append_right _ hb)
    omega
  · omega
  · exact (List.nodup_append.mp hnodup).2.2 a ha a hb rfl
  · have := (hmem a).mp (List.mem_append_left _ ha)
    omega

theorem Grows.mem_node_iff (hi : i ≤ parents.length)
    (hhere : here = if leaves.isEmpty && marked.isEmpty then [i] else leaves) (j : Int) :
    j ∈ here ++ below ↔
      (j = i ∨ parents.length < j ∧ j ≤ (parents ++ List.replicate count i ++ more).length) ∧
        j ∉ List.replicate count i ++ more := by
  have hlen : ((parents ++ List.replicate count i).length : Int) = parents.length + count := by
    rw [List.length_append, List.length_replicate, Int.natCast_add]
  have hlen' : ((parents ++ List.replicate count i ++ more).length : Int) = parents.length + count + more.length := by
    rw [List.length_append, Int.natCast_add, hlen]
  have hmore := h.not_mem_leaves hnodup hmem
  obtain ⟨hhere, -⟩ := mem_here hnodup hmem hhere
  rw [List.mem_append, hhere, h.mem_iff, List.mem_append, List.mem_replicate]
  constructor
  · rintro ((⟨hzero, rfl⟩ | hj) | ⟨hj, hnot⟩)
    · refine ⟨.inl rfl, not_or.mpr ⟨fun hne => hne.1 hzero, fun hj => ?_⟩⟩
      have := hmore j hj
      omega
    · have := (hmem j).mp (List.mem_append_left _ hj)
      exact ⟨by omega, not_or.mpr ⟨by omega, fun hj' => (hmore j hj').2 hj⟩⟩
    · have hrange : parents.length < j ∧ j ≤ (parents ++ List.replicate count i ++ more).length := by
        rcases hj with hj | hj
        · have := (hmem j).mp (List.mem_append_right _ hj)
          omega
        · omega
      exact ⟨.inr hrange, not_or.mpr ⟨by omega, hnot⟩⟩
  · rintro ⟨hj, hnot⟩
    obtain ⟨hnot, hnot'⟩ := not_or.mp hnot
    rcases hj with rfl | hj
    · exact .inl (.inl ⟨by omega, rfl⟩)
    · rcases le_or_gt j (parents.length + count) with hle | hlt
      · rcases List.mem_append.mp ((hmem j).mpr ⟨hj.1, hle⟩) with hj | hj
        · exact .inl (.inr hj)
        · exact .inr ⟨.inl hj, hnot'⟩
      · exact .inr ⟨.inr ⟨by omega, hj.2⟩, hnot'⟩

/-- What has been added below a node: some nodes right below it, and what is below the marked ones of them. -/
theorem Grows.node (hi : i ≤ parents.length)
    (hhere : here = if leaves.isEmpty && marked.isEmpty then [i] else leaves) :
    Grows parents (List.replicate count i ++ more) [i] (levels + 1) (here ++ below) := by
  refine ⟨fun p hp => ?_, h.nodup_node hnodup hmem hi hhere, fun j => ?_, fun j hlt hle => ?_⟩
  · rcases List.mem_append.mp hp with hp | hp
    · exact .inl (List.mem_singleton.mpr (List.eq_of_mem_replicate hp))
    · exact .inr (h.not_mem_leaves hnodup hmem p hp).1
  · rw [List.mem_singleton, ← List.append_assoc]
    exact h.mem_node_iff hnodup hmem hi hhere j
  · rw [← List.append_assoc] at hle ⊢
    refine ⟨i, List.mem_singleton_self i, ?_⟩
    rcases le_or_gt j (parents.length + count) with hle' | hlt'
    · exact ⟨1, by omega, (descends_replicate hlt hle').append more⟩
    · have hbeyond : ((parents ++ List.replicate count i).length : Int) < j := by
        rw [List.length_append, List.length_replicate]
        omega
      obtain ⟨i', hi', d, hd, hdown'⟩ := h.depth j hbeyond hle
      obtain ⟨hlt, hle⟩ := (hmem i').mp (List.mem_append_right _ hi')
      exact ⟨1 + d, by omega, ((descends_replicate hlt hle).append more).trans hdown'⟩

end Below

end Node

/-! ## Expanding -/

/-- The nodes of a tree are nodes of what it grows to. -/
theorem mem_range_append {is : List Int} (hin : ∀ j ∈ is, 0 ≤ j ∧ j ≤ parents.length) (more : List Int) :
    ∀ j ∈ is, 0 ≤ j ∧ j ≤ (parents ++ more).length := by
  intro j hj
  have := hin j hj
  rw [List.length_append]
  omega

/-- Expanding any node of a tree to that many levels grows a tree below it. -/
def ExpandGrows (task : Task) (levels : Nat) : Prop :=
  ∀ {s s' : SearchState} {parents : List Int} {i : Int} {leaves : List Int}, s.graph.HasParents parents →
    0 ≤ i ∧ i ≤ parents.length → Gives (expand task levels i) s leaves s' →
    ∃ more, s'.graph.HasParents (parents ++ more) ∧ Grows parents more [i] levels leaves

/-- The marked nodes are expanded one after the other. -/
theorem gives_mapM_expand (hexpand : ExpandGrows task levels) {is : List Int} {below : List (List Int)}
    (h : s.graph.HasParents parents) (hin : ∀ j ∈ is, 0 ≤ j ∧ j ≤ parents.length) (hnodup : is.Nodup)
    (hrun : Gives (is.mapM (expand task levels)) s below s') :
    ∃ more, s'.graph.HasParents (parents ++ more) ∧ Grows parents more is levels below.flatten := by
  induction is generalizing s below parents with
  | nil =>
    obtain ⟨rfl, rfl⟩ := gives_mapM_nil.mp hrun
    exact ⟨[], by rwa [List.append_nil], grows_nil parents levels⟩
  | cons i is ih =>
    obtain ⟨first, m, rest, hfirst, hrest, rfl⟩ := gives_mapM_cons.mp hrun
    obtain ⟨hi, hin⟩ := List.forall_mem_cons.mp hin
    obtain ⟨hnot, hnodup⟩ := List.nodup_cons.mp hnodup
    obtain ⟨more, h₁, hgrows⟩ := hexpand h hi hfirst
    obtain ⟨more', h₂, hgrows'⟩ := ih h₁ (mem_range_append hin more) hnodup hrest
    refine ⟨more ++ more', by rwa [← List.append_assoc], ?_⟩
    exact hgrows.cons hgrows' h₂.upward hi.2 (fun j hj => (hin j hj).2) hnot

/-- **Expanding a node grows a tree below it.** The nodes that get no nodes below them are the leaves. -/
theorem gives_expand_grows (task : Task) (levels : Nat) : ExpandGrows task levels := by
  induction levels with
  | zero =>
    intro s s' parents i leaves _ _ hrun
    exact absurd hrun not_gives_throw
  | succ levels ih =>
    intro s s' parents i leaves h hi hrun
    obtain ⟨q, b, m, m', below, -, hbranch, hbelow, hset, rfl⟩ := gives_expand_levels hrun
    obtain ⟨count, h₁, hnodup, hmem⟩ := gives_branch_branched (branched_nil h q) hbranch
    have hmarked := (List.nodup_append.mp hnodup).2.1
    obtain ⟨more, h₂, hgrows⟩ := gives_mapM_expand ih h₁ (mem_range_of_marked hmem) hmarked hbelow
    refine ⟨List.replicate count i ++ more, ?_, hgrows.node hnodup hmem hi.2 rfl⟩
    rw [← List.append_assoc]
    exact h₂.set hset

end Search

/-! ## Solving -/

namespace Equation

/-- **A solved graph is a tree, and the leaves are the nodes without nodes below them**, each of them once. No node is
further from the root than the depth of the configuration allows. -/
theorem solve_isTree {task : Search.Task} {q : Equation} {s : Solved} (h : (q.solve task).1 = .ok s) :
    s.root = 0 ∧ s.graph.IsTree ∧ s.leaves.Nodup ∧
      (∀ i, i ∈ s.leaves ↔ s.graph.contains i = true ∧ ∀ j, s.graph.Joins i j → j < i) ∧
      ∀ i, s.graph.contains i = true → ∃ d : Nat, d ≤ task.config.maxDepth + 1 ∧ s.graph.Walk 0 i d := by
  unfold solve at h
  have hsingle : Graph.single q = ((Graph.single q).1, 0) := rfl
  rw [hsingle] at h
  simp only at h
  split at h
  · cases h
  · rename_i leaves m hrun
    obtain rfl := Except.ok.inj h
    have hlevels : 0 < (task.config.maxDepth - 0 + 1).toNat := by
      rw [Nat.pos_iff_ne_zero]
      intro hzero
      rw [Search.expandAt, hzero] at hrun
      exact Search.not_gives_throw hrun
    obtain ⟨parents, hparents, hgrows⟩ := Search.gives_expand_grows task _ (HasParents.single q) ⟨le_rfl, le_rfl⟩ hrun
    rw [List.nil_append] at hparents
    refine ⟨rfl, hparents.isTree, hgrows.nodup, fun i => ?_, fun i hi => ?_⟩
    · rw [hgrows.mem_iff, hparents.contains_iff, ← hparents.not_mem_iff, List.nil_append, List.mem_singleton,
        List.length_nil]
      refine and_congr_left fun _ => ?_
      omega
    · obtain ⟨h0, hle⟩ := hparents.contains_iff.mp hi
      rcases h0.eq_or_lt with rfl | hlt
      · exact ⟨0, by omega, .here⟩
      · obtain ⟨i', hi', d, hd, hdown⟩ := hgrows.depth i hlt hle
        rw [List.mem_singleton.mp hi', List.nil_append] at hdown
        exact ⟨d, by omega, hparents.walk hdown⟩

/-- A strategy that changes nothing before the one that takes steps. -/
def twoStrategies : Search.Task := ⟨[.simplify, .applyInverse], .default, none⟩

/-- The equation `-x = y`. -/
def minus : Equation := ⟨[(Expr.var "x").neg, .var "y"]⟩

theorem solve_isTree_minus : ∃ s, (minus.solve twoStrategies).1 = .ok s ∧ s.leaves = [1, 3, 4] ∧
    s.root = 0 ∧ s.graph.IsTree ∧ s.leaves.Nodup ∧
      (∀ i, i ∈ s.leaves ↔ s.graph.contains i = true ∧ ∀ j, s.graph.Joins i j → j < i) ∧
      ∀ i, s.graph.contains i = true → ∃ d : Nat, d ≤ twoStrategies.config.maxDepth + 1 ∧ s.graph.Walk 0 i d := by
  have hrun : (minus.solve twoStrategies).1.map (·.leaves) = .ok [1, 3, 4] := by cbv
  cases hs : (minus.solve twoStrategies).1 with
  | error fault =>
    rw [hs] at hrun
    cases hrun
  | ok s =>
    rw [hs] at hrun
    exact ⟨s, rfl, Except.ok.inj hrun, solve_isTree hs⟩

end Equation

end Isolate
