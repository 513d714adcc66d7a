import Isolate.Proofs.Solving.Chain
import Mathlib.Data.List.Nodup

/-!
# Trees of numbered nodes

A graph to which nodes are only ever added below others is a tree, and its edges are told by a list of numbers: the
node `k + 1` is below the `k`th of them (`Graph.HasParents`). So the search can be followed on such lists.

* `Graph.HasParents.addPath` and `Graph.HasParents.set`: what the search does to a tree.
* `Graph.HasParents.joins_iff`: what is joined in a tree.
* `Graph.HasParents.walk`: nodes that are reached going down are that many edges away.
* `Graph.HasParents.isTree`: such a graph is a tree.
-/

namespace Isolate.Graph

/-! ## Graphs without what they hold -/

/-- Every node with its neighbours, by their numbers. -/
def skeleton (g : Graph) : List (Int × List Int) := g.nodes.map fun n => (n.index, n.neighbours.map Prod.fst)

/-- The number `b` among the neighbours of `a`, at the end if it was not there before. -/
def link (a b : Int) (n : Int × List Int) : Int × List Int :=
  if n.1 = a then (n.1, if b ∈ n.2 then n.2 else n.2 ++ [b]) else n

variable {g g' : Graph} {i a b child : Int} {q : Equation} {conditions : List String}

theorem link_of_ne {n : Int × List Int} (h : n.1 ≠ a) (b : Int) : link a b n = n := if_neg h

theorem fst_link (a b : Int) (n : Int × List Int) : (link a b n).1 = n.1 := by
  unfold link
  split
  · rfl
  · rfl

theorem link_nil (a b : Int) : link a b (a, []) = (a, [b]) := if_pos rfl

theorem fst_setNeighbour (b : Int) (conditions : List String) (ns : List (Int × List String)) :
    (setNeighbour b conditions ns).map Prod.fst =
      if b ∈ ns.map Prod.fst then ns.map Prod.fst else ns.map Prod.fst ++ [b] := by
  induction ns with
  | nil => simp [setNeighbour]
  | cons n ns ih =>
    obtain ⟨j, cs⟩ := n
    unfold setNeighbour
    split
    · rename_i hj
      simp [hj]
    · rename_i hj
      have hne : b ≠ j := fun h => hj h.symm
      rw [List.map_cons, ih, List.map_cons]
      simp only [List.mem_cons, hne, false_or]
      split
      · rfl
      · rfl

theorem contains_iff : g.contains i = true ↔ i ∈ g.skeleton.map Prod.fst := by
  rw [contains, node?, List.find?_isSome, skeleton, List.map_map]
  simp

theorem skeleton_put (h : g.contains i = false) (q : Equation) : (g.put i q).skeleton = g.skeleton ++ [(i, [])] := by
  have hkeeps : ∀ g : Graph, (g.modifyNode i fun n => { n with equation := some q }).skeleton = g.skeleton := by
    intro g
    rw [skeleton, modifyNode, List.map_map]
    refine List.map_congr_left fun n _ => ?_
    simp only [Function.comp_apply]
    split
    · rfl
    · rfl
  rw [put, hkeeps, ensure, h, skeleton, skeleton]
  simp

theorem skeleton_set (h : g.set i q = .ok g') : g'.skeleton = g.skeleton ∧ g'.next = g.next := by
  unfold set at h
  split at h
  · obtain rfl := Except.ok.inj h
    refine ⟨?_, rfl⟩
    rw [skeleton, modifyNode, List.map_map]
    refine List.map_congr_left fun n _ => ?_
    simp only [Function.comp_apply]
    split
    · rfl
    · rfl
  · cases h

theorem skeleton_addEdge (ha : g.contains a = true) (hb : g.contains b = true) (conditions : List String) :
    (g.addEdge a b conditions).skeleton = (g.skeleton.map (link a b)).map (link b a) ∧
      (g.addEdge a b conditions).next = g.next := by
  have hlink : ∀ (g : Graph) (a b : Int), (g.modifyNode a fun n =>
      { n with neighbours := setNeighbour b conditions n.neighbours }).skeleton = g.skeleton.map (link a b) := by
    intro g a b
    rw [skeleton, modifyNode, List.map_map, skeleton, List.map_map]
    refine List.map_congr_left fun n _ => ?_
    simp only [Function.comp_apply, link]
    split
    · rw [fst_setNeighbour]
    · rfl
  rw [addEdge, ensure_eq_self ha, ensure_eq_self hb]
  simp only
  rw [hlink, hlink]
  exact ⟨rfl, rfl⟩

/-- A node is added below another one. -/
theorem skeleton_addPath (hnew : g.contains g.next = false) (h : g.addPath q conditions i = .ok (g', child)) :
    child = g.next ∧ g'.next = g.next + 1 ∧
      g'.skeleton = ((g.skeleton ++ [(g.next, [])]).map (link i g.next)).map (link g.next i) := by
  unfold addPath at h
  split at h
  · rename_i hi
    have hput : (g.addNode q).1.skeleton = g.skeleton ++ [(g.next, [])] := skeleton_put hnew q
    have hmem : ∀ j ∈ (g.skeleton ++ [(g.next, [])]).map Prod.fst, (g.addNode q).1.contains j = true := by
      intro j hj
      rwa [contains_iff, hput]
    have hi' : i ∈ (g.skeleton ++ [(g.next, [])]).map Prod.fst := by
      rw [List.map_append]
      exact List.mem_append_left _ (contains_iff.mp hi)
    have hnext : g.next ∈ (g.skeleton ++ [(g.next, [])]).map Prod.fst := by simp
    obtain ⟨hskeleton, hcount⟩ := skeleton_addEdge (hmem i hi') (hmem g.next hnext) conditions
    obtain ⟨rfl, rfl⟩ := Prod.mk.inj (Except.ok.inj h)
    rw [← hput]
    exact ⟨rfl, hcount, hskeleton⟩
  · cases h

/-! ## Trees -/

/-- The number that the node `k` is below, if there is one. -/
def above (parents : List Int) : Nat → List Int
  | 0 => []
  | k + 1 => parents[k]?.toList

/-- The numbers of the nodes below the node `i`, in order. -/
def below (parents : List Int) (i : Int) : List Int :=
  ((List.range parents.length).filter fun k : Nat => parents[k]? = some i).map fun k : Nat => (k : Int) + 1

/-- The node `k` of a tree with its neighbours. -/
def treeNode (parents : List Int) (k : Nat) : Int × List Int := (k, above parents k ++ below parents k)

/-- No node of a tree is below itself or a later one. -/
def IsUpward (parents : List Int) : Prop := ∀ (k : Nat) p, parents[k]? = some p → 0 ≤ p ∧ p ≤ k

/-- The node `k + 1` is below the node `parents[k]`, and there are no other edges. -/
structure HasParents (g : Graph) (parents : List Int) : Prop where
  next_eq : g.next = parents.length + 1
  skeleton_eq : g.skeleton = (List.range (parents.length + 1)).map (treeNode parents)
  upward : IsUpward parents

variable {parents : List Int} {p : Int} {k : Nat}

theorem mem_above {j : Int} : j ∈ above parents k ↔ ∃ l, k = l + 1 ∧ parents[l]? = some j := by
  cases k with
  | zero => simp [above]
  | succ k => simp [above]

theorem mem_below {j : Int} : j ∈ below parents i ↔ ∃ l : Nat, j = l + 1 ∧ parents[l]? = some i := by
  simp only [below, List.mem_map, List.mem_filter, List.mem_range, decide_eq_true_eq]
  constructor
  · rintro ⟨l, ⟨-, hl⟩, rfl⟩
    exact ⟨l, rfl, hl⟩
  · rintro ⟨l, rfl, hl⟩
    exact ⟨l, ⟨(List.getElem?_eq_some_iff.mp hl).1, hl⟩, rfl⟩

theorem above_append (hk : k ≤ parents.length) (p : Int) : above (parents ++ [p]) k = above parents k := by
  cases k with
  | zero => rfl
  | succ k => rw [above, above, List.getElem?_append_left hk]

theorem below_append (parents : List Int) (p i : Int) :
    below (parents ++ [p]) i = below parents i ++ if p = i then [(parents.length : Int) + 1] else [] := by
  have hold : ((List.range parents.length).filter fun k => decide ((parents ++ [p])[k]? = some i)) =
      (List.range parents.length).filter fun k => decide (parents[k]? = some i) := by
    refine List.filter_congr fun k hk => ?_
    rw [List.getElem?_append_left (List.mem_range.mp hk)]
  rw [below, List.length_append, List.length_singleton, List.range_succ, List.filter_append, List.map_append, hold]
  refine congrArg _ ?_
  by_cases h : p = i
  · simp [h]
  · simp [h]

theorem IsUpward.append (h : IsUpward parents) (hp : 0 ≤ p) (hlt : p ≤ parents.length) : IsUpward (parents ++ [p]) := by
  intro k p' hk
  rcases lt_or_ge k parents.length with hlen | hlen
  · rw [List.getElem?_append_left hlen] at hk
    exact h k p' hk
  · obtain ⟨hk', hp'⟩ : k - parents.length = 0 ∧ p = p' := by
      rw [List.getElem?_append_right hlen] at hk
      simpa [List.getElem?_singleton] using hk
    subst hp'
    omega

/-- A node of a tree after another one was added below the node `p`. -/
theorem treeNode_append (h : IsUpward parents) (hk : k ≤ parents.length) :
    treeNode (parents ++ [p]) k = link p (parents.length + 1) (treeNode parents k) := by
  have hnew : (parents.length : Int) + 1 ∉ above parents k ++ below parents k := by
    intro hmem
    rcases List.mem_append.mp hmem with hmem | hmem
    · obtain ⟨l, rfl, hl⟩ := mem_above.mp hmem
      have := h l _ hl
      omega
    · obtain ⟨l, hj, hl⟩ := mem_below.mp hmem
      have := (List.getElem?_eq_some_iff.mp hl).1
      omega
  rw [treeNode, above_append hk, below_append, treeNode, link]
  by_cases hp : (k : Int) = p
  · simp only [hp, if_true]
    rw [if_neg (hp ▸ hnew), List.append_assoc]
  · simp only [if_neg hp, if_neg (Ne.symm hp), List.append_nil]

theorem treeNode_last (h : IsUpward (parents ++ [p])) :
    treeNode (parents ++ [p]) (parents.length + 1) = ((parents.length : Int) + 1, [p]) := by
  have hbelow : below (parents ++ [p]) ((parents.length + 1 : Nat) : Int) = [] := by
    refine List.eq_nil_iff_forall_not_mem.mpr fun j hj => ?_
    obtain ⟨l, -, hl⟩ := mem_below.mp hj
    have hlt := (List.getElem?_eq_some_iff.mp hl).1
    have := h l _ hl
    rw [List.length_append, List.length_singleton] at hlt
    omega
  rw [treeNode, hbelow]
  simp [above]

/-! ## What the search does -/

namespace HasParents

theorem single (q : Equation) : (Graph.single q).1.HasParents [] := by
  refine ⟨rfl, ?_, fun k p hk => by simp at hk⟩
  rw [Graph.single, addNode]
  exact skeleton_put (g := empty) rfl q

theorem contains_iff (h : g.HasParents parents) : g.contains i = true ↔ 0 ≤ i ∧ i ≤ parents.length := by
  rw [Graph.contains_iff, h.skeleton_eq, List.map_map, List.mem_map]
  simp only [List.mem_range, Function.comp_apply, treeNode]
  constructor
  · rintro ⟨k, hk, rfl⟩
    omega
  · rintro ⟨h0, hi⟩
    exact ⟨i.toNat, by omega, by omega⟩

/-- The next number of a tree is new. -/
theorem contains_next (h : g.HasParents parents) : g.contains g.next = false := by
  rw [← Bool.not_eq_true, h.contains_iff, h.next_eq]
  omega

/-- A node is added below the node `i`. -/
theorem addPath (h : g.HasParents parents) (hadd : g.addPath q conditions i = .ok (g', child)) :
    child = parents.length + 1 ∧ g'.HasParents (parents ++ [i]) := by
  have hi : 0 ≤ i ∧ i ≤ parents.length := by
    refine h.contains_iff.mp ?_
    unfold Graph.addPath at hadd
    split at hadd
    · rename_i hi
      exact hi
    · cases hadd
  have hupward := h.upward.append hi.1 hi.2
  obtain ⟨hchild, hnext, hskeleton⟩ := skeleton_addPath h.contains_next hadd
  refine ⟨hchild.trans h.next_eq, ?_, ?_, hupward⟩
  · rw [hnext, h.next_eq, List.length_append, List.length_singleton]
    omega
  · rw [hskeleton, h.skeleton_eq, h.next_eq, List.length_append, List.length_singleton, List.range_succ (n := _ + 1)]
    simp only [List.map_append, List.map_map, List.map_singleton]
    refine congrArg₂ (· ++ ·) (List.map_congr_left fun k hk => ?_) ?_
    · have hk' := List.mem_range.mp hk
      have hne : (link i (parents.length + 1) (treeNode parents k)).1 ≠ parents.length + 1 := by
        rw [fst_link, treeNode]
        omega
      rw [treeNode_append h.upward (Nat.le_of_lt_succ hk'), Function.comp_apply, Function.comp_apply,
        link_of_ne hne]
    · have hne : ((parents.length : Int) + 1, ([] : List Int)).1 ≠ i := by
        simp only
        omega
      rw [treeNode_last hupward, link_of_ne hne, link_nil]

/-- The equation of a node is replaced. -/
theorem set (h : g.HasParents parents) (hset : g.set i q = .ok g') : g'.HasParents parents := by
  obtain ⟨hskeleton, hnext⟩ := skeleton_set hset
  exact ⟨hnext.trans h.next_eq, hskeleton.trans h.skeleton_eq, h.upward⟩

end HasParents

/-! ## What is joined -/

/-- Is `b` a neighbour of the node `a`? -/
def Joins (g : Graph) (a b : Int) : Prop := ∃ n ∈ g.nodes, n.index = a ∧ b ∈ n.neighbours.map Prod.fst

/-- From `a` to `b` there is a way of that many edges. -/
inductive Walk (g : Graph) (a : Int) : Int → Nat → Prop
  | here : Walk g a a 0
  | step {b c : Int} {n : Nat} (hwalk : Walk g a b n) (hjoins : g.Joins b c) : Walk g a c (n + 1)

/-- From the node `i`, another node is reached by going down that many edges. -/
inductive Descends (parents : List Int) (i : Int) : Int → Nat → Prop
  | here : Descends parents i i 0
  | down {p : Int} {k d : Nat} (habove : Descends parents i p d) (hk : parents[k]? = some p) :
      Descends parents i (k + 1) (d + 1)

namespace Descends

variable {j : Int} {d e : Nat}

theorem append (h : Descends parents i j d) (more : List Int) : Descends (parents ++ more) i j d := by
  induction h with
  | here => exact .here
  | down _ hk ih =>
    refine .down ih ?_
    rw [List.getElem?_append_left (List.getElem?_eq_some_iff.mp hk).1, hk]

theorem trans (h : Descends parents i j d) {l : Int} (h' : Descends parents j l e) : Descends parents i l (d + e) := by
  induction h' with
  | here => exact h
  | down _ hk ih => exact .down ih hk

end Descends

theorem joins_iff_skeleton : g.Joins a b ↔ ∃ ns, (a, ns) ∈ g.skeleton ∧ b ∈ ns := by
  simp only [Joins, skeleton, List.mem_map (f := fun n : GraphNode => (n.index, n.neighbours.map Prod.fst)), Prod.mk.injEq]
  constructor
  · rintro ⟨n, hn, rfl, hb⟩
    exact ⟨_, ⟨n, hn, rfl, rfl⟩, hb⟩
  · rintro ⟨ns, ⟨n, hn, rfl, rfl⟩, hb⟩
    exact ⟨n, hn, rfl, hb⟩

namespace HasParents

/-- The edges of a tree, from either end. -/
theorem joins_iff (h : g.HasParents parents) : g.Joins a b ↔
    ∃ (k : Nat) (p : Int), parents[k]? = some p ∧ (a = k + 1 ∧ b = p ∨ a = p ∧ b = k + 1) := by
  rw [joins_iff_skeleton, h.skeleton_eq]
  simp only [List.mem_map, List.mem_range, treeNode, Prod.mk.injEq]
  constructor
  · rintro ⟨ns, ⟨k, hk, rfl, rfl⟩, hb⟩
    rcases List.mem_append.mp hb with hb | hb
    · obtain ⟨l, rfl, hl⟩ := mem_above.mp hb
      exact ⟨l, b, hl, .inl ⟨by omega, rfl⟩⟩
    · obtain ⟨l, rfl, hl⟩ := mem_below.mp hb
      exact ⟨l, k, hl, .inr ⟨rfl, rfl⟩⟩
  · rintro ⟨k, p, hk, ⟨rfl, rfl⟩ | ⟨rfl, rfl⟩⟩
    · have hlt := (List.getElem?_eq_some_iff.mp hk).1
      exact ⟨_, ⟨k + 1, by omega, by omega, rfl⟩, List.mem_append_left _ (mem_above.mpr ⟨k, rfl, hk⟩)⟩
    · have hlt := (List.getElem?_eq_some_iff.mp hk).1
      obtain ⟨h0, hle⟩ := h.upward k a hk
      refine ⟨_, ⟨a.toNat, by omega, by omega, rfl⟩, List.mem_append_right _ (mem_below.mpr ⟨k, rfl, ?_⟩)⟩
      rwa [Int.toNat_of_nonneg h0]

/-- Nothing is below a node that is no parent. -/
theorem not_mem_iff (h : g.HasParents parents) : i ∉ parents ↔ ∀ j, g.Joins i j → j < i := by
  constructor
  · intro hnot j hj
    obtain ⟨k, p, hk, ⟨rfl, rfl⟩ | ⟨rfl, rfl⟩⟩ := h.joins_iff.mp hj
    · have := h.upward k j hk
      omega
    · exact absurd (List.mem_of_getElem? hk) hnot
  · intro hup hmem
    obtain ⟨k, hk⟩ := List.mem_iff_getElem?.mp hmem
    have := hup (k + 1) (h.joins_iff.mpr ⟨k, i, hk, .inr ⟨rfl, rfl⟩⟩)
    have := h.upward k i hk
    omega

theorem walk (h : g.HasParents parents) {d : Nat} (hdown : Descends parents a b d) : g.Walk a b d := by
  induction hdown with
  | here => exact .here
  | down _ hk ih => exact .step ih (h.joins_iff.mpr ⟨_, _, hk, .inr ⟨rfl, rfl⟩⟩)

end HasParents

/-! ## Trees -/

/-- Nodes numbered from zero on, in order, and edges between them, each from a node to one of a greater number. Every
node but the first one has one neighbour of a smaller number. -/
structure IsTree (g : Graph) : Prop where
  numbers : g.nodes.map (·.index) = (List.range g.size).map Int.ofNat
  distinct : ∀ n ∈ g.nodes, (n.neighbours.map Prod.fst).Nodup
  joins : ∀ a b, g.Joins a b → g.Joins b a ∧ g.contains b = true ∧ a ≠ b
  edges : ∀ a b, (∃ conditions, (a, b, conditions) ∈ g.edges) ↔ g.Joins a b ∧ a < b
  parent : ∀ i, 0 < i → g.contains i = true → ∃! p, g.Joins i p ∧ p < i

/-- An edge is listed at the first of its ends. -/
theorem mem_edgesFrom {passed : List Int} {ns : List GraphNode} {e : Int × Int × List String} :
    e ∈ edgesFrom passed ns ↔ ∃ pre n post, ns = pre ++ n :: post ∧ ∃ p ∈ n.neighbours, p.1 ∉ passed ∧
      p.1 ∉ pre.map (·.index) ∧ e = (min n.index p.1, max n.index p.1, p.2) := by
  induction ns generalizing passed with
  | nil => simp [edgesFrom]
  | cons m ns ih =>
    rw [edgesFrom, List.mem_append, ih]
    constructor
    · rintro (h | ⟨pre, n, post, rfl, p, hp, hpassed, hpre, rfl⟩)
      · obtain ⟨p, hp, rfl⟩ := List.mem_map.mp h
        obtain ⟨hp, hpassed⟩ := List.mem_filter.mp hp
        exact ⟨[], m, ns, rfl, p, hp, by simpa using hpassed, List.not_mem_nil, rfl⟩
      · obtain ⟨hm, hpassed⟩ := not_or.mp (List.mem_cons.not.mp hpassed)
        exact ⟨m :: pre, n, post, rfl, p, hp, hpassed, List.mem_cons.not.mpr (not_or.mpr ⟨hm, hpre⟩), rfl⟩
    · rintro ⟨pre, n, post, hns, p, hp, hpassed, hpre, rfl⟩
      cases pre with
      | nil =>
        obtain ⟨rfl, rfl⟩ := List.cons.inj hns
        refine .inl (List.mem_map.mpr ⟨p, List.mem_filter.mpr ⟨hp, ?_⟩, rfl⟩)
        simpa using hpassed
      | cons m' pre =>
        obtain ⟨rfl, rfl⟩ := List.cons.inj hns
        obtain ⟨hm, hpre⟩ := not_or.mp (List.mem_cons.not.mp hpre)
        exact .inr ⟨pre, n, post, rfl, p, hp, List.mem_cons.not.mpr (not_or.mpr ⟨hm, hpassed⟩), hpre, rfl⟩

namespace HasParents

theorem numbers_eq (h : g.HasParents parents) : g.nodes.map (·.index) = (List.range g.size).map Int.ofNat := by
  have hlen : g.size = parents.length + 1 := by
    have := congrArg List.length h.skeleton_eq
    rwa [skeleton, List.length_map, List.length_map, List.length_range] at this
  have hfst : g.skeleton.map Prod.fst = g.nodes.map (·.index) := by
    rw [skeleton, List.map_map]
    rfl
  rw [← hfst, h.skeleton_eq, List.map_map, hlen]
  rfl

theorem nodup_treeNode (h : IsUpward parents) (k : Nat) : (treeNode parents k).2.Nodup := by
  refine List.nodup_append.mpr ⟨?_, ?_, ?_⟩
  · cases k with
    | zero => exact List.nodup_nil
    | succ k =>
      rw [above]
      cases parents[k]? with
      | none => exact List.nodup_nil
      | some p => exact List.nodup_singleton p
  · refine List.Nodup.map ?_ (List.nodup_range.filter _)
    intro k l hkl
    exact Int.ofNat_inj.mp (Int.add_left_inj 1 |>.mp hkl)
  · intro a ha b hb
    obtain ⟨l, rfl, hl⟩ := mem_above.mp ha
    obtain ⟨m, rfl, hm⟩ := mem_below.mp hb
    have := h l a hl
    have := h m _ hm
    omega

/-- What is joined are two nodes, and they are joined both ways. -/
theorem joins_symm (h : g.HasParents parents) (hab : g.Joins a b) : g.Joins b a ∧ g.contains b = true ∧ a ≠ b := by
  obtain ⟨k, p, hk, hends⟩ := h.joins_iff.mp hab
  have := h.upward k p hk
  have := (List.getElem?_eq_some_iff.mp hk).1
  refine ⟨h.joins_iff.mpr ⟨k, p, hk, hends.symm.imp And.symm And.symm⟩, h.contains_iff.mpr ?_, ?_⟩
  · omega
  · omega

theorem nodup_neighbours (h : g.HasParents parents) {n : GraphNode} (hn : n ∈ g.nodes) :
    (n.neighbours.map Prod.fst).Nodup := by
  have hmem : (n.index, n.neighbours.map Prod.fst) ∈ g.skeleton := List.mem_map_of_mem hn
  rw [h.skeleton_eq] at hmem
  obtain ⟨k, -, hk⟩ := List.mem_map.mp hmem
  have hnodup := nodup_treeNode h.upward k
  rwa [hk] at hnodup

/-- The nodes that are listed before a node have smaller numbers. -/
theorem not_mem_before (h : g.HasParents parents) {pre post : List GraphNode} {n : GraphNode}
    (hns : g.nodes = pre ++ n :: post) (hlt : n.index < b) : b ∉ pre.map (·.index) := by
  have hsorted : (g.nodes.map (·.index)).Pairwise (· < ·) := by
    rw [h.numbers_eq]
    exact List.pairwise_lt_range.map _ fun k l hkl => Int.ofNat_lt.mpr hkl
  intro hmem
  rw [hns, List.map_append] at hsorted
  have := (List.pairwise_append.mp hsorted).2.2 _ hmem n.index (by simp)
  omega

/-- The edges are what is joined, each listed once, from the smaller number to the greater one. -/
theorem mem_edges_iff (h : g.HasParents parents) :
    (∃ conditions, (a, b, conditions) ∈ g.edges) ↔ g.Joins a b ∧ a < b := by
  constructor
  · rintro ⟨conditions, he⟩
    obtain ⟨pre, n, post, hns, p, hp, -, -, he⟩ := mem_edgesFrom.mp he
    have hnp : g.Joins n.index p.1 :=
      ⟨n, by rw [hns]; exact List.mem_append_right _ List.mem_cons_self, rfl, List.mem_map_of_mem hp⟩
    obtain ⟨hpn, -, hne⟩ := h.joins_symm hnp
    obtain ⟨ha, hrest⟩ := Prod.mk.inj he
    obtain ⟨hb, -⟩ := Prod.mk.inj hrest
    rw [ha, hb]
    rcases lt_or_gt_of_ne hne with hlt | hlt
    · rw [min_eq_left hlt.le, max_eq_right hlt.le]
      exact ⟨hnp, hlt⟩
    · rw [min_eq_right hlt.le, max_eq_left hlt.le]
      exact ⟨hpn, hlt⟩
  · rintro ⟨⟨n, hn, rfl, hb⟩, hlt⟩
    obtain ⟨p, hp, rfl⟩ := List.mem_map.mp hb
    obtain ⟨pre, post, hns⟩ := List.append_of_mem hn
    refine ⟨p.2, mem_edgesFrom.mpr ⟨pre, n, post, hns, p, hp, List.not_mem_nil, h.not_mem_before hns hlt, ?_⟩⟩
    rw [min_eq_left hlt.le, max_eq_right hlt.le]

/-- Every node but the first one was added below one other. -/
theorem existsUnique_parent (h : g.HasParents parents) (hi : 0 < i) (hmem : g.contains i = true) :
    ∃! p, g.Joins i p ∧ p < i := by
  have hle := h.contains_iff.mp hmem
  obtain ⟨k, rfl⟩ : ∃ k : Nat, i = k + 1 := ⟨(i - 1).toNat, by omega⟩
  have hk : parents[k]? = some parents[k] := List.getElem?_eq_getElem (by omega)
  refine ⟨parents[k], ⟨h.joins_iff.mpr ⟨k, _, hk, .inl ⟨rfl, rfl⟩⟩, ?_⟩, ?_⟩
  · have := h.upward k _ hk
    omega
  · rintro p ⟨hp, hlt⟩
    obtain ⟨l, p', hl, ⟨hkl, rfl⟩ | ⟨hkl, rfl⟩⟩ := h.joins_iff.mp hp
    · obtain rfl : k = l := by omega
      exact Option.some.inj (hl.symm.trans hk)
    · have := h.upward l _ hl
      omega

/-- **Nodes that were added one below another make a tree.** -/
theorem isTree (h : g.HasParents parents) : g.IsTree where
  numbers := h.numbers_eq
  distinct _ hn := h.nodup_neighbours hn
  joins _ _ hab := h.joins_symm hab
  edges _ _ := h.mem_edges_iff
  parent _ hi hmem := h.existsUnique_parent hi hmem

end HasParents

end Isolate.Graph
