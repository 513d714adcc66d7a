import Isolate.Proofs.Records.Grown
import Isolate.Proofs.Records.Trees
import Mathlib.Data.List.Sort

/-!
# Grown graphs read back from their records

A record names the edges of a grown graph node by node, from the smaller number to the larger one
(`Graph.edges_laid`), not in the order in which they were stated. What is near a node comes out of both orders alike:
its edges to smaller numbers stand before those to larger ones, and each of these in the order of the other ends
(`Graph.Meshes.filterMap_across`). So stating the edges once more, in the order of the record, builds what was there
(`Graph.Meshes.foldl_addEdge`), and the next number is again one more than the largest.

* `Graph.IsGrown.ofJson_toJson`: the record of a grown graph is read as the graph without analyses.
-/

namespace Isolate

/-- The node with every analysis forgotten. -/
def GraphNode.bare (n : GraphNode) : GraphNode := { n with equation := n.equation.map Equation.bare }

namespace Graph

variable {count : Nat} {held : Int → Equation} {near : Int → List (Int × List String)} {next i j : Int}

/-! ## The edges of a grown graph -/

/-- The edges of a node to larger numbers. -/
def upward (near : Int → List (Int × List String)) (i : Int) : List (Int × Int × List String) :=
  ((near i).filter fun p => i < p.1).map fun p => (i, p.1, p.2)

theorem mem_upward {e : Int × Int × List String} : e ∈ upward near i ↔ e.1 = i ∧ i < e.2.1 ∧ e.2 ∈ near i := by
  obtain ⟨a, b, cs⟩ := e
  simp only [upward, List.mem_map, List.mem_filter, decide_eq_true_eq, Prod.mk.injEq, Prod.exists]
  constructor
  · rintro ⟨j, ds, ⟨hmem, hlt⟩, rfl, rfl, rfl⟩
    exact ⟨rfl, hlt, hmem⟩
  · rintro ⟨rfl, hlt, hmem⟩
    exact ⟨b, cs, ⟨hmem, hlt⟩, rfl, rfl, rfl⟩

namespace Meshes

variable (h : Meshes count near)
include h

/-- The edges of a node that lead to none that was passed. -/
theorem edgesFrom_node {passed : List Int} (hpassed : ∀ j, j ∈ passed ↔ 0 ≤ j ∧ j < i) :
    (((near i).filter fun p => !passed.contains p.1).map fun p => (min i p.1, max i p.1, p.2)) = upward near i := by
  have hkept : ∀ p ∈ near i, (!passed.contains p.1) = decide (i < p.1) := by
    intro p hp
    have hin := h.within (h.returned hp)
    have hne := h.apart hp
    have hmem := hpassed p.1
    rw [Bool.eq_iff_iff, Bool.not_eq_true', Bool.eq_false_iff, Ne, List.contains_iff_mem, hmem, decide_eq_true_iff]
    omega
  rw [List.filter_congr hkept, upward]
  refine List.map_congr_left fun p hp => ?_
  have hlt : i < p.1 := by simpa using (List.mem_filter.mp hp).2
  rw [min_eq_left hlt.le, max_eq_right hlt.le]

theorem edgesFrom_nodes (m k : Nat) {passed : List Int} (hpassed : ∀ j, j ∈ passed ↔ 0 ≤ j ∧ j < (m : Int)) :
    edgesFrom passed ((List.range' m k).map fun l : Nat => ⟨l, some (held l), near l⟩) =
      (List.range' m k).flatMap fun l : Nat => upward near l := by
  induction k generalizing m passed with
  | zero => rfl
  | succ k ih =>
    have hnext : ∀ j, j ∈ (m : Int) :: passed ↔ 0 ≤ j ∧ j < ((m + 1 : Nat) : Int) := by
      intro j
      rw [List.mem_cons, hpassed]
      omega
    rw [List.range'_succ, List.map_cons, List.flatMap_cons, edgesFrom, ← ih (m + 1) hnext]
    exact congrArg (· ++ _) (h.edgesFrom_node hpassed)

/-- **The edges of a grown graph**, node by node. -/
theorem edges_laid (held : Int → Equation) (next : Int) :
    (laid count held near next).edges = (List.range count).flatMap fun k : Nat => upward near k := by
  have hpassed : ∀ j, j ∈ ([] : List Int) ↔ 0 ≤ j ∧ j < ((0 : Nat) : Int) := by
    intro j
    simp
  rw [edges, laid, List.range_eq_range']
  exact h.edgesFrom_nodes 0 count hpassed

theorem mem_edges {e : Int × Int × List String} :
    e ∈ (laid count held near next).edges ↔ e.1 < e.2.1 ∧ e.2 ∈ near e.1 := by
  rw [h.edges_laid, List.mem_flatMap]
  constructor
  · rintro ⟨k, -, he⟩
    obtain ⟨hk, hlt, hmem⟩ := mem_upward.mp he
    rw [hk]
    exact ⟨hlt, hmem⟩
  · rintro ⟨hlt, hmem⟩
    have hin := h.within (j := e.2.1) hmem
    obtain ⟨k, hk⟩ := Int.eq_ofNat_of_zero_le hin.1
    refine ⟨k, List.mem_range.mpr (by omega), mem_upward.mpr ⟨hk, ?_, ?_⟩⟩
    · rwa [hk] at hlt
    · rwa [hk] at hmem

/-- The edges stand in the order of their smaller ends, and those of one node in the order of the larger ones. -/
theorem pairwise_edges : (laid count held near next).edges.Pairwise fun e f =>
    e.1 < e.2.1 ∧ f.1 < f.2.1 ∧ (e.1 < f.1 ∨ e.1 = f.1 ∧ e.2.1 < f.2.1) := by
  rw [h.edges_laid, List.pairwise_flatMap]
  constructor
  · intro k _
    rw [upward, List.pairwise_map, List.pairwise_filter]
    refine (h.increasing k).imp fun hlt hp hr => ?_
    exact ⟨by simpa using hp, by simpa using hr, .inr ⟨rfl, hlt⟩⟩
  · refine List.pairwise_lt_range.imp fun hkl e he f hf => ?_
    obtain ⟨hk, hke, -⟩ := mem_upward.mp he
    obtain ⟨hl, hlf, -⟩ := mem_upward.mp hf
    omega

/-! ## Stating the edges once more -/

/-- **What the edges of the record give to a node** is what is near it. -/
theorem filterMap_across (i : Int) : (laid count held near next).edges.filterMap (across i) = near i := by
  have hacross : ∀ {e : Int × Int × List String} {p}, e.1 < e.2.1 → (across i e = some p ↔
      i = e.1 ∧ p = e.2 ∨ i = e.2.1 ∧ p = (e.1, e.2.2)) := fun hlt => across_eq_some hlt.ne
  have hends : ∀ {e : Int × Int × List String} {p}, e.1 < e.2.1 → across i e = some p →
      i = e.1 ∧ p.1 = e.2.1 ∨ i = e.2.1 ∧ p.1 = e.1 := fun hlt hp =>
    ((hacross hlt).mp hp).imp (fun h => ⟨h.1, congrArg Prod.fst h.2⟩) fun h => ⟨h.1, congrArg Prod.fst h.2⟩
  have : Std.Asymm fun p r : Int × List String => p.1 < r.1 := ⟨fun _ _ hlt hgt => lt_asymm hlt hgt⟩
  refine List.Pairwise.eq_of_mem_iff (r := fun p r : Int × List String => p.1 < r.1) ?_ (h.increasing i) fun p => ?_
  · refine h.pairwise_edges.filterMap (across i) fun e f ⟨he, hf, hef⟩ p hp r hr => ?_
    have hp := hends he hp
    have hr := hends hf hr
    omega
  · rw [List.mem_filterMap]
    constructor
    · rintro ⟨e, he, hp⟩
      obtain ⟨hlt, hmem⟩ := h.mem_edges.mp he
      rcases (hacross hlt).mp hp with ⟨rfl, rfl⟩ | ⟨rfl, rfl⟩
      · exact hmem
      · exact h.returned hmem
    · intro hp
      obtain ⟨j, cs⟩ := p
      rcases lt_or_gt_of_ne (h.apart hp) with hlt | hlt
      · exact ⟨(j, i, cs), h.mem_edges.mpr ⟨hlt, h.returned hp⟩, (hacross hlt).mpr (.inr ⟨rfl, rfl⟩)⟩
      · exact ⟨(i, j, cs), h.mem_edges.mpr ⟨hlt, hp⟩, (hacross hlt).mpr (.inl ⟨rfl, rfl⟩)⟩

end Meshes

/-- Edges that come in the order of the numbers add up. -/
theorem foldl_joined {es : List (Int × Int × List String)}
    (h : (near i ++ es.filterMap (across i)).Pairwise fun p r => p.1 < r.1) :
    es.foldl joined near i = near i ++ es.filterMap (across i) := by
  induction es generalizing near with
  | nil => simp
  | cons e es ih =>
    have hsplit : (e :: es).filterMap (across i) = (across i e).toList ++ es.filterMap (across i) := by
      rw [List.filterMap_cons]
      cases across i e <;> rfl
    rw [hsplit, ← List.append_assoc] at h ⊢
    have hstep : joined near e i = near i ++ (across i e).toList := joined_of_lt fun p hp r hr =>
      (List.pairwise_append.mp (List.pairwise_append.mp h).1).2.2 p hp r (Option.mem_toList.mpr hr)
    rw [← hstep] at h ⊢
    exact ih h

theorem foldl_addEdge {es : List (Int × Int × List String)}
    (hes : ∀ e ∈ es, 0 ≤ e.1 ∧ e.1 < e.2.1 ∧ e.2.1 < count) :
    es.foldl (fun g e => g.addEdge e.1 e.2.1 e.2.2) (laid count held near next) =
      laid count held (es.foldl joined near) next := by
  induction es generalizing near with
  | nil => rfl
  | cons e es ih =>
    obtain ⟨he, hes⟩ := List.forall_mem_cons.mp hes
    rw [List.foldl_cons, addEdge_laid (by omega) (by omega) (by omega), ih hes]
    rfl

/-- **Stating the edges of the record builds a grown graph**, from its nodes. -/
theorem Meshes.foldl_addEdge (h : Meshes count near) (held held' : Int → Equation) (next next' : Int) :
    (laid count held near next).edges.foldl (fun g e => g.addEdge e.1 e.2.1 e.2.2)
      (laid count held' (fun _ => []) next') = laid count held' near next' := by
  have hes : ∀ e ∈ (laid count held near next).edges, 0 ≤ e.1 ∧ e.1 < e.2.1 ∧ e.2.1 < count := by
    intro e he
    obtain ⟨hlt, hmem⟩ := h.mem_edges.mp he
    have hfirst := h.within (j := e.2.1) hmem
    have hsecond := h.within (h.returned (j := e.2.1) hmem)
    omega
  rw [Graph.foldl_addEdge hes]
  refine congrArg (laid count held' · next') (funext fun i => ?_)
  rw [foldl_joined]
  · exact h.filterMap_across i
  · rw [h.filterMap_across]
    exact h.increasing i

/-! ## Reading nodes -/

/-- What the record says of a node. -/
def nodeJson (i : Int) (q : Equation) : Json := .object [("id", .integer i), ("equation", q.toJson)]

theorem equations_laid : (laid count held near next).equations =
    .ok ((List.range count).map fun k : Nat => ((k : Int), held k)) := by
  rw [equations, laid]
  exact mapM_map_eq_ok fun k _ => rfl

/-- The record of a graph in the order of its numbers. -/
theorem toJson_laid : (laid count held near next).toJson =
    .ok (.object [("nodes", .array ((List.range count).map fun k : Nat => nodeJson k (held k))),
      ("edges", .array ((laid count held near next).edges.map edgeJson))]) := by
  rw [toJson, equations_laid, ok_bind, List.map_map]
  rfl

/-- Ids in the order of the numbers stay in order. -/
theorem sortById_range (count : Nat) (f : Nat → Json) :
    sortById ((List.range count).map fun k : Nat => (.integer k, f k)) =
      .ok ((List.range count).map fun k : Nat => (.integer k, f k)) := by
  have hkeys : ((List.range count).map fun k : Nat => (Json.integer k, f k)).filterMap
      (fun n => (numericKey? n.1).map (·, n)) =
      (List.range count).map fun k : Nat => (((k : Int) : Rat), Json.integer k, f k) := by
    rw [List.filterMap_map, ← List.filterMap_eq_map]
    exact List.filterMap_congr fun k _ => rfl
  have hsorted : ((List.range count).map fun k : Nat => (((k : Int) : Rat), Json.integer k, f k)).Pairwise
      fun a b => decide (a.1 ≤ b.1) = true := by
    rw [List.pairwise_map]
    refine List.pairwise_lt_range.imp fun hlt => ?_
    rw [decide_eq_true_iff, Rat.intCast_le_intCast]
    omega
  rw [sortById]
  simp only [hkeys, List.length_map, if_true, List.mergeSort_of_pairwise hsorted, List.map_map]
  rfl

/-- Nodes are read one after the other. -/
theorem foldlM_put (held : Int → Equation) (count : Nat) :
    ((List.range count).map fun k : Nat => (Json.integer k, nodeJson k (held k))).foldlM (fun g (id, n) => do
      let index ← indexOf id
      return put g index (← Equation.ofJson (← n.get "equation"))) empty =
      .ok (laid count (fun i => (held i).bare) (fun _ => []) 0) := by
  induction count with
  | zero => rfl
  | succ count ih =>
    have hget : (nodeJson count (held count)).get "equation" = .ok (held count).toJson := by
      simp [nodeJson, Json.get, List.lookup]
    rw [List.range_succ, List.map_append, List.foldlM_append, ih, ok_bind, List.map_singleton, List.foldlM_cons]
    simp only [indexOf, ok_bind, hget, Equation.ofJson_toJson]
    rw [put_laid rfl]
    refine congrArg Except.ok (laid_congr (fun k hk => ?_) (fun _ _ => rfl) 0)
    by_cases hlast : (k : Int) = count
    · rw [hlast, Function.update_self]
    · rw [Function.update_of_ne hlast]

/-- Edges are read one after the other. -/
theorem foldlM_addEdge (es : List (Int × Int × List String)) (g : Graph) :
    (es.map edgeJson).foldlM (fun g e => do
      let source ← indexOf (← e.get "source")
      let target ← indexOf (← e.get "target")
      return addEdge g source target (← (← e.getList "constraints").mapM Json.text)) g =
      .ok (es.foldl (fun g e => g.addEdge e.1 e.2.1 e.2.2) g) := by
  induction es generalizing g with
  | nil => rfl
  | cons e es ih =>
    obtain ⟨a, b, cs⟩ := e
    have hcs : (cs.map Json.string).mapM Json.text = .ok (cs.map id) := mapM_map_eq_ok fun _ _ => rfl
    rw [List.map_cons, List.foldlM_cons, List.foldl_cons, ← ih]
    simp [edgeJson, Json.get, Json.getList, List.lookup, Json.members, indexOf, ok_bind, hcs]

theorem nextAfter_append {ns : List GraphNode} {n : GraphNode} (h : nextAfter ns ≤ n.index + 1) :
    nextAfter (ns ++ [n]) = n.index + 1 := by
  cases ns with
  | nil => rfl
  | cons m ns =>
    rw [List.cons_append, nextAfter, List.foldl_append]
    exact max_eq_right h

/-- The next number of a graph in the order of its numbers is how many nodes there are. -/
theorem nextAfter_laid (count : Nat) : nextAfter (laid count held near next).nodes = count := by
  induction count with
  | zero => rfl
  | succ count ih =>
    rw [laid] at ih ⊢
    simp only at ih ⊢
    rw [List.range_succ, List.map_append, List.map_singleton, nextAfter_append]
    · rfl
    · rw [ih]
      exact Int.le_add_one (le_refl _)

/-- The graph with every analysis forgotten. -/
def bare (g : Graph) : Graph := ⟨g.nodes.map GraphNode.bare, g.next⟩

theorem bare_laid : (laid count held near next).bare = laid count (fun i => (held i).bare) near next := by
  rw [bare, laid, laid, List.map_map]
  rfl

/-- **The record of a grown graph is read as the graph without analyses.** -/
theorem IsGrown.ofJson_toJson {g : Graph} (h : g.IsGrown) : ∃ j, g.toJson = .ok j ∧ ofJson j = .ok g.bare := by
  obtain ⟨count, held, near, hnear, rfl⟩ := h
  refine ⟨_, toJson_laid, ?_⟩
  have hids : ((List.range count).map fun k : Nat => nodeJson k (held k)).mapM (fun n => do return (← n.get "id", n)) =
      .ok ((List.range count).map fun k : Nat => (Json.integer k, nodeJson k (held k))) :=
    mapM_map_eq_ok fun k _ => rfl
  have hnodes : ∀ nodes edges, Json.getList "nodes" (.object [("nodes", .array nodes), edges]) = .ok nodes :=
    fun _ _ => rfl
  have hedges : ∀ nodes edges, Json.getList "edges" (.object [("nodes", nodes), ("edges", .array edges)]) = .ok edges :=
    fun _ _ => rfl
  rw [ofJson, hnodes, ok_bind, hids, ok_bind, sortById_range, ok_bind, foldlM_put, ok_bind, hedges, ok_bind,
    foldlM_addEdge, ok_bind, hnear.foldl_addEdge, nextAfter_laid, bare_laid]
  rfl

end Graph

end Isolate
