import Isolate.Proofs.Solving.Frame
import Isolate.Proofs.Solving.Growth

/-!
# The path to a leaf

In a tree there is one way up from every node to the root (`Graph.Lineage`). The search for a path goes one edge further
from the root in every round, and its queue holds the ways up from the nodes that are so far away (`Graph.Frontier`), so
the path that it finds is the way up, turned around (`Graph.HasParents.path_eq`). Going down this path, the conditions
of each edge that are not known yet are put behind those that are (`Solved.gather_eq_ok`).

* `Solved.Reports`: what a path with its conditions tells of the edges that it takes.
* `Equation.solve_reports`: every leaf of a solved graph has such a path.
-/

namespace Isolate

namespace Graph

variable {g : Graph} {parents : List Int} {i j : Int} {way : List Int}

/-! ## Ways up -/

/-- The way up from a node to the root, the node first. -/
inductive Lineage (parents : List Int) : Int → List Int → Prop
  | root : Lineage parents 0 [0]
  | under {p : Int} {k : Nat} {way : List Int} (hway : Lineage parents p way) (hk : parents[k]? = some p) :
      Lineage parents (k + 1) ((k + 1) :: way)

namespace Lineage

theorem head?_eq (h : Lineage parents j way) : way.head? = some j := by cases h <;> rfl

theorem getLast?_eq (h : Lineage parents j way) : way.getLast? = some 0 := by
  induction h with
  | root => rfl
  | under hway hk ih => rw [List.getLast?_cons, ih, Option.getD_some]

/-- A node has one way up only. -/
theorem unique (h : Lineage parents j way) {way' : List Int} (h' : Lineage parents j way') : way = way' := by
  induction h generalizing way' with
  | root =>
    generalize hj : (0 : Int) = j at h'
    cases h' with
    | root => rfl
    | under => omega
  | @under p k way hway hk ih =>
    generalize hj : (k : Int) + 1 = j at h'
    cases h' with
    | root => omega
    | @under p' k' way' hway' hk' =>
      obtain rfl : k = k' := by omega
      obtain rfl := Option.some.inj (hk.symm.trans hk')
      rw [ih hway']

/-- Every step of the way up goes from a node to the one that it is below. -/
theorem isChain (h : Lineage parents j way) :
    way.IsChain fun b a => ∃ k : Nat, b = (k : Int) + 1 ∧ parents[k]? = some a := by
  induction h with
  | root => exact .singleton 0
  | @under p k way hway hk ih =>
    refine List.isChain_cons.mpr ⟨fun a ha => ?_, ih⟩
    obtain rfl := Option.some.inj (hway.head?_eq.symm.trans ha)
    exact ⟨k, rfl, hk⟩

theorem le_length (h : Lineage parents j way) : 0 ≤ j ∧ j ≤ parents.length := by
  cases h with
  | root => omega
  | under hway hk =>
    have := (List.getElem?_eq_some_iff.mp hk).1
    omega

/-- The numbers get smaller on the way up, so it is not longer than the number of the node allows. -/
theorem length_le (h : Lineage parents j way) (hup : IsUpward parents) : way.length ≤ j + 1 := by
  induction h with
  | root => rfl
  | @under p k way hway hk ih =>
    have := hup k p hk
    rw [List.length_cons]
    omega

end Lineage

theorem exists_lineage (hup : IsUpward parents) (h0 : 0 ≤ j) (hj : j ≤ parents.length) :
    ∃ way, Lineage parents j way := by
  obtain ⟨n, rfl⟩ := Int.eq_ofNat_of_zero_le h0
  induction n using Nat.strong_induction_on with
  | h n ih =>
    cases n with
    | zero => exact ⟨[0], .root⟩
    | succ k =>
      have hk : parents[k]? = some parents[k] := List.getElem?_eq_getElem (by omega)
      have hp := hup k _ hk
      obtain ⟨p, hpk⟩ := Int.eq_ofNat_of_zero_le hp.1
      rw [hpk] at hp hk
      obtain ⟨way, hway⟩ := ih p (by omega) (by omega) (by omega)
      exact ⟨_, .under hway hk⟩

/-! ## A round of the search -/

/-- The node `j` is a neighbour of the one that the way has come to. -/
def Prolongs (g : Graph) (way : List Int) (j : Int) : Prop :=
  ∃ i n, way.head? = some i ∧ g.node? i = some n ∧ j ∈ n.neighbours.map (·.1)

/-- What a round makes of the nodes that have been seen and of the ways in the queue: the ways are prolonged by what
has not been seen, and nothing is left out. -/
structure Prolonged (g : Graph) (seen : List Int) (queue : List (List Int)) (seen' : List Int)
    (longer : List (List Int)) : Prop where
  made : ∀ w ∈ longer, ∃ way ∈ queue, ∃ j, w = j :: way ∧ g.Prolongs way j ∧ j ∉ seen
  complete : ∀ way ∈ queue, ∀ j, g.Prolongs way j → j ∈ seen ∨ ∃ w ∈ longer, w.head? = some j
  seen_iff : ∀ j, j ∈ seen' ↔ j ∈ seen ∨ ∃ w ∈ longer, w.head? = some j

/-- The nodes by which a way is prolonged. -/
def unseen (g : Graph) (seen way : List Int) : List Int :=
  match way.head?.bind g.node? with
  | some n => (n.neighbours.map (·.1)).filter fun i => !seen.contains i
  | none => []

theorem mem_unseen {seen : List Int} : j ∈ g.unseen seen way ↔ g.Prolongs way j ∧ j ∉ seen := by
  unfold unseen Prolongs
  cases way.head? with
  | none => simp
  | some i => cases h : g.node? i <;> simp [h]

theorem prolong_cons (g : Graph) (seen way : List Int) (queue : List (List Int)) :
    g.prolong seen (way :: queue) = ((g.prolong (seen ++ g.unseen seen way) queue).1,
      (g.unseen seen way).map (· :: way) ++ (g.prolong (seen ++ g.unseen seen way) queue).2) := rfl

theorem prolonged_prolong (g : Graph) (seen : List Int) (queue : List (List Int)) :
    g.Prolonged seen queue (g.prolong seen queue).1 (g.prolong seen queue).2 := by
  induction queue generalizing seen with
  | nil => exact ⟨List.forall_mem_nil _, List.forall_mem_nil _, fun j => by simp [prolong]⟩
  | cons way queue ih =>
    obtain ⟨hmade, hcomplete, hseen⟩ := ih (seen ++ g.unseen seen way)
    have hhead : ∀ j, (∃ w ∈ (g.prolong seen (way :: queue)).2, w.head? = some j) ↔
        j ∈ g.unseen seen way ∨ ∃ w ∈ (g.prolong (seen ++ g.unseen seen way) queue).2, w.head? = some j := by
      intro j
      rw [prolong_cons]
      simp only [List.mem_append, or_and_right, exists_or, List.mem_map, exists_exists_and_eq_and, List.head?_cons,
        Option.some.injEq, exists_eq_right]
    refine ⟨fun w hw => ?_, fun w hw j hj => ?_, fun j => ?_⟩
    · rcases List.mem_append.mp hw with hw | hw
      · obtain ⟨j, hj, rfl⟩ := List.mem_map.mp hw
        obtain ⟨hj, hnot⟩ := mem_unseen.mp hj
        exact ⟨way, List.mem_cons_self, j, rfl, hj, hnot⟩
      · obtain ⟨way', hway', j, rfl, hj, hnot⟩ := hmade w hw
        exact ⟨way', List.mem_cons_of_mem _ hway', j, rfl, hj, fun h => hnot (List.mem_append_left _ h)⟩
    · rw [hhead]
      rcases List.mem_cons.mp hw with rfl | hw
      · by_cases hseen : j ∈ seen
        · exact .inl hseen
        · exact .inr (.inl (mem_unseen.mpr ⟨hj, hseen⟩))
      · rcases hcomplete w hw j hj with hj | hj
        · exact (List.mem_append.mp hj).imp_right .inl
        · exact .inr (.inr hj)
    · rw [hhead, prolong_cons, hseen, List.mem_append, or_assoc]

/-! ## The search in a tree -/

/-- After so many rounds, the queue holds all ways up that are that long, and what has been seen is not further away. -/
structure Frontier (parents : List Int) (rounds : Nat) (seen : List Int) (queue : List (List Int)) : Prop where
  mem_queue : ∀ way, way ∈ queue ↔ (∃ j, Lineage parents j way) ∧ way.length = rounds + 1
  mem_seen : ∀ j, j ∈ seen ↔ ∃ way, Lineage parents j way ∧ way.length ≤ rounds + 1

theorem Lineage.length_pos (h : Lineage parents j way) : 0 < way.length := by cases h <;> simp

theorem frontier_root (parents : List Int) : Frontier parents 0 [0] [[0]] := by
  have hone : ∀ {j way}, Lineage parents j way → way.length = 1 → j = 0 ∧ way = [0] := by
    intro j way h hlen
    cases h with
    | root => exact ⟨rfl, rfl⟩
    | under hway hk =>
      have := hway.length_pos
      rw [List.length_cons] at hlen
      omega
  refine ⟨fun way => ?_, fun j => ?_⟩
  · rw [List.mem_singleton]
    constructor
    · rintro rfl
      exact ⟨⟨0, .root⟩, rfl⟩
    · rintro ⟨⟨j, h⟩, hlen⟩
      exact (hone h hlen).2
  · rw [List.mem_singleton]
    constructor
    · rintro rfl
      exact ⟨[0], .root, le_rfl⟩
    · rintro ⟨way, h, hlen⟩
      have := h.length_pos
      exact (hone h (by omega)).1

namespace HasParents

/-- The neighbours of a node in a tree are the node that it is below and those that are below it. -/
theorem neighbours_eq (h : g.HasParents parents) {n : GraphNode} (hn : g.node? i = some n) :
    ∃ k : Nat, i = k ∧ n.neighbours.map (·.1) = above parents k ++ below parents k := by
  have hmem : (n.index, n.neighbours.map Prod.fst) ∈ g.skeleton :=
    List.mem_map_of_mem (List.mem_of_find?_eq_some hn)
  rw [h.skeleton_eq, index_of_node? hn] at hmem
  obtain ⟨k, -, hk⟩ := List.mem_map.mp hmem
  rw [treeNode, Prod.mk.injEq] at hk
  obtain ⟨rfl, hk⟩ := hk
  exact ⟨k, rfl, hk.symm⟩

theorem size_eq (h : g.HasParents parents) : g.size = parents.length + 1 := by
  have := congrArg List.length h.skeleton_eq
  rwa [skeleton, List.length_map, List.length_map, List.length_range] at this

theorem exists_node? (h : g.HasParents parents) (h0 : 0 ≤ i) (hi : i ≤ parents.length) : ∃ n, g.node? i = some n :=
  Option.isSome_iff_exists.mp (h.contains_iff.mpr ⟨h0, hi⟩)

/-- A way up goes on by an edge from its node: to the node that this is below, or to one that is below it. -/
theorem prolongs_iff (h : g.HasParents parents) (hway : Lineage parents i way) :
    g.Prolongs way j ↔ (∃ k : Nat, i = k + 1 ∧ parents[k]? = some j) ∨ ∃ k : Nat, j = k + 1 ∧ parents[k]? = some i := by
  obtain ⟨h0, hi⟩ := hway.le_length
  obtain ⟨n, hn⟩ := h.exists_node? h0 hi
  obtain ⟨l, rfl, hneighbours⟩ := h.neighbours_eq hn
  have hprolongs : g.Prolongs way j ↔ j ∈ n.neighbours.map (·.1) := by
    unfold Prolongs
    constructor
    · rintro ⟨i', n', hhead, hn', hj⟩
      obtain rfl := Option.some.inj (hway.head?_eq.symm.trans hhead)
      obtain rfl := Option.some.inj (hn.symm.trans hn')
      exact hj
    · exact fun hj => ⟨l, n, hway.head?_eq, hn, hj⟩
  rw [hprolongs, hneighbours, List.mem_append, mem_above, mem_below]
  refine or_congr_left (exists_congr fun k => and_congr_left fun _ => ?_)
  omega

/-- **A round of the search takes the queue one edge further away** from the root. -/
theorem frontier_prolong (h : g.HasParents parents) {rounds : Nat} {seen : List Int} {queue : List (List Int)}
    (hfrontier : Frontier parents rounds seen queue) :
    Frontier parents (rounds + 1) (g.prolong seen queue).1 (g.prolong seen queue).2 := by
  obtain ⟨hqueue, hseen⟩ := hfrontier
  obtain ⟨hmade, hcomplete, hnext⟩ := g.prolonged_prolong seen queue
  have hlonger : ∀ w ∈ (g.prolong seen queue).2, (∃ j, Lineage parents j w) ∧ w.length = rounds + 1 + 1 := by
    intro w hw
    obtain ⟨way, hway, j, rfl, hj, hnot⟩ := hmade w hw
    obtain ⟨⟨i, hup⟩, hlen⟩ := (hqueue way).mp hway
    refine ⟨?_, congrArg (· + 1) hlen⟩
    rcases (h.prolongs_iff hup).mp hj with ⟨k, rfl, hk⟩ | ⟨k, rfl, hk⟩
    · -- the node above has been seen a round before
      generalize hi : (k : Int) + 1 = i at hup
      cases hup with
      | root => omega
      | @under p k' way' hup' hk' =>
        obtain rfl : k = k' := by omega
        obtain rfl := Option.some.inj (hk.symm.trans hk')
        rw [List.length_cons] at hlen
        exact absurd ((hseen j).mpr ⟨way', hup', by omega⟩) hnot
    · exact ⟨_, .under hup hk⟩
  have hhead : ∀ {j w}, Lineage parents j w → w.length = rounds + 1 + 1 → w ∈ (g.prolong seen queue).2 := by
    intro j w hw hlen
    cases hw with
    | root => simp at hlen
    | @under p k way hup hk =>
      have hway := (hqueue way).mpr ⟨⟨p, hup⟩, Nat.succ.inj hlen⟩
      rcases hcomplete way hway (k + 1) ((h.prolongs_iff hup).mpr (.inr ⟨k, rfl, hk⟩)) with hold | ⟨w, hw, hw1⟩
      · obtain ⟨w, hw, hle⟩ := (hseen _).mp hold
        rw [← (Lineage.under hup hk).unique hw] at hle
        omega
      · obtain ⟨⟨j, hj⟩, -⟩ := hlonger w hw
        obtain rfl := Option.some.inj (hj.head?_eq.symm.trans hw1)
        rwa [(Lineage.under hup hk).unique hj]
  refine ⟨fun w => ⟨hlonger w, fun ⟨⟨j, hj⟩, hlen⟩ => hhead hj hlen⟩, fun j => ?_⟩
  rw [hnext, hseen]
  constructor
  · rintro (⟨w, hw, hle⟩ | ⟨w, hw, hw1⟩)
    · exact ⟨w, hw, by omega⟩
    · obtain ⟨⟨j', hj⟩, hlen⟩ := hlonger w hw
      obtain rfl := Option.some.inj (hj.head?_eq.symm.trans hw1)
      exact ⟨w, hj, hlen.le⟩
  · rintro ⟨w, hw, hle⟩
    rcases hle.eq_or_lt with hlen | hlt
    · exact .inr ⟨w, hhead hw hlen, hw.head?_eq⟩
    · exact .inl ⟨w, hw, by omega⟩

/-- The search finds the way up from a node that is not nearer to the root than the queue. -/
theorem searchPath_eq (h : g.HasParents parents) (hway : Lineage parents j way) {fuel rounds : Nat} {seen : List Int}
    {queue : List (List Int)} (hfrontier : Frontier parents rounds seen queue) (hfar : rounds + 1 ≤ way.length)
    (hfuel : way.length ≤ rounds + fuel) : g.searchPath j fuel seen queue = some way := by
  induction fuel generalizing rounds seen queue with
  | zero => omega
  | succ fuel ih =>
    have hhead : ∀ w ∈ queue, w.head? = some j → w = way := by
      intro w hw hwj
      obtain ⟨⟨i, hi⟩, -⟩ := (hfrontier.mem_queue w).mp hw
      obtain rfl := Option.some.inj (hi.head?_eq.symm.trans hwj)
      exact hi.unique hway
    rw [searchPath]
    split
    · rename_i w hfind
      exact congrArg some (hhead w (List.mem_of_find?_eq_some hfind) (by simpa using List.find?_some hfind))
    · rename_i hnone
      refine ih (h.frontier_prolong hfrontier) ?_ (by omega)
      rcases hfar.eq_or_lt with hlen | hlt
      · have hmem := (hfrontier.mem_queue way).mpr ⟨⟨j, hway⟩, hlen.symm⟩
        simpa [hway.head?_eq] using List.find?_eq_none.mp hnone way hmem
      · omega

/-- **The path from the root to a node of a tree is the way up**, turned around. -/
theorem path_eq (h : g.HasParents parents) (hway : Lineage parents j way) : g.path 0 j = .ok way.reverse := by
  have hroot : g.contains 0 = true := h.contains_iff.mpr (by omega)
  have hsize := h.size_eq
  have hlen := hway.length_le h.upward
  have hj := hway.le_length
  have hsearch : g.searchPath j (g.size + 1) [0] [[0]] = some way :=
    h.searchPath_eq hway (frontier_root parents) hway.length_pos (by omega)
  rw [path, hroot, h.contains_iff.mpr hj, Bool.and_true, if_pos rfl, hsearch]

/-- What is stated on the way down from a node to one right below. -/
theorem exists_conditions (h : g.HasParents parents) {k : Nat} (hk : parents[k]? = some i) :
    ∃ stated, g.conditions i (k + 1) = .ok stated := by
  obtain ⟨h0, hi⟩ := h.upward k i hk
  have hlt := (List.getElem?_eq_some_iff.mp hk).1
  obtain ⟨n, hn⟩ := h.exists_node? h0 (by omega)
  obtain ⟨l, rfl, hneighbours⟩ := h.neighbours_eq hn
  have hmem : (k : Int) + 1 ∈ n.neighbours.map (·.1) := by
    rw [hneighbours]
    exact List.mem_append_right _ (mem_below.mpr ⟨k, rfl, hk⟩)
  have hlookup : n.neighbours.lookup ((k : Int) + 1) ≠ none := by
    rw [Ne, List.lookup_eq_none_iff]
    obtain ⟨p, hp, hpk⟩ := List.mem_map.mp hmem
    exact fun hnone => by simpa [hpk] using hnone p hp
  obtain ⟨stated, hstated⟩ := Option.ne_none_iff_exists'.mp hlookup
  exact ⟨stated, by rw [conditions, hn, Option.bind_some, hstated]⟩

end HasParents

end Graph

/-! ## The conditions on the way down -/

namespace Solved

variable {g : Graph} {i : Int} {known : List String} {rest : List Int} {p last : Int × List String}
  {path : List (Int × List String)}

/-- From a node of a path to the next one, the conditions on the edge that are not known yet are put behind those that
are. -/
def Gathers (g : Graph) (p p' : Int × List String) : Prop :=
  ∃ stated news, g.conditions p.1 p'.1 = .ok stated ∧ p'.2 = p.2 ++ news ∧ ∀ c, c ∈ news ↔ c ∈ stated ∧ c ∉ p.2

/-- Going down along edges gathers their conditions. -/
theorem gather_eq_ok (h : (i :: rest).IsChain fun a b => ∃ stated, g.conditions a b = .ok stated)
    (known : List String) : ∃ path, gather g i known rest = .ok path ∧ path.map (·.1) = rest ∧
      ((i, known) :: path).IsChain (Gathers g) := by
  induction rest generalizing i known with
  | nil => exact ⟨[], rfl, rfl, .singleton _⟩
  | cons j rest ih =>
    obtain ⟨⟨stated, hstated⟩, hrest⟩ := List.isChain_cons_cons.mp h
    obtain ⟨path, hpath, hnodes, hchain⟩ := ih hrest (known ++ stated.filter fun c => !known.contains c)
    refine ⟨(j, known ++ stated.filter fun c => !known.contains c) :: path, ?_, congrArg (j :: ·) hnodes,
      List.isChain_cons_cons.mpr ⟨⟨stated, _, hstated, rfl, fun c => ?_⟩, hchain⟩⟩
    · rw [gather, hstated]
      show (do return (j, _) :: (← gather g j _ rest) : Except Fault (List (Int × List String))) = _
      rw [hpath]
      rfl
    · simp

/-- At the end of a path, those conditions are known that were at its beginning, and those that an edge states. -/
theorem mem_last_iff (h : (p :: path).IsChain (Gathers g)) (hlast : (p :: path).getLast? = some last) (c : String) :
    c ∈ last.2 ↔ c ∈ p.2 ∨ ∃ a b stated, [a, b] <:+: (p :: path).map (·.1) ∧ g.conditions a b = .ok stated ∧
      c ∈ stated := by
  induction path generalizing p with
  | nil =>
    obtain rfl := Option.some.inj hlast
    refine ⟨.inl, ?_⟩
    rintro (hc | ⟨a, b, stated, hpair, -⟩)
    · exact hc
    · have := hpair.length_le
      simp at this
  | cons p' path ih =>
    obtain ⟨⟨stated, news, hstated, hp', hnews⟩, hrest⟩ := List.isChain_cons_cons.mp h
    rw [List.getLast?_cons_cons] at hlast
    rw [ih hrest hlast, hp', List.mem_append, hnews]
    have hpair : ∀ a b, [a, b] <:+: (p :: p' :: path).map (·.1) ↔
        a = p.1 ∧ b = p'.1 ∨ [a, b] <:+: (p' :: path).map (·.1) := by
      intro a b
      rw [List.map_cons, List.infix_cons_iff, List.map_cons, List.cons_prefix_cons, List.cons_prefix_cons]
      simp
    have hfirst : (∃ a b stated, (a = p.1 ∧ b = p'.1) ∧ g.conditions a b = .ok stated ∧ c ∈ stated) ↔ c ∈ stated := by
      constructor
      · rintro ⟨a, b, stated', ⟨rfl, rfl⟩, hstated', hc⟩
        rwa [Except.ok.inj (hstated.symm.trans hstated')]
      · exact fun hc => ⟨_, _, stated, ⟨rfl, rfl⟩, hstated, hc⟩
    simp only [hpair, or_and_right, exists_or, hfirst]
    by_cases hc : c ∈ p.2 <;> simp [hc]

/-- What the path to a leaf tells: the nodes from the root to the leaf, each with the conditions that are known there.
Every condition on an edge of the path is known at the end, and nothing else is. -/
structure Reports (s : Solved) (leaf : Int) (path : List (Int × List String)) : Prop where
  first : path.head? = some (s.root, [])
  last : path.getLast?.map (·.1) = some leaf
  increasing : (path.map (·.1)).Pairwise (· < ·)
  joined : (path.map (·.1)).IsChain s.graph.Joins
  gathers : path.IsChain (Gathers s.graph)
  known : ∀ p, path.getLast? = some p → ∀ c, c ∈ p.2 ↔
    ∃ a b stated, [a, b] <:+: path.map (·.1) ∧ s.graph.conditions a b = .ok stated ∧ c ∈ stated

/-- In a tree, the path to a node is the way up, turned around, with the conditions of its edges. -/
theorem exists_path {parents way : List Int} {j : Int} (h : g.HasParents parents)
    (hway : Graph.Lineage parents j way) (leaves : List Int) :
    ∃ path, (⟨g, 0, leaves⟩ : Solved).path j = .ok path ∧ (⟨g, 0, leaves⟩ : Solved).Reports j path := by
  obtain ⟨rest, hrest⟩ : ∃ rest, way.reverse = 0 :: rest := by
    have hhead : way.reverse.head? = some 0 := by rw [List.head?_reverse, hway.getLast?_eq]
    exact List.head?_eq_some_iff.mp hhead
  have hdown : (0 :: rest).IsChain fun a b => ∃ k : Nat, b = (k : Int) + 1 ∧ parents[k]? = some a := by
    rw [← hrest, List.isChain_reverse]
    exact hway.isChain
  have hstated : (0 :: rest).IsChain fun a b => ∃ stated, g.conditions a b = .ok stated := by
    refine hdown.imp ?_
    rintro a b ⟨k, rfl, hk⟩
    exact h.exists_conditions hk
  have hlt : (0 :: rest).IsChain (· < ·) := by
    refine hdown.imp ?_
    rintro a b ⟨k, rfl, hk⟩
    have := h.upward k a hk
    omega
  obtain ⟨path, hpath, hnodes, hchain⟩ := gather_eq_ok hstated []
  have hmap : ((0, []) :: path).map (·.1) = 0 :: rest := congrArg (0 :: ·) hnodes
  have hlast : (0 :: rest).getLast? = some j := by rw [← hrest, List.getLast?_reverse, hway.head?_eq]
  refine ⟨(0, []) :: path, ?_, rfl, ?_, ?_, ?_, hchain, fun p hp c => ?_⟩
  · rw [Solved.path, h.path_eq hway, hrest]
    show (do return (0, []) :: (← gather g 0 [] rest) : Except Fault (List (Int × List String))) = _
    rw [hpath]
    rfl
  · rw [← List.getLast?_map, hmap, hlast]
  · rw [hmap]
    exact hlt.pairwise
  · rw [hmap]
    refine hdown.imp ?_
    rintro a b ⟨k, rfl, hk⟩
    exact h.joins_iff.mpr ⟨k, a, hk, .inr ⟨rfl, rfl⟩⟩
  · rw [mem_last_iff hchain hp c]
    simp

end Solved

/-! ## Solving -/

namespace Equation

/-- **Every leaf of a solved graph has a path** from the root on, and this reports all conditions of its edges. -/
theorem solve_reports {task : Search.Task} {q : Equation} {s : Solved} (h : (q.solve task).1 = .ok s) {leaf : Int}
    (hleaf : leaf ∈ s.leaves) : ∃ path, s.path leaf = .ok path ∧ s.Reports leaf path := by
  obtain ⟨m, hrun, hs⟩ := gives_of_solve h
  obtain ⟨parents, hparents, hgrows⟩ := Search.gives_expand_grows task _ (.single q) ⟨le_rfl, le_rfl⟩ hrun
  rw [List.nil_append] at hparents
  have hin : 0 ≤ leaf ∧ leaf ≤ parents.length := by
    have := ((hgrows.mem_iff leaf).mp hleaf).1
    rw [List.mem_singleton, List.nil_append, List.length_nil] at this
    omega
  obtain ⟨way, hway⟩ := Graph.exists_lineage hparents.upward hin.1 hin.2
  rw [hs]
  exact Solved.exists_path hparents hway s.leaves

/-- The equation `c() * exp(c() * x) = y`, for which `c()` is divided by twice. -/
def repeatedDivisor : Equation :=
  ⟨[(Expr.call "c" []).mul (.call "exp" [(Expr.call "c" []).mul (.var "x")]), .var "y"]⟩

theorem solve_reports_repeatedDivisor :
    ∃ s path, (repeatedDivisor.solve ⟨[.applyInverse], .default, some "x"⟩).1 = .ok s ∧ 4 ∈ s.leaves ∧
      s.path 4 = .ok path ∧ s.Reports 4 path := by
  have hrun : (repeatedDivisor.solve ⟨[.applyInverse], .default, some "x"⟩).1.map (·.leaves) = .ok [4] := by cbv
  cases hs : (repeatedDivisor.solve ⟨[.applyInverse], .default, some "x"⟩).1 with
  | error fault =>
    rw [hs] at hrun
    cases hrun
  | ok s =>
    rw [hs] at hrun
    have hleaves : s.leaves = [4] := Except.ok.inj hrun
    have hleaf : 4 ∈ s.leaves := by simp [hleaves]
    obtain ⟨path, hpath, hreports⟩ := solve_reports hs hleaf
    exact ⟨s, path, rfl, hleaf, hpath, hreports⟩

end Equation

end Isolate
