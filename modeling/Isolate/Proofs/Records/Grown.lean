import Isolate.Graph.Encoding
import Isolate.Proofs.Solving.Chain
import Mathlib.Logic.Function.Basic

/-!
# Graphs that were grown

A graph is grown from nothing by requests (`Graph.respond`): nodes are added, alone or below others, and what a node
holds is replaced. Such a graph has its nodes in the order of their numbers, and so it is laid out by three things, how
many nodes there are, what each holds and what is near each (`Graph.laid`). What is near a node stands in the order of
the numbers too, as a node that is added has the largest number so far; and an edge is seen alike from both its ends
(`Graph.Meshes`).

* `Graph.IsGrown.respond`: every request leaves a graph so, also one that is refused.
* `Graph.isGrown_grow`: graphs that were grown from nothing are so.
-/

namespace Isolate.Graph

/-! ## Requests -/

/-- What is asked of a graph. -/
inductive Request where
  | addNode (q : Equation)
  | addPath (q : Equation) (conditions : List String) (parent : Int)
  | set (index : Int) (q : Equation)
  | get (index : Int)
  | contains (index : Int)
  | size
  | equations
  | edges
  | conditions (a b : Int)
  | path (source target : Int)
  | record
  | drawing

/-- What a graph answers. -/
inductive Reply where
  | done
  | number (n : Int)
  | truth (b : Bool)
  | equation (q : Equation)
  | equations (qs : List (Int × Equation))
  | edges (es : List (Int × Int × List String))
  | conditions (cs : List String)
  | path (way : List Int)
  | record (j : Json)
  | drawing (s : String)
  | refused (fault : Fault)

/-- An answer, or why there is none. -/
def Reply.of (answer : α → Reply) : Except Fault α → Reply
  | .ok a => answer a
  | .error fault => refused fault

/-- Fulfils a request. One that is refused leaves the graph as it was. -/
def respond (g : Graph) : Request → Graph × Reply
  | .addNode q => ((g.addNode q).1, .number (g.addNode q).2)
  | .addPath q conditions parent =>
    match g.addPath q conditions parent with
    | .ok (g, child) => (g, .number child)
    | .error fault => (g, .refused fault)
  | .set index q =>
    match g.set index q with
    | .ok g => (g, .done)
    | .error fault => (g, .refused fault)
  | .get index => (g, .of .equation (g.get index))
  | .contains index => (g, .truth (g.contains index))
  | .size => (g, .number g.size)
  | .equations => (g, .of .equations g.equations)
  | .edges => (g, .edges g.edges)
  | .conditions a b => (g, .of .conditions (g.conditions a b))
  | .path source target => (g, .of .path (g.path source target))
  | .record => (g, .of .record g.toJson)
  | .drawing => (g, .of .drawing g.dot)

/-- The graph that requests make of another. -/
def grow (g : Graph) (requests : List Request) : Graph := requests.foldl (fun g r => (g.respond r).1) g

/-- The answers to requests, one after the other. -/
def replies : Graph → List Request → List Reply
  | _, [] => []
  | g, r :: rs => (g.respond r).2 :: replies (g.respond r).1 rs

/-! ## Graphs in the order of their numbers -/

/-- The graph of nodes from zero on, by what each of them holds and what is near it. -/
def laid (count : Nat) (held : Int → Equation) (near : Int → List (Int × List String)) (next : Int) : Graph :=
  ⟨(List.range count).map fun k : Nat => ⟨k, some (held k), near k⟩, next⟩

variable {count : Nat} {held : Int → Equation} {near : Int → List (Int × List String)} {next i j a b : Int}
  {q : Equation} {conditions : List String}

theorem laid_congr {held' : Int → Equation} {near' : Int → List (Int × List String)}
    (hheld : ∀ k : Nat, k < count → held k = held' k) (hnear : ∀ k : Nat, k < count → near k = near' k) (next : Int) :
    laid count held near next = laid count held' near' next := by
  refine congrArg (Graph.mk · next) (List.map_congr_left fun k hk => ?_)
  rw [hheld k (List.mem_range.mp hk), hnear k (List.mem_range.mp hk)]

theorem contains_laid : (laid count held near next).contains i = true ↔ 0 ≤ i ∧ i < count := by
  rw [contains, node?, List.find?_isSome]
  simp only [laid, List.mem_map, List.mem_range, decide_eq_true_eq, exists_exists_and_eq_and]
  constructor
  · rintro ⟨k, hk, hi⟩
    omega
  · rintro ⟨h, hi⟩
    exact ⟨i.toNat, by omega, by omega⟩

theorem apart_laid : Apart count (laid count held near next).nodes := by
  intro n hn
  obtain ⟨k, hk, rfl⟩ := List.mem_map.mp hn
  have := List.mem_range.mp hk
  show (k : Int) ≠ count
  omega

/-- One node is changed in what it holds and in what is near it. -/
theorem modifyNode_laid {f : GraphNode → GraphNode} {neighbours : List (Int × List String)}
    (hf : f ⟨i, some (held i), near i⟩ = ⟨i, some q, neighbours⟩) :
    (laid count held near next).modifyNode i f =
      laid count (Function.update held i q) (Function.update near i neighbours) next := by
  rw [modifyNode, laid, laid, List.map_map]
  refine congrArg (Graph.mk · next) (List.map_congr_left fun k _ => ?_)
  by_cases hk : (k : Int) = i
  · subst hk
    simp [hf]
  · simp [hk]

/-- What is held is replaced at one node. -/
theorem modifyNode_held (i : Int) (q : Equation) :
    (laid count held near next).modifyNode i (fun n => { n with equation := some q }) =
      laid count (Function.update held i q) near next := by
  rw [modifyNode_laid rfl, Function.update_eq_self]

/-- What is near is changed at one node. -/
theorem modifyNode_near (i : Int) (f : List (Int × List String) → List (Int × List String)) :
    (laid count held near next).modifyNode i (fun n => { n with neighbours := f n.neighbours }) =
      laid count held (Function.update near i (f (near i))) next := by
  rw [modifyNode_laid rfl, Function.update_eq_self]

/-- A node with the next number comes last. -/
theorem put_laid (hnear : near count = []) (q : Equation) :
    (laid count held near next).put count q = laid (count + 1) (Function.update held count q) near next := by
  have hold : laid count held near next = laid count (Function.update held count q) near next :=
    laid_congr (fun k hk => (Function.update_of_ne (by omega) ..).symm) (fun _ _ => rfl) next
  rw [show laid count held near next = ⟨(laid count held near next).nodes, next⟩ from rfl, put_of_apart apart_laid]
  rw [hold, laid, laid, List.range_succ, List.map_append]
  simp [hnear]

theorem addNode_laid (hnear : near count = []) (q : Equation) :
    (laid count held near count).addNode q =
      (laid (count + 1) (Function.update held count q) near (count + 1 : Nat), (count : Int)) := by
  rw [addNode, show (laid count held near count).next = count from rfl, put_laid hnear]
  rfl

/-- The neighbour that an edge gives to a node, with the conditions on the way. -/
def across (i : Int) : Int × Int × List String → Option (Int × List String)
  | (a, b, conditions) => if i = a then some (b, conditions) else if i = b then some (a, conditions) else none

/-- What is near once an edge is stated. -/
def joined (near : Int → List (Int × List String)) (e : Int × Int × List String) (i : Int) : List (Int × List String) :=
  match across i e with
  | some (j, conditions) => setNeighbour j conditions (near i)
  | none => near i

theorem addEdge_laid (ha : 0 ≤ a ∧ a < count) (hb : 0 ≤ b ∧ b < count) (hne : a ≠ b) (conditions : List String) :
    (laid count held near next).addEdge a b conditions =
      laid count held (joined near (a, b, conditions)) next := by
  rw [addEdge, ensure_eq_self (contains_laid.mpr ha), ensure_eq_self (contains_laid.mpr hb)]
  simp only
  rw [modifyNode_near, modifyNode_near]
  refine congrArg (laid count held · next) (funext fun i => ?_)
  rw [Function.update_of_ne hne.symm]
  by_cases hib : i = b
  · subst hib
    simp [joined, across, hne.symm]
  · rw [Function.update_of_ne hib]
    by_cases hia : i = a
    · subst hia
      simp [joined, across]
    · simp [joined, across, hia, hib]

/-- An edge to larger numbers than were near before adds them at the end. -/
theorem joined_of_lt {e : Int × Int × List String} (h : ∀ p ∈ near i, ∀ r ∈ across i e, p.1 < r.1) :
    joined near e i = near i ++ (across i e).toList := by
  unfold joined
  split
  · rename_i j conditions he
    rw [he, setNeighbour_of_lt fun p hp => h p hp _ he]
    rfl
  · rename_i he
    rw [he, Option.toList_none, List.append_nil]

theorem across_eq_some (hne : a ≠ b) {p : Int × List String} :
    across i (a, b, conditions) = some p ↔ i = a ∧ p = (b, conditions) ∨ i = b ∧ p = (a, conditions) := by
  by_cases ha : i = a
  · simp [across, ha, hne, eq_comm]
  · simp [across, ha, eq_comm]

/-! ## What is near, seen from both ends -/

/-- What is near each node stands in the order of the numbers, and is seen alike from the other end. -/
structure Meshes (count : Nat) (near : Int → List (Int × List String)) : Prop where
  increasing : ∀ i, (near i).Pairwise fun p r => p.1 < r.1
  returned : ∀ {i j conditions}, (j, conditions) ∈ near i → (i, conditions) ∈ near j
  apart : ∀ {i j conditions}, (j, conditions) ∈ near i → j ≠ i
  within : ∀ {i j conditions}, (j, conditions) ∈ near i → 0 ≤ i ∧ i < count

namespace Meshes

theorem nil : Meshes 0 fun _ => [] where
  increasing _ := .nil
  returned h := nomatch h
  apart h := nomatch h
  within h := nomatch h

/-- Nothing is near what is not there. -/
theorem eq_nil (h : Meshes count near) : near count = [] := by
  refine List.eq_nil_iff_forall_not_mem.mpr fun p hp => ?_
  have := h.within (j := p.1) hp
  omega

/-- A node that is added is near nothing. -/
theorem succ (h : Meshes count near) : Meshes (count + 1) near :=
  ⟨h.increasing, h.returned, h.apart, fun hp => by have := h.within hp; omega⟩

/-- A node that is added below another one is near to it, and to nothing else. -/
theorem addPath (h : Meshes count near) (ha : 0 ≤ a ∧ a < count) (conditions : List String) :
    Meshes (count + 1) (joined near (a, count, conditions)) := by
  have hne : a ≠ count := by omega
  have hlt : ∀ {i}, ∀ p ∈ near i, ∀ r ∈ across i (a, count, conditions), p.1 < r.1 := by
    intro i p hp r hr
    rcases (across_eq_some hne).mp hr with ⟨-, rfl⟩ | ⟨rfl, -⟩
    · exact (h.within (h.returned hp)).2
    · rw [h.eq_nil] at hp
      cases hp
  have hmem : ∀ {i p}, p ∈ joined near (a, count, conditions) i ↔
      p ∈ near i ∨ i = a ∧ p = ((count : Int), conditions) ∨ i = count ∧ p = (a, conditions) := by
    intro i p
    rw [joined_of_lt hlt, List.mem_append, Option.mem_toList, across_eq_some hne]
  constructor
  case increasing =>
    intro i
    rw [joined_of_lt hlt, List.pairwise_append]
    refine ⟨h.increasing i, ?_, fun p hp r hr => hlt p hp r (Option.mem_toList.mp hr)⟩
    cases across i (a, count, conditions) with
    | none => exact .nil
    | some r => exact List.pairwise_singleton ..
  case returned =>
    intro i j cs hp
    rcases hmem.mp hp with hp | ⟨rfl, hpair⟩ | ⟨rfl, hpair⟩
    · exact hmem.mpr (.inl (h.returned hp))
    · obtain ⟨rfl, rfl⟩ := Prod.mk.inj hpair
      exact hmem.mpr (.inr (.inr ⟨rfl, rfl⟩))
    · obtain ⟨rfl, rfl⟩ := Prod.mk.inj hpair
      exact hmem.mpr (.inr (.inl ⟨rfl, rfl⟩))
  case apart =>
    intro i j cs hp
    rcases hmem.mp hp with hp | ⟨rfl, hpair⟩ | ⟨rfl, hpair⟩
    · exact h.apart hp
    · rw [(Prod.mk.inj hpair).1]
      exact hne.symm
    · rw [(Prod.mk.inj hpair).1]
      exact hne
  case within =>
    intro i j cs hp
    rcases hmem.mp hp with hp | ⟨rfl, -⟩ | ⟨rfl, -⟩
    · have := h.within hp
      omega
    · omega
    · omega

end Meshes

/-! ## Grown graphs -/

/-- The nodes stand in the order of their numbers and hold equations, and edges are seen alike from both ends. -/
def IsGrown (g : Graph) : Prop :=
  ∃ (count : Nat) (held : Int → Equation) (near : Int → List (Int × List String)),
    Meshes count near ∧ g = laid count held near count

theorem isGrown_empty : empty.IsGrown := ⟨0, fun _ => default, fun _ => [], .nil, rfl⟩

namespace IsGrown

variable {g : Graph}

theorem addNode (h : g.IsGrown) (q : Equation) : (g.addNode q).1.IsGrown := by
  obtain ⟨count, held, near, hnear, rfl⟩ := h
  rw [addNode_laid hnear.eq_nil]
  exact ⟨count + 1, _, near, hnear.succ, rfl⟩

theorem addPath (h : g.IsGrown) {g' : Graph} {child : Int} (hadd : g.addPath q conditions a = .ok (g', child)) :
    g'.IsGrown := by
  obtain ⟨count, held, near, hnear, rfl⟩ := h
  unfold Graph.addPath at hadd
  split at hadd
  · rename_i ha
    have ha := contains_laid.mp ha
    rw [addNode_laid hnear.eq_nil] at hadd
    obtain ⟨rfl, -⟩ := Prod.mk.inj (Except.ok.inj hadd)
    rw [addEdge_laid (by omega) (by omega) (by omega)]
    exact ⟨count + 1, _, _, hnear.addPath ha conditions, rfl⟩
  · cases hadd

theorem set (h : g.IsGrown) {g' : Graph} (hset : g.set i q = .ok g') : g'.IsGrown := by
  obtain ⟨count, held, near, hnear, rfl⟩ := h
  unfold Graph.set at hset
  split at hset
  · obtain rfl := Except.ok.inj hset
    rw [modifyNode_held]
    exact ⟨count, _, near, hnear, rfl⟩
  · cases hset

/-- **A request leaves a graph grown**, fulfilled or not. -/
theorem respond (h : g.IsGrown) (r : Request) : (g.respond r).1.IsGrown := by
  cases r with
  | addNode q => exact h.addNode q
  | addPath q conditions parent =>
    rw [Graph.respond]
    split
    · exact h.addPath ‹_›
    · exact h
  | set index q =>
    rw [Graph.respond]
    split
    · exact h.set ‹_›
    · exact h
  | _ => exact h

/-- What requests make of a grown graph is grown. -/
theorem grow (h : g.IsGrown) (requests : List Request) : (g.grow requests).IsGrown := by
  induction requests generalizing g with
  | nil => exact h
  | cons r requests ih => exact ih (h.respond r)

end IsGrown

/-- **Graphs that were grown from nothing** have their nodes in order and their edges seen alike from both ends. -/
theorem isGrown_grow (requests : List Request) : (empty.grow requests).IsGrown := isGrown_empty.grow requests

end Isolate.Graph
