import Isolate.Graph.Basic
import Mathlib.Data.Int.Order.Basic
import Mathlib.Data.List.Infix

/-!
# Chains of nodes

A *chain* is a graph whose nodes stand one below the other, numbered from zero on (`Graph.chain`); the search with one
strategy makes nothing else. As the search works on the last node while there are others above it, chains are described
from any number on (`Graph.chainNodes`), behind nodes of smaller numbers.

* `Graph.addPath_last` and `Graph.set_chain`: what the search does to a chain.
* `Graph.get_length_chain`, `Graph.edge_chain` and `Graph.path_chain`: what is read from a chain.
-/

namespace Isolate.Graph

/-! ## Nodes of other numbers -/

/-- No node has the number. -/
def Apart (i : Int) (ns : List GraphNode) : Prop := ∀ n ∈ ns, n.index ≠ i

variable {pre post : List GraphNode} {n : GraphNode} {i next : Int}

theorem node?_append (post : List GraphNode) (n : GraphNode) (next : Int) (hpre : Apart n.index pre) :
    (⟨pre ++ n :: post, next⟩ : Graph).node? n.index = some n := by
  have hnone : pre.find? (fun m => decide (m.index = n.index)) = none :=
    List.find?_eq_none.mpr fun m hm => by simpa using hpre m hm
  rw [node?, List.find?_append, hnone, Option.none_or]
  exact List.find?_cons_of_pos (decide_eq_true rfl)

theorem node?_eq_none {ns : List GraphNode} (h : Apart i ns) : (⟨ns, next⟩ : Graph).node? i = none :=
  List.find?_eq_none.mpr fun m hm => by simpa using h m hm

theorem map_of_apart {ns : List GraphNode} (h : Apart i ns) (f : GraphNode → GraphNode) :
    (ns.map fun n => if n.index = i then f n else n) = ns := by
  conv_rhs => rw [← List.map_id ns]
  exact List.map_congr_left fun m hm => if_neg (h m hm)

theorem modifyNode_append (n : GraphNode) (next : Int) (hpre : Apart n.index pre) (hpost : Apart n.index post)
    (f : GraphNode → GraphNode) :
    (⟨pre ++ n :: post, next⟩ : Graph).modifyNode n.index f = ⟨pre ++ f n :: post, next⟩ := by
  rw [modifyNode]
  simp only [List.map_append, List.map_cons, map_of_apart hpre, map_of_apart hpost, if_true]

theorem apart_of_lt {ns : List GraphNode} (h : ∀ n ∈ ns, n.index < i) : Apart i ns := fun n hn => (h n hn).ne

/-! ## Chains -/

/-- Nodes one below the other, from number `i` on. The first is below the neighbours `before`; every other comes with
the conditions on the way to it. -/
def chainNodes (before : List (Int × List String)) (i : Int) (q : Equation) :
    List (List String × Equation) → List GraphNode
  | [] => [⟨i, some q, before⟩]
  | (conditions, r) :: rest =>
    ⟨i, some q, before ++ [(i + 1, conditions)]⟩ :: chainNodes [(i, conditions)] (i + 1) r rest

/-- The chain below an equation. -/
def chain (q : Equation) (rest : List (List String × Equation)) : Graph := ⟨chainNodes [] 0 q rest, rest.length + 1⟩

variable {before : List (Int × List String)} {q r : Equation} {rest : List (List String × Equation)}

theorem le_index_of_mem_chainNodes (hn : n ∈ chainNodes before i q rest) : i ≤ n.index := by
  induction rest generalizing before i q with
  | nil =>
    rw [List.mem_singleton.mp hn]
  | cons p rest ih =>
    rcases List.mem_cons.mp hn with rfl | hn
    · exact le_refl i
    · have := ih hn
      omega

/-- Below the first node stand nodes that do not know its equation. -/
theorem chainNodes_eq (before : List (Int × List String)) (i : Int) (rest : List (List String × Equation)) :
    ∃ neighbours post, Apart i post ∧ ∀ q, chainNodes before i q rest = ⟨i, some q, neighbours⟩ :: post := by
  cases rest with
  | nil => exact ⟨before, [], List.forall_mem_nil _, fun r => rfl⟩
  | cons p rest =>
    refine ⟨before ++ [(i + 1, p.1)], chainNodes [(i, p.1)] (i + 1) p.2 rest, fun n hn => ?_, fun r => rfl⟩
    have := le_index_of_mem_chainNodes hn
    omega

/-! ## What the search does -/

theorem get_first (hpre : ∀ n ∈ pre, n.index < i) :
    (⟨pre ++ chainNodes before i q rest, next⟩ : Graph).get i = .ok q := by
  obtain ⟨neighbours, post, -, h⟩ := chainNodes_eq before i rest
  have hnode := node?_append post ⟨i, some q, neighbours⟩ next (apart_of_lt hpre)
  rw [get, h, hnode]
  rfl

/-- Replacing the equation of the first node of a chain. -/
theorem set_chain (hpre : ∀ n ∈ pre, n.index < i) :
    (⟨pre ++ chainNodes before i q rest, next⟩ : Graph).set i r = .ok ⟨pre ++ chainNodes before i r rest, next⟩ := by
  obtain ⟨neighbours, post, hpost, h⟩ := chainNodes_eq before i rest
  have hnode := node?_append post ⟨i, some q, neighbours⟩ next (apart_of_lt hpre)
  have hmodify := modifyNode_append ⟨i, some q, neighbours⟩ next (apart_of_lt hpre) hpost
  rw [set, contains, h q, h r, hnode, hmodify]
  rfl

theorem setNeighbour_of_lt {before : List (Int × List String)} (h : ∀ p ∈ before, p.1 < i) (conditions : List String) :
    setNeighbour i conditions before = before ++ [(i, conditions)] := by
  induction before with
  | nil => rfl
  | cons p before ih =>
    obtain ⟨hp, hbefore⟩ := List.forall_mem_cons.mp h
    rw [setNeighbour, if_neg hp.ne, ih hbefore, List.cons_append]

/-- A node that is new comes last. -/
theorem put_of_apart {ns : List GraphNode} (h : Apart i ns) (r : Equation) :
    (⟨ns, next⟩ : Graph).put i r = ⟨ns ++ [⟨i, some r, []⟩], next⟩ := by
  have hensure : (⟨ns, next⟩ : Graph).ensure i = ⟨ns ++ [⟨i, none, []⟩], next⟩ := by
    rw [ensure, contains, node?_eq_none h]
    rfl
  have hput := modifyNode_append ⟨i, none, []⟩ next h (List.forall_mem_nil _) fun n => { n with equation := some r }
  simp only at hput
  rw [put, hensure, hput]

theorem addNode_next {ns : List GraphNode} (h : Apart next ns) (r : Equation) :
    (⟨ns, next⟩ : Graph).addNode r = (⟨ns ++ [⟨next, some r, []⟩], next + 1⟩, next) := by
  rw [addNode, put_of_apart h]

theorem ensure_eq_self {g : Graph} (h : g.contains i = true) : g.ensure i = g := by rw [ensure, h, if_pos rfl]

/-- An edge between the last two nodes, the last one without neighbours yet. -/
theorem addEdge_last (hpre : ∀ n ∈ pre, n.index < i) (hbefore : ∀ p ∈ before, p.1 < i) (conditions : List String) :
    (⟨pre ++ [⟨i, some q, before⟩] ++ [⟨i + 1, some r, []⟩], next⟩ : Graph).addEdge i (i + 1) conditions =
      ⟨pre ++ chainNodes before i q [(conditions, r)], next⟩ := by
  have hlast : ∀ ns, Apart (i + 1) (pre ++ [⟨i, some q, ns⟩]) := by
    intro ns n hn
    rcases List.mem_append.mp hn with hn | hn
    · have := hpre n hn
      omega
    · rw [List.mem_singleton.mp hn]
      show i ≠ i + 1
      omega
  have hfirst : Apart i [⟨i + 1, some r, []⟩] := by
    intro n hn
    rw [List.mem_singleton.mp hn]
    show i + 1 ≠ i
    omega
  have hi : (⟨pre ++ [⟨i, some q, before⟩] ++ [⟨i + 1, some r, []⟩], next⟩ : Graph).contains i = true := by
    rw [List.append_assoc, contains]
    exact congrArg Option.isSome (node?_append _ ⟨i, some q, before⟩ _ (apart_of_lt hpre))
  have hi1 : (⟨pre ++ [⟨i, some q, before⟩] ++ [⟨i + 1, some r, []⟩], next⟩ : Graph).contains (i + 1) = true := by
    rw [contains]
    exact congrArg Option.isSome (node?_append _ ⟨i + 1, some r, []⟩ _ (hlast before))
  have hdown := modifyNode_append ⟨i, some q, before⟩ next (apart_of_lt hpre) hfirst
    fun n => { n with neighbours := setNeighbour (i + 1) conditions n.neighbours }
  have hup := modifyNode_append ⟨i + 1, some r, []⟩ next (hlast (before ++ [(i + 1, conditions)]))
    (List.forall_mem_nil _)
    fun n => { n with neighbours := setNeighbour i conditions n.neighbours }
  simp only [setNeighbour_of_lt (fun p hp => Int.lt_add_one_of_le (hbefore p hp).le)] at hdown
  simp only [List.append_assoc, List.singleton_append] at hdown hup hi hi1 ⊢
  rw [addEdge, ensure_eq_self hi, ensure_eq_self hi1]
  simp only
  rw [hdown, hup]
  rfl

/-- Adding an equation below the last node of a chain. -/
theorem addPath_last (hpre : ∀ n ∈ pre, n.index < i) (hbefore : ∀ p ∈ before, p.1 < i) (conditions : List String) :
    (⟨pre ++ chainNodes before i q [], i + 1⟩ : Graph).addPath r conditions i =
      .ok (⟨pre ++ chainNodes before i q [(conditions, r)], i + 1 + 1⟩, i + 1) := by
  have hi : (⟨pre ++ [⟨i, some q, before⟩], i + 1⟩ : Graph).contains i = true := by
    rw [contains]
    exact congrArg Option.isSome (node?_append _ ⟨i, some q, before⟩ _ (apart_of_lt hpre))
  have hnew : Apart (i + 1) (pre ++ [⟨i, some q, before⟩]) := by
    intro n hn
    rcases List.mem_append.mp hn with hn | hn
    · have := hpre n hn
      omega
    · rw [List.mem_singleton.mp hn]
      show i ≠ i + 1
      omega
  rw [chainNodes, addPath, hi, if_pos rfl, addNode_next hnew]
  simp only
  rw [addEdge_last hpre hbefore]

/-! ## Reading a chain -/

/-- The last equation of a chain. -/
def lastOf (q : Equation) : List (List String × Equation) → Equation
  | [] => q
  | (_, r) :: rest => lastOf r rest

/-- The edges of a chain: the equation above each, and its conditions. -/
def chainEdges (q : Equation) : List (List String × Equation) → List (Equation × List String)
  | [] => []
  | (conditions, r) :: rest => (q, conditions) :: chainEdges r rest

theorem length_chainEdges (q : Equation) (rest : List (List String × Equation)) :
    (chainEdges q rest).length = rest.length := by
  induction rest generalizing q with
  | nil => rfl
  | cons p rest ih => rw [chainEdges, List.length_cons, ih, List.length_cons]

/-- The conditions of the edges of a chain. -/
theorem snd_chainEdges (q : Equation) (rest : List (List String × Equation)) :
    (chainEdges q rest).map (·.2) = rest.map (·.1) := by
  induction rest generalizing q with
  | nil => rfl
  | cons p rest ih => rw [chainEdges, List.map_cons, ih, List.map_cons]

/-- The first node of a chain counted among those before it. -/
theorem append_chainNodes_cons (pre : List GraphNode) (before : List (Int × List String)) (i : Int) (q : Equation)
    (conditions : List String) (r : Equation) (rest : List (List String × Equation)) :
    pre ++ chainNodes before i q ((conditions, r) :: rest) =
      (pre ++ [⟨i, some q, before ++ [(i + 1, conditions)]⟩]) ++ chainNodes [(i, conditions)] (i + 1) r rest := by
  rw [chainNodes, List.append_assoc, List.singleton_append]

theorem forall_index_lt_append (hpre : ∀ n ∈ pre, n.index < i) (h : n.index = i) :
    ∀ m ∈ pre ++ [n], m.index < i + 1 := by
  intro m hm
  rcases List.mem_append.mp hm with hm | hm
  · have := hpre m hm
    omega
  · rw [List.mem_singleton.mp hm]
    omega

/-- The equation of a node of a chain. -/
theorem get_chainNodes (hpre : ∀ n ∈ pre, n.index < i) {k : Nat} {e : Equation}
    (hk : (q :: rest.map (·.2))[k]? = some e) :
    (⟨pre ++ chainNodes before i q rest, next⟩ : Graph).get (i + k) = .ok e := by
  induction rest generalizing pre before i q k with
  | nil =>
    obtain ⟨rfl, rfl⟩ : k = 0 ∧ q = e := by simpa [List.getElem?_singleton] using hk
    rw [Int.natCast_zero, Int.add_zero]
    exact get_first hpre
  | cons p rest ih =>
    cases k with
    | zero =>
      obtain rfl := Option.some.inj hk
      rw [Int.natCast_zero, Int.add_zero]
      exact get_first hpre
    | succ k =>
      rw [append_chainNodes_cons, show i + (k + 1 : Nat) = i + 1 + k by omega]
      exact ih (forall_index_lt_append hpre rfl) hk

theorem getElem?_lastOf (q : Equation) (rest : List (List String × Equation)) :
    (q :: rest.map (·.2))[rest.length]? = some (lastOf q rest) := by
  induction rest generalizing q with
  | nil => rfl
  | cons p rest ih => exact ih p.2

theorem lookup_append_of_lt (hbefore : ∀ p ∈ before, p.1 < i) (conditions : List String) :
    (before ++ [(i, conditions)]).lookup i = some conditions := by
  have hnone : before.lookup i = none := by
    rw [List.lookup_eq_none_iff]
    intro p hp
    have := hbefore p hp
    simp
    omega
  rw [List.lookup_append, hnone]
  simp

/-- The equation above an edge of a chain, and its conditions. -/
theorem edge_chainNodes (hpre : ∀ n ∈ pre, n.index < i) (hbefore : ∀ p ∈ before, p.1 < i) {k : Nat}
    {edge : Equation × List String} (hk : (chainEdges q rest)[k]? = some edge) :
    (⟨pre ++ chainNodes before i q rest, next⟩ : Graph).get (i + k) = .ok edge.1 ∧
      (⟨pre ++ chainNodes before i q rest, next⟩ : Graph).conditions (i + k) (i + k + 1) = .ok edge.2 := by
  induction rest generalizing pre before i q k with
  | nil => simp [chainEdges] at hk
  | cons p rest ih =>
    cases k with
    | zero =>
      obtain rfl : (q, p.1) = edge := by simpa [chainEdges] using hk
      rw [Int.natCast_zero, Int.add_zero]
      refine ⟨get_first hpre, ?_⟩
      have hnode := node?_append (chainNodes [(i, p.1)] (i + 1) p.2 rest) ⟨i, some q, before ++ [(i + 1, p.1)]⟩ next
        (apart_of_lt hpre)
      have hlookup := lookup_append_of_lt (fun r hr => Int.lt_add_one_of_le (hbefore r hr).le) p.1
      rw [chainNodes, conditions, hnode, Option.bind_some, hlookup]
    | succ k =>
      have hbefore : ∀ b ∈ [(i, p.1)], b.1 < i + 1 := by
        intro b hb
        rw [List.mem_singleton.mp hb]
        exact Int.lt_succ i
      rw [append_chainNodes_cons, show i + (k + 1 : Nat) = i + 1 + k by omega]
      exact ih (forall_index_lt_append hpre rfl) hbefore hk

/-- The first equation of a whole chain. -/
theorem get_zero_chain (q : Equation) (rest : List (List String × Equation)) : (chain q rest).get 0 = .ok q :=
  get_first (List.forall_mem_nil _)

/-- The equation of a node of a whole chain. -/
theorem get_chain {k : Nat} {e : Equation} (hk : (q :: rest.map (·.2))[k]? = some e) : (chain q rest).get k = .ok e := by
  have h : (chain q rest).get (0 + k) = .ok e := get_chainNodes (List.forall_mem_nil _) hk
  rwa [Int.zero_add] at h

/-- The last equation of a whole chain. -/
theorem get_length_chain (q : Equation) (rest : List (List String × Equation)) :
    (chain q rest).get rest.length = .ok (lastOf q rest) :=
  get_chain (getElem?_lastOf q rest)

/-- The edges of a whole chain. -/
theorem edge_chain {k : Nat} {edge : Equation × List String} (hk : (chainEdges q rest)[k]? = some edge) :
    (chain q rest).get k = .ok edge.1 ∧ (chain q rest).conditions k (k + 1) = .ok edge.2 := by
  have h : (chain q rest).get (0 + k) = .ok edge.1 ∧ (chain q rest).conditions (0 + k) (0 + k + 1) = .ok edge.2 :=
    edge_chainNodes (List.forall_mem_nil _) (List.forall_mem_nil _) hk
  rwa [Int.zero_add] at h

/-- The conditions between neighbours of a whole chain. -/
theorem conditions_chain {k : Nat} {p : List String × Equation} (hk : rest[k]? = some p) :
    (chain q rest).conditions k (k + 1) = .ok p.1 := by
  have hedge : ((chainEdges q rest)[k]?).map (·.2) = some p.1 := by
    rw [← List.getElem?_map, snd_chainEdges, List.getElem?_map, hk]
    rfl
  obtain ⟨edge, hedge, hp⟩ := Option.map_eq_some_iff.mp hedge
  rw [(edge_chain hedge).2, hp]

/-- The numbers of the nodes of a chain. -/
theorem index_chainNodes (before : List (Int × List String)) (i : Int) (q : Equation)
    (rest : List (List String × Equation)) :
    (chainNodes before i q rest).map (·.index) = (List.range (rest.length + 1)).map fun k : Nat => i + k := by
  induction rest generalizing before i q with
  | nil => simp [chainNodes]
  | cons p rest ih =>
    rw [chainNodes, List.map_cons, ih, List.length_cons, List.range_succ_eq_map (n := rest.length + 1), List.map_cons,
      List.map_map]
    refine congrArg₂ _ (by simp) (List.map_congr_left fun k _ => ?_)
    simp only [Function.comp_apply]
    omega

/-- The edges of a chain go from each node to the next one. -/
theorem edgesFrom_chainNodes {passed : List Int} (hbefore : ∀ p ∈ before, p.1 ∈ passed) (hpassed : ∀ j ∈ passed, j < i)
    (q : Equation) (rest : List (List String × Equation)) :
    (edgesFrom passed (chainNodes before i q rest)).map (fun e => (e.1, e.2.1)) =
      (List.range rest.length).map fun k : Nat => (i + k, i + k + 1) := by
  have hold : ∀ {before : List (Int × List String)} {passed : List Int}, (∀ p ∈ before, p.1 ∈ passed) →
      (before.filter fun p => !passed.contains p.1) = [] := fun h =>
    List.filter_eq_nil_iff.mpr fun p hp => by
      simpa only [Bool.not_eq_true', Bool.not_eq_false, List.contains_iff_mem] using h p hp
  induction rest generalizing before passed i q with
  | nil =>
    rw [chainNodes, edgesFrom, hold hbefore]
    rfl
  | cons p rest ih =>
    have hnew : ([(i + 1, p.1)].filter fun b => !passed.contains b.1) = [(i + 1, p.1)] := by
      refine List.filter_eq_self.mpr (List.forall_mem_singleton.mpr ?_)
      simpa using fun hmem => absurd (hpassed (i + 1) hmem) (by omega)
    have hbefore' : ∀ b ∈ [(i, p.1)], b.1 ∈ i :: passed := List.forall_mem_singleton.mpr List.mem_cons_self
    have hpassed' : ∀ j ∈ i :: passed, j < i + 1 :=
      List.forall_mem_cons.mpr ⟨Int.lt_succ i, fun j hj => (hpassed j hj).trans (Int.lt_succ i)⟩
    rw [chainNodes, edgesFrom, List.map_append, ih hbefore' hpassed', List.filter_append, hold hbefore, hnew,
      List.nil_append, List.map_singleton, List.map_singleton, List.singleton_append, List.length_cons,
      List.range_succ_eq_map, List.map_cons, List.map_map]
    refine congrArg₂ _ ?_ (List.map_congr_left fun k _ => ?_)
    · show (min i (i + 1), max i (i + 1)) = (i + ((0 : Nat) : Int), i + ((0 : Nat) : Int) + 1)
      rw [min_eq_left (Int.lt_succ i).le, max_eq_right (Int.lt_succ i).le, Int.natCast_zero, Int.add_zero]
    · simp only [Function.comp_apply, Prod.mk.injEq]
      omega

/-! ## The way down a chain -/

/-- The neighbours of a node of a chain. -/
theorem neighbours_chainNodes (before : List (Int × List String)) (q : Equation) (next : Int)
    (hpre : ∀ n ∈ pre, n.index < i) {k : Nat} (hk : k ≤ rest.length) :
    ∃ node, (⟨pre ++ chainNodes before i q rest, next⟩ : Graph).node? (i + k) = some node ∧
      node.neighbours.map (·.1) = (if k = 0 then before.map (·.1) else [i + k - 1]) ++
        if k = rest.length then [] else [i + k + 1] := by
  induction rest generalizing pre before i q k with
  | nil =>
    obtain rfl := Nat.le_zero.mp hk
    rw [Int.natCast_zero, Int.add_zero]
    exact ⟨_, node?_append [] ⟨i, some q, before⟩ next (apart_of_lt hpre), by simp⟩
  | cons p rest ih =>
    cases k with
    | zero =>
      rw [Int.natCast_zero, Int.add_zero]
      refine ⟨_, node?_append _ ⟨i, some q, before ++ [(i + 1, p.1)]⟩ next (apart_of_lt hpre), ?_⟩
      simp
    | succ k =>
      rw [append_chainNodes_cons, show i + (k + 1 : Nat) = i + 1 + k by omega]
      have hpre' := forall_index_lt_append (n := ⟨i, some q, before ++ [(i + 1, p.1)]⟩) hpre rfl
      obtain ⟨node, hnode, hneighbours⟩ := ih [(i, p.1)] p.2 hpre' (Nat.le_of_succ_le_succ hk)
      refine ⟨node, hnode, ?_⟩
      have habove : (if k = 0 then [(i, p.1)].map (·.1) else [i + 1 + k - 1]) = [i + 1 + k - 1] := by
        split
        · rename_i h0
          subst h0
          simp
        · rfl
      rw [hneighbours, habove, if_neg (Nat.succ_ne_zero k), List.length_cons]
      simp only [Nat.add_right_cancel_iff]

/-- The numbers from zero to `n`, in order. -/
def numbersTo (n : Nat) : List Int := (List.range (n + 1)).map Int.ofNat

theorem numbersTo_succ (n : Nat) : numbersTo (n + 1) = numbersTo n ++ [(n : Int) + 1] := by
  simp [numbersTo, List.range_succ]

theorem mem_numbersTo {n : Nat} {i : Int} : i ∈ numbersTo n ↔ 0 ≤ i ∧ i ≤ n := by
  rw [numbersTo, List.mem_map]
  constructor
  · rintro ⟨k, hk, rfl⟩
    have := List.mem_range.mp hk
    rw [Int.ofNat_eq_natCast]
    omega
  · rintro ⟨h0, hn⟩
    exact ⟨i.toNat, List.mem_range.mpr (by omega), Int.toNat_of_nonneg h0⟩

theorem head?_reverse_numbersTo (n : Nat) : (numbersTo n).reverse.head? = some (n : Int) := by
  cases n with
  | zero => rfl
  | succ n =>
    rw [numbersTo_succ]
    simp

variable {g : Graph} {m : Nat}

/-- From every node but the last, the search for a way goes one node down. -/
theorem prolong_chain {k : Nat} {node : GraphNode} (hnode : g.node? k = some node)
    (hneighbours : node.neighbours.map (·.1) = (if k = 0 then [] else [(k : Int) - 1]) ++ [(k : Int) + 1]) :
    g.prolong (numbersTo k) [(numbersTo k).reverse] = (numbersTo (k + 1), [(numbersTo (k + 1)).reverse]) := by
  have hsteps : ((node.neighbours.map (·.1)).filter fun i => !(numbersTo k).contains i) = [(k : Int) + 1] := by
    have hup : ((if k = 0 then [] else [(k : Int) - 1]).filter fun i => !(numbersTo k).contains i) = [] := by
      rw [List.filter_eq_nil_iff]
      intro i hi
      split at hi
      · cases hi
      · rw [List.mem_singleton] at hi
        simp only [List.contains_eq_mem, Bool.not_eq_true', decide_eq_false_iff_not, not_not, mem_numbersTo]
        omega
    have hdown : ([(k : Int) + 1].filter fun i => !(numbersTo k).contains i) = [(k : Int) + 1] := by
      rw [List.filter_eq_self]
      intro i hi
      rw [List.mem_singleton] at hi
      simp only [List.contains_eq_mem, Bool.not_eq_true', decide_eq_false_iff_not, mem_numbersTo]
      omega
    rw [hneighbours, List.filter_append, hup, hdown, List.nil_append]
  rw [prolong, head?_reverse_numbersTo, Option.bind_some, hnode]
  simp only [hsteps, prolong]
  rw [numbersTo_succ]
  simp

/-- The search for the last node of a chain follows the chain. -/
theorem searchPath_chain (h : ∀ k < m, ∃ node, g.node? k = some node ∧
      node.neighbours.map (·.1) = (if k = 0 then [] else [(k : Int) - 1]) ++ [(k : Int) + 1]) {k : Nat} (hk : k ≤ m)
    (fuel : Nat) (hfuel : m < k + fuel) :
    g.searchPath m fuel (numbersTo k) [(numbersTo k).reverse] = some (numbersTo m).reverse := by
  induction fuel generalizing k with
  | zero => omega
  | succ fuel ih =>
    by_cases hlast : k = m
    · subst hlast
      rw [searchPath, List.find?_cons_of_pos (by rw [head?_reverse_numbersTo]; simp)]
    · obtain ⟨node, hnode, hneighbours⟩ := h k (by omega)
      have hne : ¬((numbersTo k).reverse.head? = some (m : Int)) := by
        rw [head?_reverse_numbersTo, Option.some.injEq]
        omega
      rw [searchPath, List.find?_cons_of_neg (by simpa using hne), List.find?_nil]
      simp only
      rw [prolong_chain hnode hneighbours]
      exact ih (by omega) (by omega)

theorem length_chainNodes (before : List (Int × List String)) (i : Int) (q : Equation)
    (rest : List (List String × Equation)) : (chainNodes before i q rest).length = rest.length + 1 := by
  induction rest generalizing before i q with
  | nil => rfl
  | cons p rest ih => rw [chainNodes, List.length_cons, ih, List.length_cons]

/-- The neighbours of a node of a whole chain. -/
theorem neighbours_chain (q : Equation) {rest : List (List String × Equation)} {k : Nat} (hk : k ≤ rest.length) :
    ∃ node, (chain q rest).node? k = some node ∧ node.neighbours.map (·.1) =
      (if k = 0 then [] else [(k : Int) - 1]) ++ if k = rest.length then [] else [(k : Int) + 1] := by
  obtain ⟨node, hnode, hneighbours⟩ := neighbours_chainNodes [] q (rest.length + 1) (i := 0)
    (List.forall_mem_nil _) hk
  simp only [Int.zero_add] at hnode hneighbours
  exact ⟨node, hnode, hneighbours⟩

/-- **The way from the first to the last node of a chain.** -/
theorem path_chain (q : Equation) (rest : List (List String × Equation)) :
    (chain q rest).path 0 rest.length = .ok (numbersTo rest.length) := by
  have hcontains : ∀ k : Nat, k ≤ rest.length → (chain q rest).contains k = true := by
    intro k hk
    obtain ⟨node, hnode, -⟩ := neighbours_chain q hk
    rw [contains, hnode]
    rfl
  have hsteps : ∀ k < rest.length, ∃ node, (chain q rest).node? k = some node ∧
      node.neighbours.map (·.1) = (if k = 0 then [] else [(k : Int) - 1]) ++ [(k : Int) + 1] := by
    intro k hk
    obtain ⟨node, hnode, hneighbours⟩ := neighbours_chain q hk.le
    rw [if_neg hk.ne] at hneighbours
    exact ⟨node, hnode, hneighbours⟩
  have hfuel : rest.length < 0 + ((chain q rest).size + 1) := by
    rw [size, chain, length_chainNodes]
    omega
  have hsearch := searchPath_chain hsteps (Nat.zero_le _) _ hfuel
  have h0 : (chain q rest).contains 0 = true := hcontains 0 (Nat.zero_le _)
  rw [path, h0, hcontains _ (le_refl _)]
  have hfirst : (chain q rest).searchPath rest.length ((chain q rest).size + 1) [0] [[0]] =
      some (numbersTo rest.length).reverse := hsearch
  rw [Bool.and_true, if_pos rfl, hfirst]
  simp only [List.reverse_reverse]

theorem eq_of_getElem?_numbersTo {n k : Nat} {i : Int} (h : (numbersTo n)[k]? = some i) : i = k ∧ k ≤ n := by
  obtain ⟨j, hj, rfl⟩ : ∃ j, (List.range (n + 1))[k]? = some j ∧ Int.ofNat j = i := by
    simpa [numbersTo, List.getElem?_map] using h
  obtain ⟨hlt, rfl⟩ := List.getElem?_eq_some_iff.mp hj
  rw [List.length_range] at hlt
  rw [List.getElem_range]
  exact ⟨rfl, Nat.le_of_lt_succ hlt⟩

theorem infix_numbersTo {n k : Nat} (hk : k < n) : [(k : Int), (k : Int) + 1] <:+: numbersTo n := by
  induction n with
  | zero => omega
  | succ n ih =>
    rw [numbersTo_succ]
    by_cases hn : k = n
    · subst hn
      obtain ⟨ns, hns⟩ : ∃ ns, numbersTo k = ns ++ [(k : Int)] := by
        cases k with
        | zero => exact ⟨[], rfl⟩
        | succ k => exact ⟨numbersTo k, by rw [numbersTo_succ, Int.natCast_succ]⟩
      rw [hns, List.append_assoc]
      exact (List.suffix_append _ _).isInfix
    · exact (ih (by omega)).trans (List.prefix_append _ _).isInfix

/-- Neighbours on the way are numbered one after the other. -/
theorem infix_numbersTo_iff {n : Nat} {a b : Int} : [a, b] <:+: numbersTo n ↔ ∃ k < n, a = Int.ofNat k ∧ b = k + 1 := by
  constructor
  · rintro ⟨ns, ms, h⟩
    obtain ⟨ha, -⟩ := eq_of_getElem?_numbersTo (n := n) (k := ns.length) (i := a) (by rw [← h]; simp)
    obtain ⟨hb, hle⟩ := eq_of_getElem?_numbersTo (n := n) (k := ns.length + 1) (i := b) (by rw [← h]; simp)
    exact ⟨ns.length, hle, ha, hb⟩
  · rintro ⟨k, hk, rfl, rfl⟩
    exact infix_numbersTo hk

end Isolate.Graph
