import Isolate.Proofs.Entries
import Isolate.Proofs.Records.Graphs
import Isolate.Proofs.Tree.BottomUp

/-!
# Going on with a graph that was read back

A graph that was read back from its record is the graph that was written but for the analyses in its equations, and of
these nothing that is asked of a graph depends: requests to a graph and to the same graph without analyses are answered
alike, and leave graphs that are again the same (`Graph.respond_bare`). So are any number of requests, one after the
other (`Graph.replies_congr`).

* `Graph.restored_alike`: what holds for a grown graph after it was written and read.
-/

namespace Isolate

theorem Expr.text_bare (e : Expr) : e.bare.text = e.text :=
  congrArg Piece.text (fold_bare (fun e b => by rw [bare_eq]; rfl) e)

theorem Equation.text_bare (q : Equation) : q.bare.text = q.text := by
  simp only [text, bare, List.map_map, Function.comp_def, Expr.text_bare]

@[simp] theorem Equation.bare_bare (q : Equation) : q.bare.bare = q.bare := by
  simp only [bare, List.map_map, Function.comp_def, Expr.bare_bare]

namespace Graph

variable {g g' : Graph} {i a b : Int} {q : Equation} {conditions : List String}

/-! ## Building -/

theorem node?_bare (g : Graph) (i : Int) : g.bare.node? i = (g.node? i).map GraphNode.bare := by
  rw [node?, bare, List.find?_map]
  rfl

@[simp] theorem contains_bare (g : Graph) (i : Int) : g.bare.contains i = g.contains i := by
  rw [contains, node?_bare, Option.isSome_map, contains]

theorem bare_modifyNode {f f' : GraphNode → GraphNode} (hf : ∀ n, (f n).bare = f' n.bare) (g : Graph) (i : Int) :
    (g.modifyNode i f).bare = g.bare.modifyNode i f' := by
  rw [modifyNode, bare, bare, modifyNode, List.map_map, List.map_map]
  refine congrArg (Graph.mk · g.next) (List.map_congr_left fun n _ => ?_)
  by_cases hn : n.index = i
  · have hbare : n.bare.index = i := hn
    simp only [Function.comp_apply, hn, hbare, if_true, hf]
  · have hbare : n.bare.index ≠ i := hn
    simp only [Function.comp_apply, hn, hbare, if_false]

theorem bare_ensure (g : Graph) (i : Int) : (g.ensure i).bare = g.bare.ensure i := by
  rw [ensure, ensure, contains_bare]
  split
  · rfl
  · rw [bare, bare, List.map_append]
    rfl

theorem bare_modifyNode_equation (g : Graph) (i : Int) (q : Equation) :
    (g.modifyNode i fun n => { n with equation := some q }).bare =
      g.bare.modifyNode i fun n => { n with equation := some q.bare } := by
  refine bare_modifyNode ?_ g i
  exact fun _ => rfl

theorem bare_put (g : Graph) (i : Int) (q : Equation) : (g.put i q).bare = g.bare.put i q.bare := by
  rw [put, put, bare_modifyNode_equation, bare_ensure]

theorem bare_addNode (g : Graph) (q : Equation) : (g.addNode q).1.bare = (g.bare.addNode q.bare).1 := by
  have hput : (g.put g.next q).bare = g.bare.put g.bare.next q.bare := bare_put g g.next q
  rw [addNode, addNode, ← hput]
  rfl

theorem bare_addEdge (g : Graph) (a b : Int) (conditions : List String) :
    (g.addEdge a b conditions).bare = g.bare.addEdge a b conditions := by
  have hlink : ∀ (g : Graph) (a b : Int), (g.modifyNode a fun n =>
      { n with neighbours := setNeighbour b conditions n.neighbours }).bare = g.bare.modifyNode a fun n =>
      { n with neighbours := setNeighbour b conditions n.neighbours } := by
    intro g a b
    refine bare_modifyNode ?_ g a
    exact fun _ => rfl
  simp only [addEdge]
  rw [hlink, hlink, bare_ensure, bare_ensure]

/-- A child is added below the same node. -/
theorem addPath_bare (g : Graph) (q : Equation) (conditions : List String) (parent : Int) :
    g.bare.addPath q.bare conditions parent = (g.addPath q conditions parent).map fun p => (p.1.bare, p.2) := by
  rw [addPath, addPath, contains_bare]
  split
  · have hgraph : (g.bare.addNode q.bare).1.addEdge parent g.next conditions =
        ((g.addNode q).1.addEdge parent g.next conditions).bare := by rw [bare_addEdge, bare_addNode]
    exact congrArg (fun g' => Except.ok (g', g.next)) hgraph
  · rfl

theorem set_bare (g : Graph) (i : Int) (q : Equation) : g.bare.set i q.bare = (g.set i q).map bare := by
  rw [set, set, contains_bare]
  split
  · rw [← bare_modifyNode_equation]
    rfl
  · rfl

/-! ## Reading -/

theorem held_bare (n : GraphNode) : GraphNode.held n.bare = (GraphNode.held n).map Equation.bare := by
  unfold GraphNode.held GraphNode.bare
  cases n.equation <;> rfl

theorem get_bare (g : Graph) (i : Int) : g.bare.get i = (g.get i).map Equation.bare := by
  rw [get, get, node?_bare]
  cases g.node? i with
  | none => rfl
  | some n => exact held_bare n

@[simp] theorem size_bare (g : Graph) : g.bare.size = g.size := List.length_map ..

theorem equations_bare (g : Graph) :
    g.bare.equations = g.equations.map (List.map fun p => (p.1, p.2.bare)) := by
  rw [equations, equations, bare]
  generalize g.nodes = ns
  induction ns with
  | nil => rfl
  | cons n ns ih =>
    rw [List.map_cons, List.mapM_cons, ih, List.mapM_cons, held_bare]
    cases GraphNode.held n with
    | error fault => rfl
    | ok q =>
      cases ns.mapM fun n => do return (n.index, ← GraphNode.held n) with
      | error fault => rfl
      | ok qs => rfl

@[simp] theorem edges_bare (g : Graph) : g.bare.edges = g.edges := by
  have hnodes : ∀ (ns : List GraphNode) (passed : List Int),
      edgesFrom passed (ns.map GraphNode.bare) = edgesFrom passed ns := by
    intro ns
    induction ns with
    | nil => exact fun _ => rfl
    | cons n ns ih =>
      intro passed
      rw [List.map_cons, edgesFrom, edgesFrom, ih]
      rfl
  exact hnodes g.nodes []

@[simp] theorem conditions_bare (g : Graph) (a b : Int) : g.bare.conditions a b = g.conditions a b := by
  rw [Graph.conditions, node?_bare, Option.bind_map]
  rfl

theorem prolong_bare (g : Graph) (queue : List (List Int)) (seen : List Int) :
    g.bare.prolong seen queue = g.prolong seen queue := by
  induction queue generalizing seen with
  | nil => rfl
  | cons way queue ih =>
    have hnode : way.head?.bind g.bare.node? = (way.head?.bind g.node?).map GraphNode.bare := by
      cases way.head? with
      | none => rfl
      | some i => exact node?_bare g i
    rw [prolong, prolong, hnode]
    cases way.head?.bind g.node? with
    | none => simp only [Option.map_none, ih]
    | some n => simp only [Option.map_some, GraphNode.bare, ih]

theorem searchPath_bare (g : Graph) (target : Int) (fuel : Nat) (seen : List Int) (queue : List (List Int)) :
    g.bare.searchPath target fuel seen queue = g.searchPath target fuel seen queue := by
  induction fuel generalizing seen queue with
  | zero => rfl
  | succ fuel ih =>
    rw [searchPath, searchPath, prolong_bare]
    simp only [ih]

@[simp] theorem path_bare (g : Graph) (source target : Int) : g.bare.path source target = g.path source target := by
  rw [path, path, contains_bare, contains_bare, size_bare, searchPath_bare]

@[simp] theorem toJson_bare (g : Graph) : g.bare.toJson = g.toJson := by
  rw [toJson, toJson, equations_bare, edges_bare]
  cases g.equations with
  | error fault => rfl
  | ok qs =>
    have hnodes : (qs.map fun p => (p.1, p.2.bare)).map (fun p => nodeJson p.1 p.2) =
        qs.map fun p => nodeJson p.1 p.2 := by
      rw [List.map_map]
      exact List.map_congr_left fun p _ => by simp only [Function.comp_apply, nodeJson, Equation.toJson_bare]
    exact congrArg (fun nodes => Except.ok (Json.object [("nodes", .array nodes), _])) hnodes

@[simp] theorem dot_bare (g : Graph) : g.bare.dot = g.dot := by
  rw [dot, dot, equations_bare, edges_bare]
  cases g.equations with
  | error fault => rfl
  | ok qs => simp only [Except.map, ok_bind, List.map_map, Function.comp_def, Equation.text_bare]

/-! ## Requests -/

/-- The request with every analysis forgotten. -/
def Request.bare : Request → Request
  | .addNode q => .addNode q.bare
  | .addPath q conditions parent => .addPath q.bare conditions parent
  | .set index q => .set index q.bare
  | r => r

/-- The answer with every analysis forgotten. -/
def Reply.bare : Reply → Reply
  | .equation q => .equation q.bare
  | .equations qs => .equations (qs.map fun p => (p.1, p.2.bare))
  | r => r

/-- **Requests do not depend on analyses.** -/
theorem respond_bare (g : Graph) (r : Request) :
    (g.bare.respond r.bare).1 = (g.respond r).1.bare ∧ (g.bare.respond r.bare).2.bare = (g.respond r).2.bare := by
  cases r with
  | addNode q => exact ⟨(bare_addNode g q).symm, rfl⟩
  | addPath q conditions parent =>
    rw [Request.bare, respond, respond, addPath_bare]
    cases g.addPath q conditions parent with
    | error fault => exact ⟨rfl, rfl⟩
    | ok p => exact ⟨rfl, rfl⟩
  | set index q =>
    rw [Request.bare, respond, respond, set_bare]
    cases g.set index q with
    | error fault => exact ⟨rfl, rfl⟩
    | ok g' => exact ⟨rfl, rfl⟩
  | get index =>
    refine ⟨rfl, ?_⟩
    simp only [Request.bare, respond, get_bare]
    cases g.get index with
    | error fault => rfl
    | ok q => simp [Except.map, Reply.of, Reply.bare]
  | equations =>
    refine ⟨rfl, ?_⟩
    simp only [Request.bare, respond, equations_bare]
    cases g.equations with
    | error fault => rfl
    | ok qs => simp [Except.map, Reply.of, Reply.bare]
  -- the rest ask for nothing that has a part in an analysis
  | contains _ | size | edges | conditions _ _ | path _ _ | record | drawing => simp [Request.bare, respond]

/-- Graphs that are the same but for analyses answer alike, and stay the same. -/
theorem respond_congr (h : g.bare = g'.bare) (r : Request) :
    (g.respond r).1.bare = (g'.respond r).1.bare ∧ (g.respond r).2.bare = (g'.respond r).2.bare := by
  rw [← (respond_bare g r).1, ← (respond_bare g r).2, h]
  exact respond_bare g' r

/-- **Graphs that are the same but for analyses** answer any requests alike. -/
theorem replies_congr (h : g.bare = g'.bare) (requests : List Request) :
    (g.replies requests).map Reply.bare = (g'.replies requests).map Reply.bare := by
  induction requests generalizing g g' with
  | nil => rfl
  | cons r requests ih =>
    obtain ⟨hgraph, hreply⟩ := respond_congr h r
    rw [replies, replies, List.map_cons, List.map_cons, hreply, ih hgraph]

@[simp] theorem bare_bare (g : Graph) : g.bare.bare = g.bare := by
  rw [bare, bare, List.map_map]
  exact congrArg (Graph.mk · g.next) (List.map_congr_left fun n _ => by simp [GraphNode.bare, Function.comp_def])

theorem conditions_laid {count : Nat} {held : Int → Equation} {near : Int → List (Int × List String)} {next : Int}
    (h : Meshes count near) (a b : Int) : (laid count held near next).conditions a b =
      match (near a).lookup b with
      | some conditions => .ok conditions
      | none => .error .noEdge := by
  rw [Graph.conditions]
  cases hnode : (laid count held near next).node? a with
  | none =>
    have hnear : near a = [] := by
      refine List.eq_nil_iff_forall_not_mem.mpr fun p hp => ?_
      have hthere : (laid count held near next).contains a = true := contains_laid.mpr (h.within (j := p.1) hp)
      rw [contains, hnode] at hthere
      cases hthere
    rw [hnear]
    rfl
  | some n =>
    obtain ⟨k, -, rfl⟩ := List.mem_map.mp (List.mem_of_find?_eq_some hnode)
    obtain rfl : (k : Int) = a := by simpa using List.find?_some hnode
    rfl

/-- The conditions between two nodes of a grown graph are the same from either end. -/
theorem IsGrown.conditions_comm (h : g.IsGrown) (a b : Int) : g.conditions b a = g.conditions a b := by
  obtain ⟨count, held, near, hnear, rfl⟩ := h
  have hkeys (i : Int) : ((near i).map Prod.fst).Nodup := List.pairwise_map.mpr ((hnear.increasing i).imp ne_of_lt)
  have hlookup : (near b).lookup a = (near a).lookup b := by
    refine Option.ext fun conditions => ?_
    rw [lookup_eq_some_iff (hkeys b), lookup_eq_some_iff (hkeys a)]
    exact ⟨hnear.returned, hnear.returned⟩
  rw [conditions_laid hnear, conditions_laid hnear, hlookup]

/-- **A graph that was grown, written and read back** has the same record, conditions and paths, gives the same number
to the next node, and answers any requests as the graph that was written. -/
theorem restored_alike (history : List Request) : ∃ record restored,
    (empty.grow history).toJson = .ok record ∧ ofJson record = .ok restored ∧ restored.toJson = .ok record ∧
      (∀ a b, restored.conditions a b = (empty.grow history).conditions a b ∧
        restored.conditions b a = (empty.grow history).conditions a b) ∧
      (∀ a b, restored.path a b = (empty.grow history).path a b) ∧
      (∀ q, (restored.addNode q).2 = ((empty.grow history).addNode q).2) ∧
      ∀ requests, (restored.replies requests).map Reply.bare =
        ((empty.grow history).replies requests).map Reply.bare := by
  have hgrown := isGrown_grow history
  obtain ⟨record, hrecord, hread⟩ := hgrown.ofJson_toJson
  refine ⟨record, (empty.grow history).bare, hrecord, hread, ?_, fun a b => ⟨?_, ?_⟩, ?_, fun q => rfl, ?_⟩
  · rw [toJson_bare, hrecord]
  · rw [conditions_bare]
  · rw [conditions_bare, hgrown.conditions_comm]
  · exact fun a b => path_bare _ a b
  · exact replies_congr (bare_bare _)

end Graph

end Isolate
