import Isolate.Proofs.Solving.Skeleton

/-!
# What the search leaves alone

A node that is added below another one, or the equation of a node that is replaced, changes nothing that is read
elsewhere in the graph (`Graph.get_addPath`, `Graph.get_set`, `Graph.conditions_set`).

* `Graph.Frame`: all nodes that were there are still there, those of a list apart with the equations that they held, and
  with the conditions between them.
-/

namespace Isolate.Graph

variable {g g' g'' : Graph} {i j k child : Int} {q : Equation} {conditions : List String} {is is' : List Int}

/-! ## Nodes -/

theorem index_of_node? {n : GraphNode} (h : g.node? i = some n) : n.index = i := by simpa using List.find?_some h

theorem node?_modifyNode {f : GraphNode → GraphNode} (hf : ∀ n, (f n).index = n.index) (g : Graph) (i j : Int) :
    (g.modifyNode i f).node? j = if j = i then (g.node? j).map f else g.node? j := by
  have hfind : (g.modifyNode i f).node? j = (g.node? j).map fun n => if n.index = i then f n else n := by
    rw [node?, modifyNode, List.find?_map, node?]
    refine congrArg _ (congrArg (fun p => g.nodes.find? p) (funext fun n => ?_))
    simp only [Function.comp_apply]
    split
    · rw [hf]
    · rfl
  rw [hfind]
  cases hn : g.node? j with
  | none => simp
  | some n => simp [index_of_node? hn]; split <;> rfl

/-- A node that is new holds its equation and has no neighbours. -/
theorem node?_put (h : g.contains i = false) (q : Equation) (j : Int) :
    (g.put i q).node? j = if j = i then some ⟨i, some q, []⟩ else g.node? j := by
  have hnone : g.node? i = none := by simpa [contains] using h
  have hensure : (g.ensure i).node? j = (g.node? j).or (if i = j then some ⟨i, none, []⟩ else none) := by
    rw [ensure, h, if_neg Bool.false_ne_true, node?, List.find?_append, node?, List.find?_singleton]
    simp
  rw [put, node?_modifyNode (by exact fun _ => rfl), hensure]
  by_cases hj : j = i
  · subst hj
    simp [hnone]
  · simp [hj, Ne.symm hj]

theorem lookup_setNeighbour (b : Int) (conditions : List String) (ns : List (Int × List String)) (k : Int) :
    (setNeighbour b conditions ns).lookup k = if k = b then some conditions else ns.lookup k := by
  induction ns with
  | nil =>
    by_cases hk : k = b
    · simp [setNeighbour, hk]
    · simp [setNeighbour, List.lookup_cons, hk, beq_false_of_ne hk]
  | cons n ns ih =>
    obtain ⟨j, cs⟩ := n
    rw [setNeighbour]
    split
    · rename_i hj
      subst hj
      by_cases hk : k = j
      · simp [hk]
      · simp [List.lookup_cons, hk, beq_false_of_ne hk]
    · rename_i hj
      by_cases hk : k = j
      · simp [hk, hj]
      · simp [List.lookup_cons, ih, beq_false_of_ne hk]

/-- A node that is added below another one: it holds its equation, and the two are neighbours now. -/
theorem node?_addPath (hnew : g.contains g.next = false) (h : g.addPath q conditions i = .ok (g', child)) (j : Int) :
    g'.node? j = if j = child then some ⟨child, some q, [(i, conditions)]⟩
      else if j = i then (g.node? j).map fun n => { n with neighbours := setNeighbour child conditions n.neighbours }
      else g.node? j := by
  unfold addPath at h
  split at h
  · rename_i hi
    obtain ⟨rfl, rfl⟩ := Prod.mk.inj (Except.ok.inj h)
    have hput : ∀ j, (g.addNode q).1.node? j = if j = g.next then some ⟨g.next, some q, []⟩ else g.node? j :=
      node?_put hnew q
    have hne : i ≠ g.next := by
      rintro rfl
      rw [hi] at hnew
      cases hnew
    have hparent : (g.addNode q).1.contains i = true := by
      rw [contains, hput, if_neg hne]
      exact hi
    have hchild : (g.addNode q).1.contains g.next = true := by
      rw [contains, hput, if_pos rfl]
      rfl
    show ((g.addNode q).1.addEdge i g.next conditions).node? j = _
    rw [addEdge, ensure_eq_self hparent, ensure_eq_self hchild]
    simp only
    rw [node?_modifyNode (by exact fun _ => rfl), node?_modifyNode (by exact fun _ => rfl), hput]
    by_cases hj : j = g.next
    · subst hj
      simp [Ne.symm hne, setNeighbour]
    · simp [hj]
  · cases h

theorem node?_set (h : g.set i q = .ok g') (j : Int) :
    g'.node? j = if j = i then (g.node? j).map fun n => { n with equation := some q } else g.node? j := by
  unfold set at h
  split at h
  · obtain rfl := Except.ok.inj h
    exact node?_modifyNode (by exact fun _ => rfl) g i j
  · cases h

/-! ## Equations and conditions -/

theorem contains_of_get (h : g.get i = .ok q) : g.contains i = true := by
  unfold get at h
  split at h
  · rename_i n hn
    rw [contains, hn]
    rfl
  · cases h

theorem get_addPath (hnew : g.contains g.next = false) (h : g.addPath q conditions i = .ok (g', child)) (j : Int) :
    g'.get j = if j = child then .ok q else g.get j := by
  rw [get, node?_addPath hnew h, get]
  by_cases hj : j = child
  · rw [if_pos hj, if_pos hj]
    rfl
  · rw [if_neg hj, if_neg hj]
    by_cases hi : j = i
    · rw [if_pos hi]
      cases g.node? j <;> rfl
    · rw [if_neg hi]

/-- The conditions on the way to a node that is added. -/
theorem conditions_addPath (hnew : g.contains g.next = false) (h : g.addPath q conditions i = .ok (g', child)) :
    g'.conditions i child = .ok conditions := by
  have hi : g.contains i = true := by
    unfold addPath at h
    split at h
    · rename_i hi
      exact hi
    · cases h
  have hne : i ≠ child := by
    rintro rfl
    rw [(skeleton_addPath hnew h).1] at hi
    rw [hi] at hnew
    cases hnew
  obtain ⟨n, hn⟩ := Option.isSome_iff_exists.mp hi
  rw [Graph.conditions, node?_addPath hnew h, if_neg hne, if_pos rfl, hn, Option.map_some, Option.bind_some,
    lookup_setNeighbour, if_pos rfl]

theorem conditions_addPath_of_ne (hnew : g.contains g.next = false) (h : g.addPath q conditions i = .ok (g', child))
    (hj : j ≠ child) (hk : k ≠ child) : g'.conditions j k = g.conditions j k := by
  rw [Graph.conditions, node?_addPath hnew h, if_neg hj, Graph.conditions]
  by_cases hi : j = i
  · rw [if_pos hi]
    cases g.node? j with
    | none => rfl
    | some n => rw [Option.map_some, Option.bind_some, Option.bind_some, lookup_setNeighbour, if_neg hk]
  · rw [if_neg hi]

theorem contains_set (h : g.set i q = .ok g') (j : Int) : g'.contains j = g.contains j := by
  rw [Bool.eq_iff_iff, contains_iff, contains_iff, (skeleton_set h).1]

theorem get_set (h : g.set i q = .ok g') (j : Int) : g'.get j = if j = i then .ok q else g.get j := by
  rw [get, node?_set h, get]
  by_cases hj : j = i
  · rw [if_pos hj, if_pos hj, hj]
    unfold set at h
    split at h
    · rename_i hi
      obtain ⟨n, hn⟩ := Option.isSome_iff_exists.mp hi
      rw [hn]
      rfl
    · cases h
  · rw [if_neg hj, if_neg hj]

theorem conditions_set (h : g.set i q = .ok g') (j k : Int) : g'.conditions j k = g.conditions j k := by
  rw [Graph.conditions, node?_set h, Graph.conditions]
  by_cases hj : j = i
  · rw [if_pos hj]
    cases g.node? j <;> rfl
  · rw [if_neg hj]

/-! ## Frames -/

/-- The second graph has the nodes of the first one, those outside the list with the same equations, and the same
conditions between them. -/
structure Frame (is : List Int) (g g' : Graph) : Prop where
  contains_of : ∀ j, g.contains j = true → g'.contains j = true
  get_eq : ∀ j, g.contains j = true → j ∉ is → g'.get j = g.get j
  conditions_eq : ∀ j k, g.contains j = true → g.contains k = true → g'.conditions j k = g.conditions j k

namespace Frame

theorem refl (is : List Int) (g : Graph) : Frame is g g := ⟨fun _ h => h, fun _ _ _ => rfl, fun _ _ _ _ => rfl⟩

/-- One change after the other; the second may be at nodes that were not there before the first. -/
theorem trans {out : List Int} (h : Frame is g g') (h' : Frame is' g' g'')
    (hout : ∀ j, g.contains j = true → j ∉ out → j ∉ is ∧ j ∉ is') : Frame out g g'' := by
  refine ⟨fun j hj => h'.contains_of j (h.contains_of j hj), fun j hj hnot => ?_, fun j k hj hk => ?_⟩
  · obtain ⟨his, his'⟩ := hout j hj hnot
    rw [h'.get_eq j (h.contains_of j hj) his', h.get_eq j hj his]
  · rw [h'.conditions_eq j k (h.contains_of j hj) (h.contains_of k hk), h.conditions_eq j k hj hk]

theorem addPath (hnew : g.contains g.next = false) (h : g.addPath q conditions i = .ok (g', child)) :
    Frame [] g g' := by
  have hne : ∀ j, g.contains j = true → j ≠ child := by
    rintro j hj rfl
    rw [(skeleton_addPath hnew h).1, hnew] at hj
    cases hj
  refine ⟨fun j hj => ?_, fun j hj _ => ?_, fun j k hj hk => ?_⟩
  · rw [contains, node?_addPath hnew h, if_neg (hne j hj)]
    split
    · rw [Option.isSome_map]
      exact hj
    · exact hj
  · rw [get_addPath hnew h, if_neg (hne j hj)]
  · exact conditions_addPath_of_ne hnew h (hne j hj) (hne k hk)

theorem set (h : g.set i q = .ok g') : Frame [i] g g' := by
  refine ⟨fun j hj => by rwa [contains_set h], fun j _ hj => ?_, fun j k _ _ => conditions_set h j k⟩
  rw [get_set h, if_neg (List.mem_singleton.not.mp hj)]

end Frame

end Isolate.Graph
