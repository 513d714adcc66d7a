import Isolate.Proofs.Keeping.Contexts

/-!
# Workspaces over their history

A workspace is asked for one thing after the other (`Workspace.respond`), and some of it is refused. Whatever it was
asked for, its contexts are sound and its handles stand for contexts (`Workspace.IsSound.respond`), so this holds of
every workspace with a history (`Workspace.isSound_serve`). A request leaves an equation under its handle, or takes it
out (`Workspace.IsSound.getEquation_respond`).

* `Workspace.history_sound`: what holds of a workspace with any history, and of what it is asked for next.
-/

namespace Isolate.Workspace

/-! ## Requests -/

/-- What is asked of a workspace. -/
inductive Request where
  | addContext (name : String)
  | addSame (handle : String)
  | removeContext (handle : String)
  | addEquation (context : String) (q : Equation)
  | addText (context text : String)
  | removeEquation (context handle : String)
  | solve (context : String) (target : Option String)

/-- What a workspace answers. -/
inductive Reply where
  | handle (handle : String)
  | context (c : Context)
  | equation (q : Equation)
  | results (rs : List (String × Solved))

/-- Goes on with the workspace that an operation makes, or with the old one if it fails. -/
def conclude (w : Workspace) (answer : α → Reply) : Except Fault (Workspace × α) → Workspace × Except Fault Reply
  | .ok (w, a) => (w, .ok (answer a))
  | .error fault => (w, .error fault)

/-- Fulfils a request, or tells why not. -/
def respond (w : Workspace) : Request → Workspace × Except Fault Reply
  | .addContext name => ((w.addContext name).1, .ok (.handle (w.addContext name).2))
  | .addSame handle => w.conclude .handle (w.addSame handle)
  | .removeContext handle => w.conclude .context (w.removeContext handle)
  | .addEquation context q => w.conclude .handle (w.addEquation context q)
  | .addText context text => w.conclude .handle (w.addText context text)
  | .removeEquation context handle => ((w.withdraw context handle).1, (w.withdraw context handle).2.map .equation)
  | .solve context target => ((w.solve context target).1, (w.solve context target).2.map .results)

/-- The workspace that requests make of another, one after the other. -/
def serve (w : Workspace) (requests : List Request) : Workspace := requests.foldl (fun w r => (w.respond r).1) w

variable {w : Workspace} {strategies : List Strategy} {config : Config} {c c' : Context}
  {context handle k : String} {q : Equation} {i : Nat} {fault : Fault} {target : Option String}

/-! ## Contexts under handles -/

theorem get_of_lookup (h : w.handles.lookup handle = some i) : w.get handle = .ok (w.contexts.getD i ⟨"", [], []⟩) := by
  simp only [get, place, h]
  rfl

theorem get_of_lookup_eq_none (h : w.handles.lookup handle = none) : w.get handle = .error (.noContext handle) := by
  simp only [get, place, h]
  rfl

/-- A handle that is known stands for a place. -/
theorem lookup_of_get (h : w.get handle = .ok c) :
    ∃ i, w.handles.lookup handle = some i ∧ w.contexts.getD i ⟨"", [], []⟩ = c := by
  cases hi : w.handles.lookup handle with
  | none =>
    rw [get_of_lookup_eq_none hi] at h
    cases h
  | some i =>
    rw [get_of_lookup hi] at h
    exact ⟨i, rfl, Except.ok.inj h⟩

theorem update_of_lookup (h : w.handles.lookup handle = some i) (c : Context) :
    w.update handle c = { w with contexts := w.contexts.set i c } := by
  simp only [update, h]

/-- An equation under its handle, in the context under a handle. -/
theorem getEquation_eq_ok : w.getEquation context handle = .ok q ↔
    ∃ c, w.get context = .ok c ∧ c.equations.lookup handle = some q := by
  rw [getEquation, bind_eq_ok]
  refine exists_congr fun c => and_congr_right fun _ => ?_
  unfold Context.get
  cases c.equations.lookup handle <;> simp

/-! ## Sound workspaces -/

/-- All contexts are sound, and handles stand for contexts. -/
structure IsSound (strategies : List Strategy) (config : Config) (w : Workspace) : Prop where
  strategies_eq : w.strategies = strategies
  config_eq : w.config = config
  contexts : ∀ c ∈ w.contexts, c.IsSound strategies config w.nextEquation
  places : ∀ k i, w.handles.lookup k = some i → i < w.contexts.length

theorem isSound_new (config : Config) (strategies : List Strategy) : (new config strategies).IsSound strategies config where
  strategies_eq := rfl
  config_eq := rfl
  contexts _ h := by cases h
  places _ _ h := by cases h

/-- A context that replaces itself. -/
theorem update_of_get (h : w.get handle = .ok c) : w.update handle c = w := by
  obtain ⟨i, hi, hc⟩ := lookup_of_get h
  rw [update_of_lookup hi]
  by_cases hlt : i < w.contexts.length
  · rw [List.getD_eq_getElem _ _ hlt] at hc
    rw [← hc, List.set_getElem_self]
  · rw [List.set_eq_of_length_le (Nat.le_of_not_lt hlt)]

namespace IsSound

theorem of_get (h : w.IsSound strategies config) (hc : w.get handle = .ok c) :
    c.IsSound strategies config w.nextEquation := by
  obtain ⟨i, hi, rfl⟩ := lookup_of_get hc
  rw [List.getD_eq_getElem _ _ (h.places handle i hi)]
  exact h.contexts _ (List.getElem_mem _)

/-- A context is replaced. -/
theorem update (h : w.IsSound strategies config) (hc : c.IsSound strategies config w.nextEquation) (handle : String) :
    (w.update handle c).IsSound strategies config := by
  cases hi : w.handles.lookup handle with
  | none =>
    rw [show w.update handle c = w by simp only [Workspace.update, hi]]
    exact h
  | some i =>
    rw [update_of_lookup hi]
    refine ⟨h.strategies_eq, h.config_eq, fun d hd => ?_, fun k j hj => ?_⟩
    · rcases List.mem_or_eq_of_mem_set hd with hd | rfl
      · exact h.contexts d hd
      · exact hc
    · rw [List.length_set]
      exact h.places k j hj

/-- What is found under handles once a context is replaced. -/
theorem get_update (h : w.IsSound strategies config) (hi : w.handles.lookup handle = some i) (c : Context) (k : String) :
    (w.update handle c).get k = if w.handles.lookup k = some i then .ok c else w.get k := by
  rw [update_of_lookup hi]
  cases hk : w.handles.lookup k with
  | none => rw [get_of_lookup_eq_none hk, get_of_lookup_eq_none (by exact hk), if_neg nofun]
  | some j =>
    rw [get_of_lookup hk, get_of_lookup (by exact hk)]
    by_cases hj : j = i
    · subst hj
      rw [if_pos rfl, List.getD_eq_getElem _ _ (by simpa using h.places k j hk), List.getElem_set_self]
    · rw [if_neg (fun heq => hj (Option.some.inj heq)), List.getD_eq_getElem?_getD, List.getD_eq_getElem?_getD,
        List.getElem?_set_ne (Ne.symm hj)]

/-- An equation stays if the context that replaces another one has it, where the other one had. -/
theorem getEquation_update (h : w.IsSound strategies config) (hget : w.get context = .ok c)
    (hkeep : ∀ r, c.equations.lookup handle = some r → c'.equations.lookup handle = some r)
    (hq : w.getEquation k handle = .ok q) : (w.update context c').getEquation k handle = .ok q := by
  obtain ⟨i, hi, hc⟩ := lookup_of_get hget
  obtain ⟨d, hd, hlookup⟩ := getEquation_eq_ok.mp hq
  rw [getEquation_eq_ok, h.get_update hi]
  split
  · rename_i hk
    rw [get_of_lookup hk, hc] at hd
    cases hd
    exact ⟨c', rfl, hkeep q hlookup⟩
  · exact ⟨d, hd, hlookup⟩

end IsSound

/-- An equation stays if the context under its handle does. -/
theorem getEquation_of_get {w' : Workspace} (hget : ∀ c, w.get context = .ok c → w'.get context = .ok c)
    (hq : w.getEquation context handle = .ok q) : w'.getEquation context handle = .ok q := by
  obtain ⟨c, hc, hlookup⟩ := getEquation_eq_ok.mp hq
  exact getEquation_eq_ok.mpr ⟨c, hget c hc, hlookup⟩

/-! ## Operations -/

/-- A handle is given out. -/
theorem IsSound.issue (h : w.IsSound strategies config) (hi : i < w.contexts.length) :
    (w.issue i).1.IsSound strategies config where
  strategies_eq := h.strategies_eq
  config_eq := h.config_eq
  contexts := h.contexts
  places k j hj := by
    rw [Workspace.issue, List.lookup_append, Option.or_eq_some_iff] at hj
    rcases hj with hj | ⟨-, hj⟩
    · exact h.places k j hj
    · have hmem := (lookup_eq_some_iff (by simp)).mp hj
      obtain ⟨-, rfl⟩ := Prod.mk.inj (List.mem_singleton.mp hmem)
      exact hi

theorem get_issue (h : w.get k = .ok c) (i : Nat) : (w.issue i).1.get k = .ok c := by
  obtain ⟨j, hj, hc⟩ := lookup_of_get h
  rw [get_of_lookup (i := j) (by rw [issue, List.lookup_append, hj]; rfl), issue, hc]

theorem IsSound.addContext (h : w.IsSound strategies config) (name : String) :
    (w.addContext name).1.IsSound strategies config := by
  refine issue (w := { w with contexts := w.contexts ++ [⟨name, [], []⟩] }) ⟨h.strategies_eq, h.config_eq, ?_, ?_⟩ ?_
  · exact List.forall_mem_append.mpr
      ⟨h.contexts, List.forall_mem_singleton.mpr (Context.isSound_empty strategies config w.nextEquation name)⟩
  · intro k i hi
    rw [List.length_append]
    exact Nat.lt_add_right _ (h.places k i hi)
  · rw [List.length_append]
    exact Nat.lt_succ_self _

theorem IsSound.get_addContext (h : w.IsSound strategies config) (hc : w.get k = .ok c) (name : String) :
    (w.addContext name).1.get k = .ok c := by
  obtain ⟨i, hi, rfl⟩ := lookup_of_get hc
  refine get_issue (w := { w with contexts := w.contexts ++ [⟨name, [], []⟩] }) ?_ w.contexts.length
  rw [get_of_lookup (by exact hi), List.getD_append _ _ _ _ (h.places k i hi)]

theorem addSame_eq_ok {p : Workspace × String} (h : w.addSame handle = .ok p) :
    ∃ i, w.handles.lookup handle = some i ∧ p = w.issue i := by
  obtain ⟨i, hi, hp⟩ := bind_eq_ok.mp h
  refine ⟨i, ?_, (Except.ok.inj hp).symm⟩
  unfold place at hi
  split at hi
  · rename_i j hj
    rw [hj, Except.ok.inj hi]
  · cases hi

theorem removeContext_eq_ok {p : Workspace × Context} (h : w.removeContext handle = .ok p) :
    p.1 = { w with handles := w.handles.filter (·.1 ≠ handle) } := by
  unfold removeContext at h
  split at h
  · cases h
    rfl
  · cases h

theorem IsSound.forget (h : w.IsSound strategies config) (handle : String) :
    IsSound strategies config { w with handles := w.handles.filter (·.1 ≠ handle) } where
  strategies_eq := h.strategies_eq
  config_eq := h.config_eq
  contexts := h.contexts
  places k i hi := by
    rw [lookup_filter_ne] at hi
    split at hi
    · cases hi
    · exact h.places k i hi

/-- A context whose handle is taken out is not found, and all others are. -/
theorem get_forget (handle k : String) : ({ w with handles := w.handles.filter (·.1 ≠ handle) } : Workspace).get k =
    if k = handle then .error (.noContext k) else w.get k := by
  have hlookup := lookup_filter_ne handle k w.handles
  split at hlookup
  · rename_i hk
    rw [get_of_lookup_eq_none (by exact hlookup), if_pos hk]
  · rename_i hk
    rw [if_neg hk]
    cases hi : w.handles.lookup k with
    | none => rw [get_of_lookup_eq_none hi, get_of_lookup_eq_none (by exact hlookup.trans hi)]
    | some i => rw [get_of_lookup hi, get_of_lookup (by exact hlookup.trans hi)]

theorem addEquation_of_get (h : w.get context = .ok c) (q : Equation) : w.addEquation context q =
    .ok (({ w with nextEquation := w.nextEquation + 1 } : Workspace).update context
      { c with equations := c.equations ++ [(s!"e{w.nextEquation}", q)] }, s!"e{w.nextEquation}") := by
  rw [addEquation, h]
  unfold update
  cases w.handles.lookup context <;> rfl

theorem IsSound.later (h : w.IsSound strategies config) :
    IsSound strategies config { w with nextEquation := w.nextEquation + 1 } where
  strategies_eq := h.strategies_eq
  config_eq := h.config_eq
  contexts c hc := (h.contexts c hc).mono (Nat.le_succ _)
  places := h.places

/-- An equation is added to a context that is there. -/
theorem addEquation_eq_ok {p : Workspace × String} (h : w.addEquation context q = .ok p) :
    ∃ c, w.get context = .ok c ∧ p.1 = ({ w with nextEquation := w.nextEquation + 1 } : Workspace).update context
      { c with equations := c.equations ++ [(s!"e{w.nextEquation}", q)] } := by
  obtain ⟨c, hc, -⟩ := bind_eq_ok.mp h
  rw [addEquation_of_get hc] at h
  cases h
  exact ⟨c, hc, rfl⟩

theorem addText_eq_ok {p : Workspace × String} {text : String} (h : w.addText context text = .ok p) :
    ∃ q, w.addEquation context q = .ok p := by
  obtain ⟨-, -, h⟩ := bind_eq_ok.mp h
  obtain ⟨q, -, h⟩ := bind_eq_ok.mp h
  exact ⟨q, h⟩

theorem withdraw_of_get (h : w.get context = .ok c) (handle : String) :
    w.withdraw context handle = (w.update context (c.remove handle).1, (c.remove handle).2) := by
  rw [withdraw, h]

theorem withdraw_of_fault (h : w.get context = .error fault) (handle : String) :
    w.withdraw context handle = (w, .error fault) := by
  rw [withdraw, h]

theorem solve_of_get (h : w.get context = .ok c) (target : Option String) : w.solve context target =
    (w.update context (c.solveEach ⟨w.strategies, w.config, target⟩ c.equations).1,
      (c.solveEach ⟨w.strategies, w.config, target⟩ c.equations).2) := by
  rw [solve, h]

theorem solve_of_fault (h : w.get context = .error fault) (target : Option String) :
    w.solve context target = (w, .error fault) := by
  rw [solve, h]

/-! ## One request -/

theorem conclude_ok {answer : α → Reply} {r : Except Fault (Workspace × α)} {P : Workspace → Prop} (hw : P w)
    (hr : ∀ p, r = .ok p → P p.1) : P (w.conclude answer r).1 := by
  cases r with
  | ok p => exact hr p rfl
  | error fault => exact hw

theorem IsSound.addEquation (h : w.IsSound strategies config) {p : Workspace × String}
    (hp : w.addEquation context q = .ok p) : p.1.IsSound strategies config := by
  obtain ⟨c, hc, hp⟩ := addEquation_eq_ok hp
  rw [hp]
  exact h.later.update ((h.of_get hc).add q) context

/-- **A request leaves a sound workspace**, also one that is refused. -/
theorem IsSound.respond (h : w.IsSound strategies config) (r : Request) : (w.respond r).1.IsSound strategies config := by
  cases r with
  | addContext name => exact h.addContext name
  | addSame handle =>
    refine conclude_ok h fun p hp => ?_
    obtain ⟨i, hi, rfl⟩ := addSame_eq_ok hp
    exact h.issue (h.places handle i hi)
  | removeContext handle =>
    refine conclude_ok h fun p hp => ?_
    rw [removeContext_eq_ok hp]
    exact h.forget handle
  | addEquation context q => exact conclude_ok h fun p hp => h.addEquation hp
  | addText context text =>
    refine conclude_ok h fun p hp => ?_
    obtain ⟨q, hq⟩ := addText_eq_ok hp
    exact h.addEquation hq
  | removeEquation context handle =>
    show (w.withdraw context handle).1.IsSound strategies config
    cases hc : w.get context with
    | error fault =>
      rw [withdraw_of_fault hc]
      exact h
    | ok c =>
      rw [withdraw_of_get hc]
      exact h.update ((h.of_get hc).remove handle) context
  | solve context target =>
    show (w.solve context target).1.IsSound strategies config
    cases hc : w.get context with
    | error fault =>
      rw [solve_of_fault hc]
      exact h
    | ok c =>
      have hsound := h.of_get hc
      rw [solve_of_get hc, h.strategies_eq, h.config_eq]
      exact h.update (hsound.solveEach fun p hp => (lookup_eq_some_iff hsound.distinct).mpr hp) context

/-- Is it a request to solve? -/
def Request.isSolve : Request → Bool
  | solve .. => true
  | _ => false

theorem conclude_of_fault {answer : α → Reply} {r : Except Fault (Workspace × α)}
    (h : (w.conclude answer r).2 = .error fault) : (w.conclude answer r).1 = w := by
  cases r with
  | ok p => cases h
  | error fault => rfl

/-- **What is refused changes nothing**, if it is not to solve. -/
theorem IsSound.respond_of_fault (h : w.IsSound strategies config) {r : Request} (hr : r.isSolve = false)
    (hfault : (w.respond r).2 = .error fault) : (w.respond r).1 = w := by
  cases r with
  | addContext name => cases hfault
  | removeEquation context handle =>
    have hfault := map_eq_error.mp hfault
    show (w.withdraw context handle).1 = w
    cases hc : w.get context with
    | error fault => rw [withdraw_of_fault hc]
    | ok c =>
      rw [withdraw_of_get hc] at hfault ⊢
      show w.update context (c.remove handle).1 = w
      rw [(h.of_get hc).remove_of_fault hfault, update_of_get hc]
  | solve context target => cases hr
  | _ => exact conclude_of_fault hfault

/-- Does a request take out what a handle of a context stands for? The context may have another handle too. -/
def Request.TakesOut (w : Workspace) (context handle : String) : Request → Prop
  | removeContext k => k = context
  | removeEquation k other => other = handle ∧ w.place k = w.place context
  | _ => False

theorem IsSound.getEquation_addEquation (h : w.IsSound strategies config) {p : Workspace × String} {r : Equation}
    (hp : w.addEquation k r = .ok p) (hq : w.getEquation context handle = .ok q) :
    p.1.getEquation context handle = .ok q := by
  obtain ⟨c, hc, hp⟩ := addEquation_eq_ok hp
  rw [hp]
  refine h.later.getEquation_update hc (fun s hs => ?_) hq
  rw [List.lookup_append, hs]
  rfl

theorem getEquation_conclude {answer : α → Reply} {r : Except Fault (Workspace × α)}
    (hq : w.getEquation context handle = .ok q) (hr : ∀ p, r = .ok p → p.1.getEquation context handle = .ok q) :
    (w.conclude answer r).1.getEquation context handle = .ok q :=
  conclude_ok (P := fun w => w.getEquation context handle = .ok q) hq hr

theorem getEquation_removeContext {p : Workspace × Context} (hp : w.removeContext k = .ok p)
    (hq : w.getEquation context handle = .ok q) : p.1.getEquation context handle = .ok q ∨
      k = context ∧ ∃ fault, p.1.getEquation context handle = .error fault := by
  rw [removeContext_eq_ok hp]
  by_cases hk : context = k
  · refine .inr ⟨hk.symm, .noContext context, ?_⟩
    rw [getEquation, get_forget, if_pos hk]
    rfl
  · exact .inl (getEquation_of_get (fun c hc => by rw [get_forget, if_neg hk, hc]) hq)

/-- Only the equation that it is asked for is withdrawn, and under whatever handle its context is known. -/
theorem IsSound.getEquation_withdraw (h : w.IsSound strategies config) (hq : w.getEquation context handle = .ok q)
    (k other : String) : (w.withdraw k other).1.getEquation context handle = .ok q ∨
      (other = handle ∧ w.place k = w.place context) ∧
        ∃ fault, (w.withdraw k other).1.getEquation context handle = .error fault := by
  cases hc : w.get k with
  | error fault =>
    rw [withdraw_of_fault hc]
    exact .inl hq
  | ok c =>
    rw [withdraw_of_get hc]
    by_cases hother : handle = other
    · obtain ⟨i, hi, -⟩ := lookup_of_get hc
      by_cases hplace : w.handles.lookup context = some i
      · have hsame : w.place k = w.place context := by rw [place, place, hi, hplace]
        refine .inr ⟨⟨hother.symm, hsame⟩, .noEquation handle (c.remove other).1.name, ?_⟩
        rw [getEquation, h.get_update hi, if_pos hplace]
        show (c.remove other).1.get handle = _
        rw [Context.get, (Context.lookup_remove c other handle).1, if_pos hother]
      · refine .inl (getEquation_of_get (fun d hd => ?_) hq)
        rw [h.get_update hi, if_neg hplace, hd]
    · refine .inl (h.getEquation_update hc (fun r hr => ?_) hq)
      rw [(Context.lookup_remove c other handle).1, if_neg hother, hr]

theorem IsSound.getEquation_solve (h : w.IsSound strategies config) (hq : w.getEquation context handle = .ok q)
    (k : String) (target : Option String) : (w.solve k target).1.getEquation context handle = .ok q := by
  cases hc : w.get k with
  | error fault =>
    rw [solve_of_fault hc]
    exact hq
  | ok c =>
    rw [solve_of_get hc]
    refine h.getEquation_update hc (fun r hr => ?_) hq
    rw [Context.equations_solveEach, hr]

/-- **A request leaves an equation under its handle, or takes it out.** -/
theorem IsSound.getEquation_respond (h : w.IsSound strategies config) (hq : w.getEquation context handle = .ok q)
    (r : Request) : (w.respond r).1.getEquation context handle = .ok q ∨
      r.TakesOut w context handle ∧ ∃ fault, (w.respond r).1.getEquation context handle = .error fault := by
  cases r with
  | addContext name => exact .inl (getEquation_of_get (fun c hc => h.get_addContext hc name) hq)
  | addSame k =>
    refine .inl (getEquation_conclude hq fun p hp => ?_)
    obtain ⟨i, -, rfl⟩ := addSame_eq_ok hp
    exact getEquation_of_get (fun c hc => get_issue hc i) hq
  | removeContext k =>
    cases hp : w.removeContext k with
    | error fault =>
      rw [Workspace.respond, hp]
      exact .inl hq
    | ok p =>
      rw [Workspace.respond, hp]
      exact getEquation_removeContext hp hq
  | addEquation k r => exact .inl (getEquation_conclude hq fun p hp => h.getEquation_addEquation hp hq)
  | addText k text =>
    refine .inl (getEquation_conclude hq fun p hp => ?_)
    obtain ⟨r, hr⟩ := addText_eq_ok hp
    exact h.getEquation_addEquation hr hq
  | removeEquation k other => exact h.getEquation_withdraw hq k other
  | solve k target => exact .inl (h.getEquation_solve hq k target)

/-! ## Solving -/

/-- Solving does not fail just if the context is there and each of its equations can be solved. -/
theorem IsSound.exists_results_iff (h : w.IsSound strategies config) (context : String) (target : Option String) :
    (∃ results, (w.solve context target).2 = .ok results) ↔
      ∃ c, w.get context = .ok c ∧ ∀ p ∈ c.equations, ∃ s, (p.2.solve ⟨strategies, config, target⟩).1 = .ok s := by
  cases hc : w.get context with
  | error fault =>
    rw [solve_of_fault hc]
    constructor
    · rintro ⟨_, hs⟩
      cases hs
    · rintro ⟨_, hd, -⟩
      cases hd
  | ok c =>
    rw [solve_of_get hc, h.strategies_eq, h.config_eq, Context.exists_results_iff]
    exact ⟨fun hs => ⟨c, rfl, hs⟩, fun ⟨d, hd, hs⟩ => by cases hd; exact hs⟩

/-- **What is kept after solving** is, for every equation, the result that it has alone, and this is what is told. -/
theorem IsSound.solve_eq_ok (h : w.IsSound strategies config) {results : List (String × Solved)}
    (hs : (w.solve context target).2 = .ok results) : ∃ c, (w.solve context target).1.get context = .ok c ∧
      results.map Prod.fst = c.equations.map Prod.fst ∧ ∀ k q, c.equations.lookup k = some q →
        ∃ s, (q.solve ⟨strategies, config, target⟩).1 = .ok s ∧ c.results.lookup k = some s ∧
          results.lookup k = some s := by
  cases hc : w.get context with
  | error fault =>
    rw [solve_of_fault hc] at hs
    cases hs
  | ok c =>
    obtain ⟨i, hi, -⟩ := lookup_of_get hc
    have hdistinct := (h.of_get hc).distinct
    rw [solve_of_get hc, h.strategies_eq, h.config_eq] at hs ⊢
    obtain ⟨hkeys, hsolved⟩ := Context.solveEach_eq_ok hdistinct hs
    refine ⟨_, (h.get_update hi _ context).trans (if_pos hi), ?_, fun k q hq => ?_⟩
    · rw [hkeys, Context.equations_solveEach]
    · rw [Context.equations_solveEach, lookup_eq_some_iff hdistinct] at hq
      exact hsolved (k, q) hq

/-! ## Any history -/

/-- **A workspace with any history is sound.** -/
theorem isSound_serve (config : Config) (strategies : List Strategy) (requests : List Request) :
    ((new config strategies).serve requests).IsSound strategies config := by
  have hserve : ∀ w : Workspace, w.IsSound strategies config → (w.serve requests).IsSound strategies config := by
    induction requests with
    | nil => exact fun _ h => h
    | cons r requests ih => exact fun w h => ih _ (h.respond r)
  exact hserve _ (isSound_new config strategies)

/-- **What holds of a workspace with any history.** In every context, only what has an equation has a result. What is
refused changes nothing, if it is not to solve. A request leaves an equation under its handle, or takes it out. And if
solving does not fail, then what is kept for each equation is the result that it has alone; it does not fail just if each
equation can be solved. -/
theorem history_sound (config : Config) (strategies : List Strategy) (requests : List Request) :
    let w := (new config strategies).serve requests
    (∀ c ∈ w.contexts, c.results.map Prod.fst ⊆ c.equations.map Prod.fst) ∧
    (∀ r fault, r.isSolve = false → (w.respond r).2 = .error fault → (w.respond r).1 = w) ∧
    (∀ r context handle q, w.getEquation context handle = .ok q → (w.respond r).1.getEquation context handle = .ok q ∨
      r.TakesOut w context handle ∧ ∃ fault, (w.respond r).1.getEquation context handle = .error fault) ∧
    (∀ context target results, (w.solve context target).2 = .ok results →
      ∃ c, (w.solve context target).1.get context = .ok c ∧ results.map Prod.fst = c.equations.map Prod.fst ∧
        ∀ handle q, c.equations.lookup handle = some q → ∃ s, (q.solve ⟨strategies, config, target⟩).1 = .ok s ∧
          c.results.lookup handle = some s ∧ results.lookup handle = some s) ∧
    ∀ context target, (∃ results, (w.solve context target).2 = .ok results) ↔
      ∃ c, w.get context = .ok c ∧ ∀ p ∈ c.equations, ∃ s, (p.2.solve ⟨strategies, config, target⟩).1 = .ok s := by
  intro w
  have h : w.IsSound strategies config := isSound_serve config strategies requests
  exact ⟨fun c hc => (h.contexts c hc).keys_subset, fun r fault hr hfault => h.respond_of_fault hr hfault,
    fun r context handle q hq => h.getEquation_respond hq r, fun context target results hs => h.solve_eq_ok hs,
    h.exists_results_iff⟩

-- The second equation has three sides; the result of the first one stays.
example : (((new default [.applyInverse]).serve [.addContext "c", .addEquation "c0" ⟨[.var "x", .number 2]⟩,
    .addEquation "c0" ⟨[.var "x", .var "y", .number 2]⟩, .solve "c0" none]).get "c0").map (·.results.map Prod.fst) =
    .ok ["e0"] := by cbv

end Isolate.Workspace
