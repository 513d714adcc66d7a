import Isolate.Proofs.Analysis.Summaries
import Isolate.Proofs.Tree.Effects

/-!
# Analysis within a number of levels

An analysis is an edit in place, from the bottom up, that notes at a node what its operands amount to (`Expr.note`).
Within a number of levels, this is right as far as the summaries are that stand one level further down: those are taken
on trust, and if one of them is missing, the analysis ends (`Expr.goesOn_analyze`).

* `Expr.level`: the subexpressions that are a number of levels below.
* `Expr.level_editUp_note` and `Expr.isDescribed_editUp_note`: what is out of reach is left, and what is within reach
  gets summaries that describe it.
* `Expr.analyzeWithin_exact`: what an analysis does, with and without a limit.
-/

namespace Isolate

namespace Expr

variable {e : Expr} {reach : Reach} {d k : Nat}

/-! ## Levels -/

/-- The subexpressions that are so many levels below. -/
def level : Nat → Expr → List Expr
  | 0, e => [e]
  | k + 1, e => e.children.flatMap (level k)

theorem level_succ (k : Nat) (e : Expr) : e.level (k + 1) = e.children.flatMap (level k) := rfl

theorem level_one (e : Expr) : e.level 1 = e.children := List.flatMap_singleton' _

/-! ## Noting what the operands amount to -/

/-- Notes at a node what its operands amount to together. -/
def note (e : Expr) : Expr := { e with summary := some (e.shape.map noteOr).summary }

theorem isDescribed_note (h : ∀ a ∈ e.children, a.IsDescribed) : e.note.IsDescribed := by
  have hchild : ∀ a ∈ e.shape.children, a.noteOr.Describes a := fun a ha => by
    obtain ⟨s, hs, hdescribes⟩ := h a ha
    rwa [noteOr, hs]
  exact ⟨_, rfl, (describes_summary hchild).congr fun k name => mentions_of_shape rfl⟩

/-- An analysis notes, at every node, what the operands amount to. -/
theorem analyze_eq_editUp (e : Expr) : e.analyze = e.editUp note .all := by
  induction e using Expr.induction with
  | h e ih =>
    rw [analyze_eq', editUp_all, Shape.map_congr ih]
    rfl

theorem bare_editUp_note (reach : Reach) (e : Expr) : (e.editUp note reach).bare = e.bare := by
  induction e using Expr.induction generalizing reach with
  | h e ih =>
    have hnote : ∀ a : Expr, a.note.bare = a.bare := fun a => by rw [note, bare_mk, ← bare_eq]
    rw [editUp_eq, editStep]
    split
    · exact hnote e
    · rename_i r _
      rw [hnote, bare_mk, Shape.map_map, Shape.map_map, bare_eq e]
      exact congrArg (Expr.mk _ · _) (Shape.map_congr fun a ha => ih a ha r)

theorem editUp_zero (f : Expr → Expr) (e : Expr) : e.editUp f (.levels 0) = f e := by
  rw [editUp_eq]
  rfl

theorem editUp_succ (f : Expr → Expr) (e : Expr) (d : Nat) :
    e.editUp f (.levels (d + 1)) = f { e with shape := e.shape.map (editUp f (.levels d)) } := by
  rw [editUp_eq]
  simp [editStep, Reach.below?, Function.comp_def]

theorem children_editUp_note (e : Expr) (d : Nat) :
    (e.editUp note (.levels (d + 1))).children = e.children.map (editUp note (.levels d)) := by
  rw [editUp_succ, note, children, Shape.children_map]
  rfl

/-- What is out of reach is left as it is. -/
theorem level_editUp_note (h : d < k) : (e.editUp note (.levels d)).level k = e.level k := by
  induction d generalizing e k with
  | zero =>
    cases k with
    | zero => omega
    | succ k =>
      rw [editUp_zero]
      rfl
  | succ d ih =>
    cases k with
    | zero => omega
    | succ k =>
      rw [level_succ, level_succ, children_editUp_note, List.flatMap_map]
      exact List.flatMap_congr fun a _ => ih (by omega)

/-- What is within reach is described if what is just out of reach is. -/
theorem isDescribed_editUp_note (h : ∀ a ∈ e.level (d + 1), a.IsDescribed) (hk : k ≤ d) :
    ∀ a ∈ (e.editUp note (.levels d)).level k, a.IsDescribed := by
  induction d generalizing e k with
  | zero =>
    obtain rfl : k = 0 := by omega
    rw [level_one] at h
    rw [editUp_zero]
    exact List.forall_mem_singleton.mpr (isDescribed_note h)
  | succ d ih =>
    have hbelow : ∀ c ∈ e.children, ∀ k ≤ d, ∀ a ∈ (c.editUp note (.levels d)).level k, a.IsDescribed :=
      fun c hc k hk => ih (fun a ha => h a (List.mem_flatMap.mpr ⟨c, hc, ha⟩)) hk
    cases k with
    | zero =>
      rw [editUp_succ]
      refine List.forall_mem_singleton.mpr (isDescribed_note ?_)
      rw [children, Shape.children_map]
      exact List.forall_mem_map.mpr fun c hc => hbelow c hc 0 (by omega) _ (List.mem_singleton_self _)
    | succ k =>
      rw [level_succ, children_editUp_note, List.flatMap_map]
      exact List.forall_mem_flatMap.mpr fun c hc => hbelow c hc k (by omega)

/-! ## The run of an analysis -/

/-- Where the condition holds, the action gives the result and the analysis goes on; elsewhere it ends there. An
analysis that has ended does not go on again. -/
structure GoesOn (x : StateM Bool α) (P : Prop) (a : α) : Prop where
  goes : P → x.run true = (a, true)
  ends : ¬P → (x.run true).2 = false
  ended : (x.run false).2 = false

theorem isTold_goesOn : IsTold GoesOn where
  pure _ := ⟨fun _ => rfl, fun h => absurd trivial h, rfl⟩
  bind {_ _ x f P Q a g} hx hf := by
    have hrun : ∀ s, (x >>= f).run s = (f (x.run s).1).run (x.run s).2 := fun _ => rfl
    refine ⟨?_, fun hnot => ?_, ?_⟩
    · rintro ⟨hP, hQ⟩
      rw [hrun, hx.goes hP]
      exact (hf a).goes hQ
    · rw [hrun]
      by_cases hP : P
      · rw [hx.goes hP]
        exact (hf a).ends fun hQ => hnot ⟨hP, hQ⟩
      · rw [hx.ends hP]
        exact (hf _).ended
    · rw [hrun, hx.ended]
      exact (hf _).ended
  congr hx hiff := ⟨fun h => hx.goes (hiff.mp h), fun h => hx.ends (mt hiff.mpr h), hx.ended⟩

theorem isGiven_note? (e : Expr) : IsGiven e.note? (∀ a ∈ e.children, a.summary ≠ none) e.note := by
  have hchild : ∀ a ∈ e.shape.children, IsGiven a.summary (a.summary ≠ none) a.noteOr := by
    intro a _
    cases ha : a.summary with
    | none => exact ⟨fun h => absurd rfl h, fun _ => rfl⟩
    | some s => exact ⟨fun _ => by rw [noteOr, ha]; rfl, fun h => absurd (Option.some_ne_none s) h⟩
  exact isTold_isGiven.map (isTold_isGiven.mapShape hchild) fun b => { e with summary := some b.summary }

/-- Notes a summary at a node, unless the analysis has ended. -/
def noteAction (e : Expr) : StateM Bool Expr := do
  if !(← get) then return e
  match e.note? with
  | some e => return e
  | none =>
    set false
    return e

theorem goesOn_noteAction (e : Expr) : GoesOn e.noteAction (∀ a ∈ e.children, a.summary ≠ none) e.note where
  goes h := by
    rw [noteAction, (isGiven_note? e).eq_some h]
    rfl
  ends h := by
    rw [noteAction, (isGiven_note? e).eq_none h]
    rfl
  ended := rfl

variable {below : Shape (Reach → StateM Bool Expr)} {P : Prop}

theorem goesOn_analyzeStep_here (h : reach.below? = none) :
    GoesOn (analyzeStep e below reach) (∀ a ∈ e.children, a.summary ≠ none) e.note := by
  have hrun : (analyzeStep e below reach).run true = e.noteAction.run true := by
    unfold analyzeStep
    rw [h]
    rfl
  have hnote := goesOn_noteAction e
  exact ⟨fun hP => hrun.trans (hnote.goes hP), fun hP => by rw [hrun]; exact hnote.ends hP, rfl⟩

theorem goesOn_analyzeStep_below {r : Reach} {b : Shape Expr} (h : reach.below? = some r)
    (hbelow : GoesOn (below.mapM (· r)) P b) (hall : ∀ a ∈ b.children, a.summary ≠ none) :
    GoesOn (analyzeStep e below reach) P (note { e with shape := b }) := by
  have hrun : (analyzeStep e below reach).run true =
      let done := (below.mapM (m := StateM Bool) fun x => x r).run true
      (noteAction { e with shape := done.1 }).run done.2 := by
    unfold analyzeStep
    rw [h]
    rfl
  refine ⟨fun hP => ?_, fun hP => ?_, rfl⟩
  · rw [hrun, hbelow.goes hP]
    exact (goesOn_noteAction _).goes hall
  · rw [hrun]
    simp only [hbelow.ends hP]
    exact (goesOn_noteAction _).ended

/-- Is everything noted that the analysis takes on trust? -/
def IsCovered : Reach → Expr → Prop
  | .all, _ => True
  | .levels d, e => ∀ a ∈ e.level (d + 1), a.summary ≠ none

theorem summary_editUp_note (reach : Reach) (e : Expr) : (e.editUp note reach).summary ≠ none := by
  rw [editUp_eq, editStep]
  split <;> exact Option.some_ne_none _

/-- **An analysis goes on to the end just if everything is noted that it takes on trust**, and then it has noted at each
node within reach what the operands of the node amount to. -/
theorem goesOn_analyze (reach : Reach) (e : Expr) :
    GoesOn (e.fold analyzeStep reach) (IsCovered reach e) (e.editUp note reach) := by
  induction e using Expr.induction generalizing reach with
  | h e ih =>
    have hbelow : ∀ r, GoesOn ((e.shape.map (fold analyzeStep)).mapM fun x : Reach → StateM Bool Expr => x r)
        (∀ a ∈ e.children, IsCovered r a) (e.shape.map (editUp note r)) := by
      intro r
      rw [Shape.mapM_map]
      exact isTold_goesOn.mapShape fun a ha => ih a ha r
    have hnoted : ∀ r, ∀ a ∈ (e.shape.map (editUp note r)).children, a.summary ≠ none := by
      intro r
      rw [Shape.children_map]
      exact List.forall_mem_map.mpr fun a _ => summary_editUp_note r a
    rw [fold_eq]
    cases reach with
    | all =>
      rw [editUp_all]
      exact isTold_goesOn.congr (goesOn_analyzeStep_below rfl (hbelow .all) (hnoted .all)) (by simp [IsCovered])
    | levels d =>
      cases d with
      | zero =>
        rw [editUp_zero]
        exact isTold_goesOn.congr (goesOn_analyzeStep_here rfl) (by rw [IsCovered, level_one])
      | succ d =>
        rw [editUp_succ]
        refine isTold_goesOn.congr (goesOn_analyzeStep_below rfl (hbelow (.levels d)) (hnoted (.levels d))) ?_
        rw [IsCovered, level_succ, List.forall_mem_flatMap]
        rfl

/-! ## Analysing -/

/-- The second expression is the first one with everything described down to the level, and as it was below. -/
structure IsDescribedTo (d : Nat) (e a : Expr) : Prop where
  bare_eq : a.bare = e.bare
  described : ∀ k ≤ d, ∀ b ∈ a.level k, b.IsDescribed
  untouched : ∀ k, d < k → a.level k = e.level k

/-- **An analysis is exact, and one that is limited can be trusted.** Without a limit, every node of the tree gets a
summary that describes it, whatever was noted before. Within a number of levels, the analysis fails just if a node right
below the last level has no summary; and if the summaries there describe their nodes, it does not fail, describes every
node within reach and leaves those below as they are. -/
theorem analyzeWithin_exact (e : Expr) :
    (e.analyzeWithin .all = (e.analyze, true) ∧ e.analyze.bare = e.bare ∧ e.analyze.Everywhere IsDescribed) ∧
      ∀ d, ((e.analyzeWithin (.levels d)).2 = false ↔ ∃ a ∈ e.level (d + 1), a.summary = none) ∧
        ((∀ a ∈ e.level (d + 1), a.IsDescribed) →
          (e.analyzeWithin (.levels d)).2 = true ∧ IsDescribedTo d e (e.analyzeWithin (.levels d)).1) := by
  refine ⟨⟨?_, bare_analyze e, everywhere_isDescribed_analyze e⟩, fun d => ?_⟩
  · rw [analyze_eq_editUp]
    exact (goesOn_analyze .all e).goes trivial
  · have hrun := goesOn_analyze (.levels d) e
    refine ⟨⟨fun hfalse => ?_, fun ⟨a, ha, hnone⟩ => hrun.ends fun hall => hall a ha hnone⟩, fun hdescribed => ?_⟩
    · by_contra hnone
      have hgoes := hrun.goes fun a ha h => hnone ⟨a, ha, h⟩
      rw [analyzeWithin, hgoes] at hfalse
      cases hfalse
    · have hgoes := hrun.goes fun a ha h => by
        obtain ⟨s, hs, -⟩ := hdescribed a ha
        rw [hs] at h
        cases h
      rw [analyzeWithin, hgoes]
      exact ⟨rfl, bare_editUp_note _ e, fun k hk => isDescribed_editUp_note hdescribed hk, fun k => level_editUp_note⟩

/-- The sum `sin(x) + 2`, of which only the operands have been analysed. -/
def analyzedOperands : Expr := (call "sin" [.var "x"]).analyze.add (number 2).analyze

theorem analyzeWithin_exact_analyzedOperands : (∀ a ∈ analyzedOperands.level 1, a.IsDescribed) ∧
    (analyzedOperands.analyzeWithin (.levels 0)).2 = true ∧
    IsDescribedTo 0 analyzedOperands (analyzedOperands.analyzeWithin (.levels 0)).1 := by
  have hdescribed : ∀ a ∈ analyzedOperands.level 1, a.IsDescribed := by
    rw [level_one]
    intro a ha
    rcases List.mem_pair.mp ha with rfl | rfl <;> exact (everywhere_iff.mp (everywhere_isDescribed_analyze _)).1
  exact ⟨hdescribed, ((analyzeWithin_exact analyzedOperands).2 0).2 hdescribed⟩

end Expr

end Isolate
