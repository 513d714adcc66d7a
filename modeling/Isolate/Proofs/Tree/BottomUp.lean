import Isolate.Expr.Analysis

/-!
# Passes from the bottom up

A pass works from the bottom up by a step `f` if it is the step applied to the node with its operands passed
(`IsBottomUp`); edits in place and new trees differ only in what they keep of an analysis. What the step does at
every node, the pass does to the tree, so passes are studied by their steps.

* `Everywhere P e`: the property `P` holds at every node of `e` (`everywhere_iff`).
* A pass ignores what was analysed if its step does (`IsBottomUp.ignoresAnalysis`), and then leaves a tree if its step
  leaves every node of it (`IsBottomUp.bare_eq_self`).
* Trees that differ in their analyses only have the same analysis (`analyze_congr`).
-/

namespace Isolate.Expr

variable {f g : Expr → Expr} {P Q : Expr → Prop} {e : Expr}

/-! ## Properties of every node -/

/-- The property holds at every node. -/
def Everywhere (P : Expr → Prop) (e : Expr) : Prop := e.fold fun e b => P e ∧ ∀ a ∈ b.children, a

theorem everywhere_iff : e.Everywhere P ↔ P e ∧ ∀ a ∈ e.children, a.Everywhere P := by
  rw [Everywhere, fold_eq]
  simp only [Shape.children_map, List.mem_map, forall_exists_index, and_imp, forall_apply_eq_imp_iff₂]
  rfl

theorem Everywhere.imp (h : ∀ e, P e → Q e) (he : e.Everywhere P) : e.Everywhere Q := by
  induction e using Expr.induction with
  | h e ih =>
    rw [everywhere_iff] at he ⊢
    exact ⟨h e he.1, fun a ha => ih a ha (he.2 a ha)⟩

theorem Everywhere.and (hp : e.Everywhere P) (hq : e.Everywhere Q) : e.Everywhere fun a => P a ∧ Q a := by
  induction e using Expr.induction with
  | h e ih =>
    rw [everywhere_iff] at hp hq ⊢
    exact ⟨⟨hp.1, hq.1⟩, fun a ha => ih a ha (hp.2 a ha) (hq.2 a ha)⟩

/-- What holds at the nodes of a tree by their shapes does not depend on the sign in front. -/
theorem everywhere_of_shape {P : Expr → Prop} (hP : ∀ {a b : Expr}, a.shape = b.shape → P a → P b) {a b : Expr}
    (hs : a.shape = b.shape) (h : a.Everywhere P) : b.Everywhere P := by
  rw [everywhere_iff] at h ⊢
  refine ⟨hP hs h.1, fun c hc => h.2 c ?_⟩
  rw [children, hs]
  exact hc

/-- Whether a property holds at every node is decided from the bottom up. -/
instance [DecidablePred P] : DecidablePred (Everywhere P) := fun e =>
  decidable_of_iff (e.fold (fun e b => decide (P e) && b.children.all id) = true) <| by
    induction e using Expr.induction with
    | h e ih =>
      rw [fold_eq, everywhere_iff, Bool.and_eq_true, decide_eq_true_iff, Shape.children_map, List.all_eq_true]
      refine and_congr_right fun _ => ?_
      rw [List.forall_mem_map]
      exact forall₂_congr ih

/-! ## Trees without their analyses -/

@[simp] theorem sign_bare (e : Expr) : e.bare.sign = e.sign := by rw [bare_eq]

@[simp] theorem shape_bare (e : Expr) : e.bare.shape = e.shape.map bare := by rw [bare_eq]

@[simp] theorem bare_bare (e : Expr) : e.bare.bare = e.bare := by
  induction e using Expr.induction with
  | h e ih =>
    rw [bare_eq e, bare_mk, Shape.map_map]
    exact congrArg (Expr.mk _ · _) (Shape.map_congr ih)

@[simp] theorem bare_analyze (e : Expr) : e.analyze.bare = e.bare := by
  induction e using Expr.induction with
  | h e ih =>
    rw [analyze_eq, bare_mk, Shape.map_map, bare_eq e]
    exact congrArg (Expr.mk _ · _) (Shape.map_congr ih)

theorem survey_bare (e : Expr) : e.bare.survey = e.survey := by
  induction e using Expr.induction with
  | h e ih =>
    rw [survey_eq, survey_eq e, shape_bare, Shape.map_map]
    exact congrArg Shape.summary (Shape.map_congr ih)

theorem analyze_bare (e : Expr) : e.bare.analyze = e.analyze := by
  induction e using Expr.induction with
  | h e ih =>
    rw [analyze_eq, analyze_eq e, survey_bare, sign_bare, shape_bare, Shape.map_map]
    exact congrArg (Expr.mk _ · _) (Shape.map_congr ih)

/-- An analysis depends on the bare tree only. -/
theorem analyze_congr {a b : Expr} (h : a.bare = b.bare) : a.analyze = b.analyze := by
  rw [← analyze_bare a, h, analyze_bare]

@[simp] theorem analyze_analyze (e : Expr) : e.analyze.analyze = e.analyze := analyze_congr (bare_analyze e)

/-- A property of bare trees at every node is one of the bare tree. -/
theorem everywhere_bare (hP : ∀ e, P e.bare ↔ P e) : e.bare.Everywhere P ↔ e.Everywhere P := by
  induction e using Expr.induction with
  | h e ih =>
    rw [everywhere_iff, everywhere_iff, hP, children, shape_bare, Shape.children_map]
    refine and_congr_right fun _ => ⟨fun h a ha => ?_, fun h a ha => ?_⟩
    · exact (ih a ha).mp (h a.bare (List.mem_map_of_mem ha))
    · obtain ⟨b, hb, rfl⟩ := List.mem_map.mp ha
      exact (ih b hb).mpr (h b hb)

/-! ## Passes -/

/-- The pass `g` is the step `f` applied to a node with its operands passed, whatever is kept of the analysis. -/
def IsBottomUp (f g : Expr → Expr) : Prop := ∀ e, ∃ c, g e = f ⟨e.sign, e.shape.map g, c⟩

theorem isBottomUp_rebuildUp (f : Expr → Expr) : IsBottomUp f (rebuildUp f .all) :=
  fun e => ⟨none, rebuildUp_all f e⟩

theorem isBottomUp_editUp (f : Expr → Expr) : IsBottomUp f (editUp f .all) :=
  fun e => ⟨e.summary, editUp_all f e⟩

/-- What the function makes of a tree depends on the bare tree only. -/
def IgnoresAnalysis (f : Expr → Expr) : Prop := ∀ e, (f e.bare).bare = (f e).bare

theorem IgnoresAnalysis.congr (hf : IgnoresAnalysis f) {a b : Expr} (h : a.bare = b.bare) :
    (f a).bare = (f b).bare := by
  rw [← hf a, h, hf b]

/-- A step that ignores analyses makes a pass that does. -/
theorem IsBottomUp.ignoresAnalysis (hg : IsBottomUp f g) (hf : IgnoresAnalysis f) : IgnoresAnalysis g := by
  intro e
  induction e using Expr.induction with
  | h e ih =>
    obtain ⟨c, hc⟩ := hg e.bare
    obtain ⟨d, hd⟩ := hg e
    rw [hc, hd]
    apply hf.congr
    rw [bare_mk, bare_mk, sign_bare, shape_bare, Shape.map_map, Shape.map_map, Shape.map_map]
    exact congrArg (Expr.mk _ · _) (Shape.map_congr ih)

/-- Where a pass leaves the operands of a node, it is the step. -/
theorem IsBottomUp.bare_step (hg : IsBottomUp f g) (hf : IgnoresAnalysis f) (h : ∀ a ∈ e.children, (g a).bare = a.bare) :
    (g e).bare = (f e).bare := by
  obtain ⟨c, hc⟩ := hg e
  rw [hc]
  refine hf.congr ?_
  rw [bare_mk, Shape.map_map, bare_eq e]
  exact congrArg (Expr.mk _ · _) (Shape.map_congr h)

/-- A pass that takes steps which leave every node of a tree leaves the tree. -/
theorem IsBottomUp.bare_eq_self (hg : IsBottomUp f g) (hf : IgnoresAnalysis f)
    (he : e.Everywhere fun a => (f a).bare = a.bare) : (g e).bare = e.bare := by
  induction e using Expr.induction with
  | h e ih =>
    obtain ⟨h, hc⟩ := everywhere_iff.mp he
    rw [hg.bare_step hf fun a ha => ih a ha (hc a ha), h]

end Isolate.Expr
