import Isolate.Proofs.Isolating.Variables
import Isolate.Proofs.Matching.Mentions

/-!
# What a summary says of a tree

A summary *describes* a tree if it has exactly the names that occur in the tree, and calls it a number just if there are
none (`Summary.Describes`). It does not matter where a name occurs or in what order the names are noted, so a change
that keeps the names of a tree keeps every summary true of it (`Summary.Describes.congr`).

* `Expr.describes_summary`: what is noted at a node describes it if what is noted at its operands describes them.
* `Expr.describes_survey`: the summary that an analysis makes describes the tree.
* `Expr.everywhere_isDescribed_analyze`: an analysis notes such a summary at every node.
-/

namespace Isolate

namespace Summary

/-- The names of a kind. -/
def names (s : Summary) : Kind → List String
  | .var => s.vars
  | .call => s.functions

/-- The summary has the names that occur in the tree and no others, and takes it for a number just if there are none. -/
structure Describes (s : Summary) (e : Expr) : Prop where
  mem_names : ∀ k name, name ∈ s.names k ↔ e.Mentions k name
  isNumber : s.isNumber = true ↔ ∀ k name, ¬e.Mentions k name

variable {s : Summary} {a b : Expr} {k : Kind} {name : String}

/-- Trees with the same names are described by the same summaries. -/
theorem Describes.congr (h : s.Describes a) (hnames : ∀ k name, a.Mentions k name ↔ b.Mentions k name) :
    s.Describes b where
  mem_names k name := (h.mem_names k name).trans (hnames k name)
  isNumber := h.isNumber.trans (forall₂_congr fun k name => not_congr (hnames k name))

/-! ## From the operands to the node -/

theorem names_merge (s t : Summary) (k : Kind) : (s.merge t).names k = union (s.names k) (t.names k) := by
  cases k <;> rfl

theorem mem_names_merged {ss : List Summary} :
    name ∈ (ss.foldr merge none).names k ↔ ∃ s ∈ ss, name ∈ s.names k := by
  induction ss with
  | nil => cases k <;> simp [none, names]
  | cons s ss ih =>
    rw [List.foldr_cons, names_merge, mem_union, ih]
    simp

theorem isNumber_merged {ss : List Summary} :
    (ss.foldr merge none).isNumber = true ↔ ∀ s ∈ ss, s.isNumber = true := by
  induction ss with
  | nil => simp [none]
  | cons s ss ih =>
    rw [List.foldr_cons, merge, Bool.and_eq_true, ih]
    simp

/-- The names of a node are its own and those of its operands. -/
theorem mem_names_summary (b : Shape Summary) :
    name ∈ b.summary.names k ↔ b.Has k name ∨ ∃ s ∈ b.children, name ∈ s.names k := by
  cases b with
  | number v => cases k <;> simp [Shape.summary, none, names, Shape.Has, Shape.children]
  | var n => cases k <;> simp [Shape.summary, names, Shape.Has, Shape.children, eq_comm]
  | call n ss =>
    cases k with
    | var => simp [Shape.summary, names, Shape.Has, Shape.children, mem_merged]
    | call =>
      have hbelow : name ∈ (ss.foldr merge none).functions ↔ ∃ s ∈ ss, name ∈ s.functions :=
        mem_names_merged (k := .call)
      simp only [Shape.summary, names, Shape.Has, Shape.children, mem_insertName, true_and, hbelow]
      exact or_congr_left eq_comm
  | _ =>
    simp only [Shape.summary, mem_names_merged, Shape.Has, false_or]

/-- A node is built from numbers alone if it has no name of its own and its operands are. -/
theorem isNumber_summary (b : Shape Summary) :
    b.summary.isNumber = true ↔ (∀ k name, ¬b.Has k name) ∧ ∀ s ∈ b.children, s.isNumber = true := by
  cases b with
  | number v => simp [Shape.summary, none, Shape.Has, Shape.children]
  | var n => simp [Shape.summary, Shape.Has, Shape.children]
  | call n ss => simp [Shape.summary, Shape.Has]
  | _ => simp only [Shape.summary, isNumber_merged, Shape.Has, not_false_eq_true, implies_true, true_and]

end Summary

namespace Expr

variable {e : Expr}

/-- Summaries that describe the operands of a node make one that describes the node. -/
theorem describes_summary {f : Expr → Summary} (h : ∀ a ∈ e.children, (f a).Describes a) :
    (e.shape.map f).summary.Describes e := by
  constructor
  · intro k name
    rw [Summary.mem_names_summary, Shape.has_map, mentions_iff, Shape.children_map]
    simp only [List.mem_map, exists_exists_and_eq_and]
    exact or_congr_right (exists_congr fun a => and_congr_right fun ha => (h a ha).mem_names k name)
  · rw [Summary.isNumber_summary, Shape.children_map]
    simp only [Shape.has_map, List.forall_mem_map]
    constructor
    · rintro ⟨hown, hbelow⟩ k name hm
      rcases mentions_iff.mp hm with hhas | ⟨a, ha, hm⟩
      · exact hown k name hhas
      · exact (h a ha).isNumber.mp (hbelow a ha) k name hm
    · intro hnone
      refine ⟨fun k name hhas => hnone k name (mentions_iff.mpr (.inl hhas)), fun a ha => ?_⟩
      exact (h a ha).isNumber.mpr fun k name hm => hnone k name (mentions_iff.mpr (.inr ⟨a, ha, hm⟩))

/-- **What an analysis finds out describes the tree.** -/
theorem describes_survey (e : Expr) : e.survey.Describes e := by
  induction e using Expr.induction with
  | h e ih =>
    rw [survey_eq]
    exact describes_summary ih

/-! ## Changes that keep the names -/

variable {k : Kind} {name : String}

theorem mentions_of_shape {a b : Expr} (h : a.shape = b.shape) : a.Mentions k name ↔ b.Mentions k name := by
  rw [mentions_iff, mentions_iff, children, children, h]

@[simp] theorem mentions_bare : e.bare.Mentions k name ↔ e.Mentions k name :=
  not_congr (everywhere_bare fun e => by rw [shape_bare, Shape.has_map])

@[simp] theorem mentions_analyze : e.analyze.Mentions k name ↔ e.Mentions k name := by
  rw [← mentions_bare, bare_analyze, mentions_bare]

/-! ## Described nodes -/

/-- There is a summary at the node, and it describes what is there. -/
def IsDescribed (e : Expr) : Prop := ∃ s, e.summary = some s ∧ s.Describes e

/-- After an analysis, all nodes are described. -/
theorem everywhere_isDescribed_analyze (e : Expr) : e.analyze.Everywhere IsDescribed := by
  induction e using Expr.induction with
  | h e ih =>
    have hnode : e.analyze.IsDescribed :=
      ⟨e.survey, by rw [analyze_eq], (describes_survey e).congr fun k name => mentions_analyze.symm⟩
    refine everywhere_iff.mpr ⟨hnode, ?_⟩
    rw [analyze_eq, children, Shape.children_map]
    exact List.forall_mem_map.mpr ih

end Expr

end Isolate
