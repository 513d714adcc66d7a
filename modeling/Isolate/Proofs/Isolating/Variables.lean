import Isolate.Proofs.Settling.Kinds

/-!
# The variables of a tree

A tree *avoids* a variable that does not occur in it (`Expr.Avoids`). The analysis notes the variables that are not
avoided (`Expr.mem_vars_survey`), and of a tree that avoids all variables but one, that one at most
(`Expr.HasOnly.vars`). A variable is neither a number nor a sum, so the steps of normalising bring in none.

* `Expr.Avoids.tidy`: a round brings no variables.
-/

namespace Isolate

/-- The variable does not occur in the tree. -/
def Expr.Avoids (name : String) (e : Expr) : Prop := e.Everywhere fun a => a.shape ≠ .var name

/-- The variable does not occur in any factor. -/
def Ratio.Avoids (name : String) (t : Ratio Expr) : Prop := ∀ a ∈ t.factors, a.Avoids name

namespace Expr

variable {name : String} {e a b : Expr}

theorem avoids_iff : e.Avoids name ↔ e.shape ≠ .var name ∧ ∀ a ∈ e.children, a.Avoids name := everywhere_iff

theorem isByKind_avoids (name : String) : IsByKind fun a => a.shape ≠ .var name where
  number _ _ _ := by simp
  sum _ _ _ := by simp
  map_iff e g _ _ := by cases h : e.shape <;> simp [Shape.map]

theorem Avoids.of_shape (h : a.Avoids name) (hs : a.shape = b.shape) : b.Avoids name :=
  (isByKind_avoids name).isByShape.of_shape h hs

theorem avoids_of_number {q : Rat} (h : e.shape = .number q) : e.Avoids name :=
  (isByKind_avoids name).isByShape.of_number h

@[simp] theorem avoids_analyze : e.analyze.Avoids name ↔ e.Avoids name := (isByKind_avoids name).analyze_iff

theorem avoids_sum {s : Sign} {ts : List (Ratio Expr)} {c : Option Summary} :
    (⟨s, .sum ts, c⟩ : Expr).Avoids name ↔ ∀ t ∈ ts, t.Avoids name := (isByKind_avoids name).sum_iff

/-- **A round brings no variables.** -/
theorem Avoids.tidy (h : e.Avoids name) : e.tidy.Avoids name := Everywhere.tidy (isByKind_avoids name) h

end Expr

namespace Ratio

variable {name : String}

theorem avoids_of {e : Expr} : (of e).Avoids name ↔ e.Avoids name := List.forall_mem_singleton

theorem Avoids.neg {t : Ratio Expr} (h : t.Avoids name) : t.neg.Avoids name :=
  Everywhere.neg (Expr.isByKind_avoids name).isByShape h

end Ratio

/-! ## What the analysis notes -/

namespace Summary

variable {name m n : String} {ms ns : List String}

theorem mem_insertName : name ∈ insertName m ns ↔ name = m ∨ name ∈ ns := by
  induction ns with
  | nil => simp [insertName]
  | cons n ns ih =>
    unfold insertName
    split
    · simp
    · split
      · rename_i h
        simp [h]
      · rw [List.mem_cons, ih, List.mem_cons]
        exact or_left_comm

theorem mem_union : name ∈ union ms ns ↔ name ∈ ms ∨ name ∈ ns := by
  induction ms with
  | nil => simp [union]
  | cons m ms ih =>
    rw [union, List.foldr_cons, ← union, mem_insertName, ih, List.mem_cons, or_assoc]

theorem mem_merged {ss : List Summary} : name ∈ (ss.foldr merge none).vars ↔ ∃ s ∈ ss, name ∈ s.vars := by
  induction ss with
  | nil => simp [none]
  | cons s ss ih =>
    rw [List.foldr_cons, merge, mem_union, ih]
    simp

theorem mem_vars_summary (b : Shape Summary) :
    name ∈ b.summary.vars ↔ b = .var name ∨ ∃ s ∈ b.children, name ∈ s.vars := by
  cases b with
  | number v => simp [Shape.summary, none, Shape.children]
  | var n => simp [Shape.summary, Shape.children, eq_comm]
  | call n ss => simp [Shape.summary, mem_merged, Shape.children]
  | _ =>
    simp only [Shape.summary, mem_merged]
    simp

/-- Lists of one name at most add up to such a list. -/
theorem union_of_only {ms ns : List String} (hm : ms = [] ∨ ms = [m]) (hn : ns = [] ∨ ns = [m]) :
    union ms ns = [] ∨ union ms ns = [m] := by
  rcases hm with rfl | rfl <;> rcases hn with rfl | rfl
  · exact .inl rfl
  · exact .inr rfl
  · exact .inr rfl
  · refine .inr ?_
    simp only [union, List.foldr_cons, List.foldr_nil, insertName]
    split <;> simp_all

end Summary

namespace Expr

variable {name : String} {e : Expr}

/-- **The variables that the analysis notes are those that are not avoided.** -/
theorem mem_vars_survey : name ∈ e.survey.vars ↔ ¬e.Avoids name := by
  induction e using Expr.induction with
  | h e ih =>
    rw [survey_eq, Summary.mem_vars_summary, avoids_iff, Classical.not_and_iff_not_or_not, Shape.children_map]
    refine or_congr ?_ ?_
    · cases e.shape <;> simp [Shape.map]
    · simp only [List.mem_map, exists_exists_and_eq_and, not_forall]
      exact exists_congr fun a => ⟨fun ⟨ha, h⟩ => ⟨ha, (ih a ha).mp h⟩, fun ⟨ha, h⟩ => ⟨ha, (ih a ha).mpr h⟩⟩

/-- No variable occurs but the given one. -/
def HasOnly (name : String) (e : Expr) : Prop := ∀ n, n ≠ name → e.Avoids n

theorem HasOnly.child (h : e.HasOnly name) {a : Expr} (ha : a ∈ e.children) : a.HasOnly name :=
  fun n hn => (avoids_iff.mp (h n hn)).2 a ha

/-- **If no variable occurs but one, the analysis notes that one at most.** -/
theorem HasOnly.vars (h : e.HasOnly name) : e.survey.vars = [] ∨ e.survey.vars = [name] := by
  induction e using Expr.induction with
  | h e ih =>
    have hmerged : ∀ es : List Expr, (∀ a ∈ es, a ∈ e.children) →
        ((es.map survey).foldr Summary.merge Summary.none).vars = [] ∨
          ((es.map survey).foldr Summary.merge Summary.none).vars = [name] := by
      intro es hes
      induction es with
      | nil => exact .inl rfl
      | cons a es ih' =>
        obtain ⟨ha, hes⟩ := List.forall_mem_cons.mp hes
        exact Summary.union_of_only (ih a ha (h.child ha)) (ih' hes)
    have hchildren := hmerged e.children fun _ => id
    rw [survey_eq]
    cases hb : e.shape with
    | number v => exact .inl rfl
    | var n =>
      by_cases hn : n = name
      · exact .inr (by rw [hn]; rfl)
      · exact absurd hb (avoids_iff.mp (h n hn)).1
    | _ =>
      rw [children, hb] at hchildren
      simpa [Shape.map, Shape.summary, Shape.children, List.map_flatMap, List.flatMap_map] using hchildren

/-- A tree with one variable at most. -/
theorem hasOnly_of_length (h : e.survey.vars.length ≤ 1) (hmem : name ∈ e.survey.vars) : e.HasOnly name := by
  intro n hn
  by_contra hocc
  have hv := mem_vars_survey.mpr hocc
  match hvars : e.survey.vars with
  | [] => rw [hvars] at hv; cases hv
  | [m] =>
    rw [hvars, List.mem_singleton] at hv hmem
    exact hn (hv.trans hmem.symm)
  | k :: l :: ms =>
    rw [hvars, List.length_cons, List.length_cons] at h
    omega

/-! ## Analysed trees -/

theorem summary_of_analyze (h : e.analyze = e) : e.summary = some e.survey := by
  have hs := congrArg Expr.summary h
  rwa [analyze_eq, eq_comm] at hs

theorem noted_of_analyze (h : e.analyze = e) : e.noted = .ok e.survey := by rw [noted, summary_of_analyze h]

theorem analyze_of_mem_children (h : e.analyze = e) {a : Expr} (ha : a ∈ e.children) : a.analyze = a := by
  have hs := congrArg Expr.children h
  rw [analyze_eq, children, Shape.children_map] at hs
  exact List.map_inj_left.mp (hs.trans (List.map_id _).symm) a ha

theorem analyze_abs (h : e.analyze = e) : e.abs.analyze = e.abs := by
  obtain ⟨s, b, c⟩ := e
  have hs := h
  rw [analyze_eq, mk.injEq] at hs
  rw [analyze_eq, abs, mk.injEq]
  exact ⟨rfl, hs.2.1, by rw [← hs.2.2]; rw [survey_eq, survey_eq]⟩

end Expr

end Isolate
