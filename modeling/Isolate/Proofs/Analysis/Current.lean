import Isolate.Proofs.Analysis.Summaries
import Isolate.Proofs.Isolating.Meaning

/-!
# No summary goes out of date

A tree is *current* if every summary that is noted in it describes the node at which it is noted (`Expr.IsCurrent`).
Nodes may be without a summary. What is made anew has none until it is analysed; what is moved keeps its summary and its
shape; and what is edited in place is analysed at once, but for denominators of one, which no summary knows of.

* `Expr.isCurrent_reduced`: what simplifying leaves of the expression that it is given.
* `Expr.IsCurrent.peel` and `Expr.IsCurrent.apply`: the two sides after an isolation step.
* `Equation.isCurrent_perform`: an action on an equation, whether it fails or not.
-/

namespace Isolate

/-- Every summary in the tree describes the node at which it is noted. -/
def Expr.IsCurrent (e : Expr) : Prop := e.Everywhere fun a => ∀ s, a.summary = some s → s.Describes a

/-- All factors are current. -/
def Ratio.IsCurrent (t : Ratio Expr) : Prop := ∀ a ∈ t.factors, a.IsCurrent

namespace Expr

variable {e a b p : Expr} {ts : List (Ratio Expr)} {template : String} {found : Inversion}

theorem isCurrent_iff :
    e.IsCurrent ↔ (∀ s, e.summary = some s → s.Describes e) ∧ ∀ a ∈ e.children, a.IsCurrent := everywhere_iff

/-- A node that is made anew has no summary. -/
theorem isCurrent_new (s : Sign) {b : Shape Expr} (h : ∀ a ∈ b.children, a.IsCurrent) : (⟨s, b, none⟩ : Expr).IsCurrent :=
  isCurrent_iff.mpr ⟨nofun, h⟩

/-- A node keeps its summary, or loses it, if its shape stays. -/
theorem IsCurrent.of_shape (h : a.IsCurrent) (hshape : a.shape = b.shape)
    (hs : ∀ s, b.summary = some s → a.summary = some s) : b.IsCurrent := by
  obtain ⟨hnode, hchildren⟩ := isCurrent_iff.mp h
  refine isCurrent_iff.mpr ⟨fun s hb => ?_, fun c hc => hchildren c ?_⟩
  · exact (hnode s (hs s hb)).congr fun k name => mentions_of_shape hshape
  · rw [children, hshape]
    exact hc

/-- A tree without summaries. -/
theorem isCurrent_bare (e : Expr) : e.bare.IsCurrent := by
  induction e using Expr.induction with
  | h e ih =>
    rw [bare_eq]
    refine isCurrent_new e.sign fun a ha => ?_
    rw [Shape.children_map] at ha
    obtain ⟨b, hb, rfl⟩ := List.mem_map.mp ha
    exact ih b hb

/-- A tree that has been analysed. -/
theorem isCurrent_analyze (e : Expr) : e.analyze.IsCurrent := by
  refine (everywhere_isDescribed_analyze e).imp fun a ha s hs => ?_
  obtain ⟨t, ht, hdescribes⟩ := ha
  rw [Option.some.inj (hs.symm.trans ht)]
  exact hdescribes

theorem isCurrent_sum (h : ∀ t ∈ ts, t.IsCurrent) : (sum ts).IsCurrent := by
  refine isCurrent_new .pos fun a ha => ?_
  obtain ⟨t, ht, ha⟩ := List.mem_flatMap.mp ha
  exact h t ht a ha

theorem IsCurrent.terms (h : e.IsCurrent) (hshape : e.shape = .sum ts) : ∀ t ∈ ts, t.IsCurrent := by
  intro t ht a ha
  refine (isCurrent_iff.mp h).2 a ?_
  rw [children, hshape]
  exact List.mem_flatMap.mpr ⟨t, ht, ha⟩

end Expr

/-- The opposite of a ratio: a factor changes its sign, or a new one comes. -/
theorem Ratio.IsCurrent.neg {t : Ratio Expr} (h : t.IsCurrent) : t.neg.IsCurrent := by
  have hflip : ∀ {a : Expr}, a.IsCurrent → a.neg.IsCurrent := fun ha => ha.of_shape rfl fun _ => id
  match t with
  | ⟨n :: ns, ds⟩ =>
    obtain ⟨hn, hrest⟩ := List.forall_mem_cons.mp h
    exact List.forall_mem_cons.mpr ⟨hflip hn, hrest⟩
  | ⟨[], d :: ds⟩ =>
    obtain ⟨hd, hrest⟩ := List.forall_mem_cons.mp h
    exact List.forall_mem_cons.mpr ⟨hflip hd, hrest⟩
  | ⟨[], []⟩ => exact List.forall_mem_singleton.mpr (Expr.isCurrent_new .neg (List.forall_mem_nil _))

namespace Expr

variable {e a b p : Expr} {ts : List (Ratio Expr)} {template : String} {found : Inversion}

/-! ## Flattening -/

/-- A step on a bare tree makes a bare tree. -/
theorem bare_flattenStep (h : e.bare = e) : (flattenStep e).bare = flattenStep e := by
  obtain ⟨s, b, c⟩ := e
  rw [bare_mk, mk.injEq] at h
  obtain ⟨-, hb, rfl⟩ := h
  cases b with
  | sum ts =>
    have hts : ts.map (Ratio.map bare) = ts := Shape.sum.inj hb
    have hspliced : (ts.flatMap Ratio.spliceTerm).map (Ratio.map bare) = ts.flatMap Ratio.spliceTerm := by
      conv_rhs => rw [← hts]
      rw [List.flatMap_map, List.map_flatMap]
      exact congrArg (List.flatMap · ts) (funext fun t => (Ratio.spliceTerm_bare t).symm)
    unfold flattenStep
    simp only
    split
    · rename_i only honly
      rw [honly] at hspliced
      have hshape : only.shape.map bare = only.shape := by
        have hbare : only.bare = only := by simpa [Ratio.map] using hspliced
        rw [← shape_bare, hbare]
      rw [bare_mk, hshape]
    · rw [bare_mk, Shape.map, hspliced]
  | _ => exact (bare_mk _ _ _).trans (congrArg (mk s · none) hb)

/-- **Nothing of an analysis is left in a flattened tree.** -/
theorem bare_flatten_eq_self (e : Expr) : e.flatten.bare = e.flatten := by
  induction e using Expr.induction with
  | h e ih =>
    rw [flatten_eq]
    refine bare_flattenStep ?_
    rw [bare_mk, Shape.map_map]
    exact congrArg (mk e.sign · none) (Shape.map_congr ih)

theorem isCurrent_flatten (e : Expr) : e.flatten.IsCurrent := by
  rw [← bare_flatten_eq_self]
  exact isCurrent_bare _

/-! ## Simplifying -/

theorem mem_of_mem_dropUnit {t : Ratio Expr} (h : a ∈ (dropUnit t).factors) : a ∈ t.factors := by
  unfold dropUnit at h
  split at h
  · split at h
    · exact List.mem_append_left _ (by simpa [Ratio.factors] using h)
    · exact h
  · exact h

/-- A factor that goes has no name. -/
theorem mem_dropUnit_of_mentions {t : Ratio Expr} {k : Kind} {name : String} (ha : a ∈ t.factors)
    (hm : a.Mentions k name) : a ∈ (dropUnit t).factors := by
  unfold dropUnit
  split
  · rename_i d hd
    split
    · rename_i hone
      rw [Ratio.factors, hd] at ha
      rcases List.mem_append.mp ha with ha | ha
      · exact List.mem_append_left _ ha
      · obtain rfl := List.mem_singleton.mp ha
        rw [mentions_of_shape (b := number 1) (shape_of_isOne hone)] at hm
        exact absurd hm not_mentions_number
    · exact ha
  · exact ha

theorem children_dropUnits_subset (h : a ∈ (dropUnits e).children) : a ∈ e.children := by
  obtain ⟨s, b, c⟩ := e
  cases b with
  | sum ts =>
    obtain ⟨u, hu, ha⟩ := List.mem_flatMap.mp h
    obtain ⟨t, ht, rfl⟩ := List.mem_map.mp hu
    exact List.mem_flatMap.mpr ⟨t, ht, mem_of_mem_dropUnit ha⟩
  | _ => exact h

/-- Denominators of one have no part in the names of a node. -/
theorem mentions_dropUnits {k : Kind} {name : String} : (dropUnits e).Mentions k name ↔ e.Mentions k name := by
  obtain ⟨s, b, c⟩ := e
  cases b with
  | sum ts =>
    rw [mentions_iff, mentions_iff (a := ⟨s, .sum ts, c⟩)]
    refine or_congr Iff.rfl ⟨fun ⟨a, ha, hm⟩ => ⟨a, children_dropUnits_subset ha, hm⟩, fun ⟨a, ha, hm⟩ => ?_⟩
    obtain ⟨t, ht, ha⟩ := List.mem_flatMap.mp ha
    exact ⟨a, List.mem_flatMap.mpr ⟨dropUnit t, List.mem_map_of_mem ht, mem_dropUnit_of_mentions ha hm⟩, hm⟩
  | _ => rfl

theorem mentions_editUp_dropUnits {k : Kind} {name : String} :
    (e.editUp dropUnits .all).Mentions k name ↔ e.Mentions k name := by
  induction e using Expr.induction with
  | h e ih =>
    rw [editUp_all, mentions_dropUnits, mentions_iff, mentions_iff (a := e)]
    simp only [Shape.has_map, children, Shape.children_map, List.mem_map, exists_exists_and_eq_and]
    exact or_congr_right (exists_congr fun a => and_congr_right fun ha => ih a ha)

theorem summary_dropUnits (e : Expr) : (dropUnits e).summary = e.summary := by
  unfold dropUnits
  split
  · rfl
  · rfl

/-- Dropping denominators of one in place keeps the summaries, and what they say stays true. -/
theorem IsCurrent.dropUnits (h : e.IsCurrent) : (e.editUp dropUnits .all).IsCurrent := by
  induction e using Expr.induction with
  | h e ih =>
    obtain ⟨hnode, hchildren⟩ := isCurrent_iff.mp h
    refine isCurrent_iff.mpr ⟨fun s hs => ?_, fun a ha => ?_⟩
    · rw [editUp_all, summary_dropUnits] at hs
      exact (hnode s hs).congr fun k name => mentions_editUp_dropUnits.symm
    · rw [editUp_all] at ha
      have ha := children_dropUnits_subset ha
      rw [children, Shape.children_map] at ha
      obtain ⟨b, hb, rfl⟩ := List.mem_map.mp ha
      exact ih b hb (hchildren b hb)

/-- **What simplifying leaves of the given expression is current.** -/
theorem isCurrent_reduced (e : Expr) : e.reduced.IsCurrent := (isCurrent_analyze _).dropUnits

end Expr

/-! ## Isolation steps -/

/-- Everything that a step keeps and moves is current. -/
def Step.IsCurrent : Step → Prop
  | multiply moved kept => moved.IsCurrent ∧ kept.IsCurrent
  | add moved kept => (∀ t ∈ moved, t.IsCurrent) ∧ ∀ t ∈ kept, t.IsCurrent
  | _ => True

namespace Expr

variable {e a p : Expr} {step : Step} {template : String} {found : Inversion}

/-- A step that is found is put together from parts of the side that it undoes. -/
theorem Undoes.isCurrent (h : Undoes template e found) (he : e.IsCurrent) : found.step.IsCurrent := by
  cases h with
  | call => trivial
  | @ratio t above keptAbove below keptBelow hshape habove hbelow =>
    have hfactors := he.terms hshape t List.mem_cons_self
    obtain ⟨habove, hkeptAbove⟩ := subset_of_partFactors habove
    obtain ⟨hbelow, hkeptBelow⟩ := subset_of_partFactors hbelow
    have hnumerator : ∀ a ∈ t.numerator, a.IsCurrent := fun a ha => hfactors a (List.mem_append_left _ ha)
    have hdenominator : ∀ a ∈ t.denominator, a.IsCurrent := fun a ha => hfactors a (List.mem_append_right _ ha)
    constructor
    · intro a ha
      rcases List.mem_append.mp ha with ha | ha
      · exact hdenominator a (hbelow ha)
      · exact hnumerator a (habove ha)
    · intro a ha
      rcases List.mem_append.mp ha with ha | ha
      · exact hnumerator a (hkeptAbove ha)
      · exact hdenominator a (hkeptBelow ha)
  | terms hshape hparts =>
    exact forall_partTerms (P := Ratio.IsCurrent) (fun _ => Ratio.IsCurrent.neg) hparts (he.terms hshape)
  | minus => trivial

/-- What a step leaves of the side that it undoes is current. -/
theorem IsCurrent.peel (he : e.IsCurrent) (hstep : step.IsCurrent) (hp : step.peel e = .ok p) : p.IsCurrent := by
  cases step with
  | undo inverse source tabulated =>
    rw [Step.peel] at hp
    split at hp
    · rename_i name a as hshape
      obtain rfl := Except.ok.inj hp
      refine (isCurrent_iff.mp he).2 a ?_
      rw [children, hshape]
      exact List.mem_cons_self
    · cases hp
    · cases hp
  | multiply moved kept =>
    obtain rfl := Except.ok.inj hp
    exact isCurrent_sum (List.forall_mem_singleton.mpr hstep.2)
  | add moved kept =>
    obtain rfl := Except.ok.inj hp
    exact isCurrent_sum hstep.2
  | negate =>
    obtain rfl := Except.ok.inj hp
    exact he.of_shape rfl fun _ => id

/-- What a step makes of another side is current. -/
theorem IsCurrent.apply (he : e.IsCurrent) (hstep : step.IsCurrent) (sign : Sign) : (step.apply sign e).IsCurrent := by
  have hother : (⟨e.sign * sign, e.shape, none⟩ : Expr).IsCurrent := he.of_shape rfl nofun
  cases step with
  | undo inverse source tabulated => exact isCurrent_new .pos (List.forall_mem_singleton.mpr hother)
  | multiply moved kept =>
    refine isCurrent_sum (List.forall_mem_singleton.mpr fun a ha => ?_)
    simp only [Ratio.factors, List.mem_append, List.mem_singleton] at ha
    rcases ha with (ha | rfl) | ha
    · exact hstep.1 a (List.mem_append_left _ ha)
    · exact hother
    · exact hstep.1 a (List.mem_append_right _ ha)
  | add moved kept =>
    exact isCurrent_sum (List.forall_mem_cons.mpr ⟨List.forall_mem_singleton.mpr hother, hstep.1⟩)
  | negate => exact hother

end Expr

/-! ## Actions on an equation -/

namespace Equation

/-- Everything that can be done to an equation in place. -/
inductive Action where
  | analyze
  | flatten
  | simplify
  | normalize (mode : MatchMode) (limit : Int)
  | applyInverse (template : String) (target : Option String)

/-- The equation after an action, also where the action ends with a fault. -/
def perform (q : Equation) : Action → Equation
  | .analyze => q.analyze
  | .flatten => q.flatten
  | .simplify => q.simplify.1
  | .normalize mode limit => (q.normalize usualPasses mode limit).1
  | .applyInverse template target =>
    match q.applyInverse template target with
    | .ok done => done.equation
    | .error _ => q

/-- All sides are current. -/
def IsCurrent (q : Equation) : Prop := ∀ e ∈ q.sides, e.IsCurrent

variable {q : Equation} {template : String} {target : Option String} {done : Isolated}

theorem isCurrent_map {f : Expr → Expr} (h : ∀ e, (f e).IsCurrent) (q : Equation) : IsCurrent ⟨q.sides.map f⟩ :=
  List.forall_mem_map.mpr fun e _ => h e

theorem isCurrent_tidy (q : Equation) : q.tidy.IsCurrent := isCurrent_map (fun _ => Expr.isCurrent_analyze _) q

/-- Where simplifying stops at a side, the sides before it have been worked on and those behind it have not. -/
theorem isCurrent_simplifySides {es : List Expr} (h : ∀ e ∈ es, e.IsCurrent) :
    (∀ e ∈ (simplifySides es).1, e.IsCurrent) ∧ ∀ e ∈ (simplifySides es).2.1, e.IsCurrent := by
  induction es with
  | nil => exact ⟨h, h⟩
  | cons e es ih =>
    obtain ⟨hnews, holds⟩ := ih (List.forall_mem_cons.mp h).2
    unfold simplifySides
    split
    · exact ⟨List.forall_mem_nil _, h⟩
    · rename_i new old hsimplify
      unfold Expr.simplify at hsimplify
      split at hsimplify
      · obtain ⟨rfl, rfl⟩ := Prod.mk.inj (Except.ok.inj hsimplify)
        exact ⟨List.forall_mem_cons.mpr ⟨Expr.isCurrent_analyze _, hnews⟩,
          List.forall_mem_cons.mpr ⟨Expr.isCurrent_reduced e, holds⟩⟩
      · cases hsimplify

theorem IsCurrent.simplify (h : q.IsCurrent) : q.simplify.1.IsCurrent := by
  have hsides := isCurrent_simplifySides h
  unfold Equation.simplify
  split
  · rename_i hrun
    rw [hrun] at hsides
    exact hsides.1
  · rename_i hrun
    rw [hrun] at hsides
    exact hsides.2

/-- Every round leaves a current equation behind, and there is nothing else to be done. -/
theorem IsCurrent.settle (h : q.IsCurrent) (mode : MatchMode) (limit : Int) (fuel round : Nat) :
    (settle usualPasses mode limit fuel round q).1.IsCurrent := by
  induction fuel generalizing round q with
  | zero => exact h
  | succ fuel ih =>
    rw [settle_succ]
    split
    · exact isCurrent_tidy q
    · exact ih (isCurrent_tidy q) (round + 1)

theorem IsCurrent.applyInverse (h : q.IsCurrent) (hdone : q.applyInverse template target = .ok done) :
    done.equation.IsCurrent := by
  obtain ⟨hlen, ⟨heq, -⟩ | ⟨i, found, hfound, htransform, -⟩⟩ := applyInverse_eq_ok hdone
  · rwa [heq]
  · obtain ⟨hi, hundoes⟩ := isolation_eq_ok hfound
    obtain ⟨sides⟩ := q
    obtain ⟨a, b, rfl⟩ := List.length_eq_two.mp hlen
    obtain ⟨ha, hb⟩ : a.IsCurrent ∧ b.IsCurrent := by simpa [IsCurrent] using h
    rcases transform_pair hi htransform with ⟨rfl, p, hp, hr⟩ | ⟨rfl, p, hp, hr⟩
    · have hstep := hundoes.isCurrent ha
      rw [hr]
      exact List.forall_mem_cons.mpr ⟨ha.peel hstep hp, List.forall_mem_singleton.mpr (hb.apply hstep a.sign)⟩
    · have hstep := hundoes.isCurrent hb
      rw [hr]
      exact List.forall_mem_cons.mpr ⟨ha.apply hstep b.sign, List.forall_mem_singleton.mpr (hb.peel hstep hp)⟩

/-- **An action leaves a current equation current**, whether it fails or not. -/
theorem isCurrent_perform (h : q.IsCurrent) (action : Action) : (q.perform action).IsCurrent := by
  cases action with
  | analyze => exact isCurrent_map Expr.isCurrent_analyze q
  | flatten => exact isCurrent_map Expr.isCurrent_flatten q
  | simplify => exact h.simplify
  | normalize mode limit => exact (isCurrent_map Expr.isCurrent_analyze q).settle mode limit _ _
  | applyInverse template target =>
    rw [perform]
    split
    · rename_i hdone
      exact h.applyInverse hdone
    · exact h

theorem isCurrent_performAll (h : q.IsCurrent) (actions : List Action) : (actions.foldl perform q).IsCurrent := by
  induction actions generalizing q with
  | nil => exact h
  | cons action actions ih => exact ih (isCurrent_perform h action)

/-- **Starting from an equation that nobody has analysed, no actions leave a wrong summary behind**: a summary that is
noted at a node has exactly the names that occur at the node or below it, and takes the node for a number just if there
are none. -/
theorem summaries_current (q : Equation) (actions : List Action) : (actions.foldl perform q.bare).IsCurrent :=
  isCurrent_performAll (isCurrent_map Expr.isCurrent_bare q) actions

end Equation

end Isolate
