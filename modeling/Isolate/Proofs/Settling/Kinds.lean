import Isolate.Proofs.Round
import Isolate.Proofs.Settling.Splicing
import Isolate.Proofs.Settling.Stable

/-!
# What rounds bring in

The steps of normalising bring in numbers and sums, and besides these only nodes that were there before, up to their
signs and their operands. So a property that numbers and sums have, and any other node by its operator alone
(`IsByKind`), holds at every node after a round if it did before the round.

* `Expr.Everywhere.tidy`: a round keeps such a property at every node.
-/

namespace Isolate

/-- Numbers and sums have the property, and of other nodes neither the operands nor the sign matter. -/
structure IsByKind (P : Expr → Prop) : Prop where
  number : ∀ s q c, P ⟨s, .number q, c⟩
  sum : ∀ s ts c, P ⟨s, .sum ts, c⟩
  map_iff : ∀ (e : Expr) (g : Expr → Expr) (s : Sign) (c : Option Summary), P ⟨s, e.shape.map g, c⟩ ↔ P e

variable {P : Expr → Prop} {e a b : Expr} {t u : Ratio Expr}

namespace IsByKind

theorem isByShape (hP : IsByKind P) : IsByShape P where
  congr {a b} hs ha := (hP.map_iff b id b.sign b.summary).mp (hs ▸ (hP.map_iff a id b.sign b.summary).mpr ha)
  number := hP.number

theorem sum_iff (hP : IsByKind P) {s : Sign} {ts : List (Ratio Expr)} {c : Option Summary} :
    (⟨s, .sum ts, c⟩ : Expr).Everywhere P ↔ ∀ t ∈ ts, t.Everywhere P := by
  rw [Expr.everywhere_sum]
  exact and_iff_right (hP.sum ..)

theorem bare_iff (hP : IsByKind P) : e.bare.Everywhere P ↔ e.Everywhere P :=
  Expr.everywhere_bare fun e => by rw [Expr.bare_eq, hP.map_iff]

theorem analyze_iff (hP : IsByKind P) : e.analyze.Everywhere P ↔ e.Everywhere P := by
  rw [← hP.bare_iff, Expr.bare_analyze, hP.bare_iff]

end IsByKind

/-! ## Steps -/

namespace Expr

variable {f g : Expr → Expr}

theorem everywhere_flattenStep (hP : IsByKind P) (h : e.Everywhere P) : (flattenStep e).Everywhere P := by
  obtain ⟨s, b, c⟩ := e
  cases b with
  | sum ts => exact everywhere_flattenStep_sum hP.isByShape (hP.sum_iff.mp h) fun _ => hP.sum ..
  | _ => exact h

theorem everywhere_reduceStep (hP : IsByKind P) (h : e.Everywhere P) : (reduceStep e).Everywhere P := by
  have hchildren : ∀ a ∈ (reduceStep e).children, a.Everywhere P := by
    intro a ha
    rcases shape_of_mem_reduceStep ha with ⟨q, hq⟩ | ⟨b, hb, hab⟩
    · exact hP.isByShape.of_number hq
    · exact hP.isByShape.of_shape ((everywhere_iff.mp h).2 b hb) hab.symm
  refine everywhere_iff.mpr ⟨?_, hchildren⟩
  obtain ⟨s, b, c⟩ := e
  unfold reduceStep
  split
  · exact hP.sum ..
  · exact (everywhere_iff.mp h).1

theorem everywhere_dropUnits (hP : IsByKind P) (h : e.Everywhere P) : (dropUnits e).Everywhere P := by
  obtain ⟨s, b, c⟩ := e
  unfold dropUnits
  split
  · rename_i ts hts
    obtain rfl : b = .sum ts := hts
    refine hP.sum_iff.mpr fun u hu => ?_
    obtain ⟨t, ht, rfl⟩ := List.mem_map.mp hu
    have hsub : ∀ a ∈ (dropUnit t).factors, a ∈ t.factors := by
      intro a ha
      unfold dropUnit at ha
      split at ha
      · split at ha
        · exact List.mem_append_left _ (by simpa [Ratio.factors] using ha)
        · exact ha
      · exact ha
    exact fun a ha => hP.sum_iff.mp h t ht a (hsub a ha)
  · exact h

theorem mem_of_mem_withoutOnes {es : List Expr} {a : Expr} (h : a ∈ withoutOnes es) : a ∈ es := by
  unfold withoutOnes at h
  split at h
  · exact h
  · exact (List.mem_filter.mp h).1

theorem everywhere_neutralStep (hP : IsByKind P) (h : e.Everywhere P) : (neutralStep e).Everywhere P := by
  obtain ⟨s, b, c⟩ := e
  unfold neutralStep
  split
  · rename_i ts hts
    obtain rfl : b = .sum ts := hts
    split
    · exact hP.isByShape.of_number rfl
    · refine hP.sum_iff.mpr fun u hu => ?_
      obtain ⟨t, ht, rfl⟩ := List.mem_map.mp hu
      have ht := hP.sum_iff.mp h t (List.mem_filter.mp ht).1
      intro a ha
      rcases List.mem_append.mp ha with ha | ha
      · exact ht a (List.mem_append_left _ (mem_of_mem_withoutOnes ha))
      · exact ht a (List.mem_append_right _ (mem_of_mem_withoutOnes ha))
  · exact h

/-! ## Rounds -/

/-- A pass keeps a property of kinds if its step does. -/
theorem IsBottomUp.everywhere (hP : IsByKind P) (hg : IsBottomUp f g)
    (hf : ∀ {a : Expr}, a.Everywhere P → (f a).Everywhere P) (h : e.Everywhere P) : (g e).Everywhere P := by
  induction e using Expr.induction with
  | h e ih =>
    obtain ⟨hnode, hchildren⟩ := everywhere_iff.mp h
    obtain ⟨c, hc⟩ := hg e
    rw [hc]
    refine hf (everywhere_iff.mpr ⟨(hP.map_iff e g e.sign c).mpr hnode, fun a ha => ?_⟩)
    rw [children, Shape.children_map] at ha
    obtain ⟨b, hb, rfl⟩ := List.mem_map.mp ha
    exact ih b hb (hchildren b hb)

/-- **A round keeps a property of kinds.** -/
theorem Everywhere.tidy (hP : IsByKind P) (h : e.Everywhere P) : e.tidy.Everywhere P := by
  have h1 : e.flatten.analyze.Everywhere P :=
    hP.analyze_iff.mpr ((isBottomUp_rebuildUp flattenStep).everywhere hP (everywhere_flattenStep hP) h)
  have h2 := hP.analyze_iff.mpr ((isBottomUp_editUp reduceStep).everywhere hP (everywhere_reduceStep hP) h1)
  have h3 := (isBottomUp_editUp dropUnits).everywhere hP (everywhere_dropUnits hP) h2
  have h4 := hP.analyze_iff.mpr ((isBottomUp_rebuildUp neutralStep).everywhere hP (everywhere_neutralStep hP) h3)
  exact hP.analyze_iff.mpr h4

end Expr

end Isolate
