import Isolate.Proofs.Matching.Alike
import Mathlib.Data.List.Perm.Basic

/-!
# Alike is symmetric and transitive

Correspondences of lists and of shapes can be turned round and put one behind the other, and so can likenesses of trees
(`Expr.Alike.symm`, `Expr.Alike.trans`); the relations between names go along.

* `Expr.alike_of_arrange`: trees are alike if they are alike once they are arranged.
-/

namespace Isolate

open Relation (Comp)

/-! ## Lists -/

namespace Corr

variable {R : α → β → Prop} {S : β → γ → Prop} {as : List α} {bs : List β} {cs : List γ}

theorem symm (h : Corr R as bs) : Corr (flip R) bs as := by
  obtain ⟨ds, hf, hp⟩ := h
  have hflip : List.Forall₂ (flip R) ds as := List.Forall₂.flip hf
  exact List.perm_comp_forall₂ hp.symm hflip

theorem forall₂_comp (h : List.Forall₂ R as bs) (h' : List.Forall₂ S bs cs) : List.Forall₂ (Comp R S) as cs := by
  induction h generalizing cs with
  | nil =>
    cases h'
    exact .nil
  | cons hab _ ih =>
    cases h' with
    | cons hbc hbs => exact .cons ⟨_, hab, hbc⟩ (ih hbs)

theorem comp (h : Corr R as bs) (h' : Corr S bs cs) : Corr (Comp R S) as cs := by
  obtain ⟨ds, hf, hp⟩ := h
  obtain ⟨es, hf', hp'⟩ := h'
  obtain ⟨fs, hfs, hperm⟩ := List.perm_comp_forall₂ hp hf'
  exact ⟨fs, forall₂_comp hf hfs, hperm.trans hp'⟩

end Corr

/-! ## Ratios and shapes -/

namespace Ratio.Corr

variable {R : α → β → Prop} {S : β → γ → Prop} {r : Ratio α} {t : Ratio β} {u : Ratio γ}

theorem symm (h : r.Corr R t) : t.Corr (flip R) r := ⟨h.1.symm, h.2.symm⟩

theorem comp (h : r.Corr R t) (h' : t.Corr S u) : r.Corr (Comp R S) u := ⟨h.1.comp h'.1, h.2.comp h'.2⟩

theorem imp {R' : α → β → Prop} (hR : ∀ a ∈ r.factors, ∀ b, R a b → R' a b) (h : r.Corr R t) : r.Corr R' t :=
  ⟨h.1.imp fun a ha => hR a (List.mem_append_left _ ha), h.2.imp fun a ha => hR a (List.mem_append_right _ ha)⟩

end Ratio.Corr

namespace Shape.Corr

variable {V F V' F' : String → String → Prop} {R : α → β → Prop} {S : β → γ → Prop} {b : Shape α} {c : Shape β}
  {d : Shape γ}

theorem symm (h : Corr V F R b c) : Corr (flip V) (flip F) (flip R) c b := by
  cases b <;> cases c <;> simp only [Corr] at h ⊢
  case number.number v w => exact Eq.symm h
  case var.var m n => exact h
  case power.power => exact h
  case modulo.modulo => exact h
  case factorial.factorial => exact h
  case call.call m as n bs => exact ⟨h.1, h.2.symm⟩
  case sum.sum ts us => exact h.symm.imp fun _ _ _ ht => Ratio.Corr.symm ht

theorem comp (h : Corr V F R b c) (h' : Corr V' F' S c d) : Corr (Comp V V') (Comp F F') (Comp R S) b d := by
  cases b <;> cases c <;> simp only [Corr] at h <;> cases d <;> simp only [Corr] at h' ⊢
  case number.number.number => exact Eq.trans h h'
  case var.var.var => exact ⟨_, h, h'⟩
  case power.power.power => exact ⟨⟨_, h.1, h'.1⟩, ⟨_, h.2, h'.2⟩⟩
  case modulo.modulo.modulo => exact ⟨⟨_, h.1, h'.1⟩, ⟨_, h.2, h'.2⟩⟩
  case factorial.factorial.factorial => exact ⟨_, h, h'⟩
  case call.call.call => exact ⟨⟨_, h.1, h'.1⟩, h.2.comp h'.2⟩
  case sum.sum.sum =>
    refine (h.comp h').imp fun t _ v htv => ?_
    obtain ⟨u, htu, huv⟩ := htv
    exact htu.comp huv

theorem imp {R' : α → β → Prop} (hV : ∀ m n, V m n → V' m n) (hF : ∀ m n, F m n → F' m n)
    (hR : ∀ a ∈ b.children, ∀ d, R a d → R' a d) (h : Corr V F R b c) : Corr V' F' R' b c := by
  cases b <;> cases c <;> simp only [Corr] at h ⊢
  case number.number => exact h
  case var.var m n => exact hV m n h
  case power.power => exact ⟨hR _ (by simp [Shape.children]) _ h.1, hR _ (by simp [Shape.children]) _ h.2⟩
  case modulo.modulo => exact ⟨hR _ (by simp [Shape.children]) _ h.1, hR _ (by simp [Shape.children]) _ h.2⟩
  case factorial.factorial => exact hR _ (by simp [Shape.children]) _ h
  case call.call m as n bs => exact ⟨hF m n h.1, h.2.imp hR⟩
  case sum.sum ts us =>
    exact Isolate.Corr.imp (fun t ht u htu => htu.imp fun a ha => hR a (List.mem_flatMap.mpr ⟨t, ht, ha⟩)) h

end Shape.Corr

/-! ## Trees -/

namespace Expr

variable {V F V' F' : String → String → Prop} {a b c : Expr}

theorem Alike.symm (h : a.Alike V F b) : b.Alike (flip V) (flip F) a := by
  induction a using Expr.induction generalizing b with
  | h a ih =>
    obtain ⟨hs, hc⟩ := alike_iff.mp h
    refine alike_iff.mpr ⟨hs.symm, ?_⟩
    have hflip : Shape.Corr V F (flip (Alike (flip V) (flip F))) a.shape b.shape :=
      hc.imp (fun _ _ => id) (fun _ _ => id) fun d hd e hde => ih d hd hde
    exact hflip.symm

theorem Alike.comp (h : a.Alike V F b) (h' : b.Alike V' F' c) : a.Alike (Comp V V') (Comp F F') c := by
  induction a using Expr.induction generalizing b c with
  | h a ih =>
    obtain ⟨hs, hab⟩ := alike_iff.mp h
    obtain ⟨hs', hbc⟩ := alike_iff.mp h'
    refine alike_iff.mpr ⟨hs.trans hs', ?_⟩
    exact (hab.comp hbc).imp (fun _ _ => id) (fun _ _ => id) fun d hd e ⟨m, hdm, hme⟩ => ih d hd hdm hme

/-- The same tree up to the order of terms, factors and arguments. -/
def Rearranges (a b : Expr) : Prop := a.Alike Eq Eq b

theorem rearranges_arrange (e : Expr) : e.Rearranges e.arrange := alike_arrange (fun _ => rfl) (fun _ => rfl) e

theorem Rearranges.symm (h : a.Rearranges b) : b.Rearranges a := by
  have hflip : flip (Eq : String → String → Prop) = Eq := by
    funext m n
    exact propext eq_comm
  have hsymm := Alike.symm h
  rwa [hflip] at hsymm

theorem Rearranges.alike (h : a.Rearranges b) (h' : b.Alike V F c) : a.Alike V F c := by
  have hcomp := Alike.comp h h'
  rwa [Relation.eq_comp, Relation.eq_comp] at hcomp

theorem Rearranges.refl (a : Expr) : a.Rearranges a := (rearranges_arrange a).alike (rearranges_arrange a).symm

theorem Alike.rearranges (h : a.Alike V F b) (h' : b.Rearranges c) : a.Alike V F c := by
  have hcomp := h.comp h'
  rwa [Relation.comp_eq, Relation.comp_eq] at hcomp

/-- Trees are alike if they are alike once they are arranged. -/
theorem alike_of_arrange (h : a.arrange.Alike V F b.arrange) : a.Alike V F b :=
  ((rearranges_arrange a).alike h).rearranges (rearranges_arrange b).symm

theorem rearranges_of_arrange_eq (h : a.arrange = b.arrange) : a.Rearranges b := by
  refine alike_of_arrange ?_
  rw [h]
  exact Rearranges.refl _

end Expr

end Isolate
