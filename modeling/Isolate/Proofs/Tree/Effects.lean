import Isolate.Expr.Traversal
import Mathlib.Data.List.Basic

/-!
# Acting on the operands of a node

`Shape.mapM` acts on the operands one after the other. What an action does can be told by a condition and a result: it
gives the result if the condition holds, and otherwise it fails, in the way of its monad. If this goes through for what
is done one after the other (`IsTold`), then a node succeeds just if all its operands do, with the node of their results
(`IsTold.mapShape`).

* `Shape.mapM_map` and `Shape.map_mapM`: what is changed before or after an action may be changed with it.
-/

namespace Isolate

variable {m : Type → Type} [Monad m] {α β γ : Type}

/-! ## Conditions and results -/

/-- A way to tell what actions do by conditions and results. -/
structure IsTold (Tells : {α : Type} → m α → Prop → α → Prop) : Prop where
  pure {α : Type} (a : α) : Tells (pure a) True a
  bind {α β : Type} {x : m α} {f : α → m β} {P Q : Prop} {a : α} {g : α → β} (hx : Tells x P a)
    (hf : ∀ c, Tells (f c) Q (g c)) : Tells (x >>= f) (P ∧ Q) (g a)
  congr {α : Type} {x : m α} {P Q : Prop} {a : α} (hx : Tells x P a) (hiff : Q ↔ P) : Tells x Q a

namespace IsTold

variable {Tells : {α : Type} → m α → Prop → α → Prop} {f : α → m β} {P : α → Prop} {g : α → β}

theorem map (hT : IsTold Tells) {x : m α} {P : Prop} {a : α} (hx : Tells x P a) (g : α → β) :
    Tells (x >>= fun c => Pure.pure (g c)) P (g a) :=
  hT.congr (hT.bind hx fun c => hT.pure (g c)) (by rw [and_true])

/-- Two actions one after the other. -/
theorem map₂ (hT : IsTold Tells) {x : m α} {y : m β} {P Q : Prop} {a : α} {b : β} (hx : Tells x P a) (hy : Tells y Q b)
    (g : α → β → γ) : Tells (x >>= fun c => y >>= fun d => Pure.pure (g c d)) (P ∧ Q) (g a b) :=
  hT.bind (g := fun c => g c b) hx fun c => hT.map hy (g c)

variable [LawfulMonad m]

theorem mapList (hT : IsTold Tells) {as : List α} (h : ∀ a ∈ as, Tells (f a) (P a) (g a)) :
    Tells (as.mapM f) (∀ a ∈ as, P a) (as.map g) := by
  induction as with
  | nil => exact hT.congr (hT.pure []) (by simp)
  | cons a as ih =>
    obtain ⟨ha, has⟩ := List.forall_mem_cons.mp h
    rw [List.mapM_cons]
    exact hT.congr (hT.map₂ ha (ih has) List.cons) List.forall_mem_cons

theorem mapRatio (hT : IsTold Tells) {r : Ratio α} (h : ∀ a ∈ r.factors, Tells (f a) (P a) (g a)) :
    Tells (r.mapM f) (∀ a ∈ r.factors, P a) (r.map g) := by
  have hn := hT.mapList fun a ha => h a (List.mem_append_left _ ha)
  have hd := hT.mapList fun a ha => h a (List.mem_append_right _ ha)
  exact hT.congr (hT.map₂ hn hd Ratio.mk) List.forall_mem_append

/-- **A node succeeds just if all its operands do**, and gives the node of their results. -/
theorem mapShape (hT : IsTold Tells) {b : Shape α} (h : ∀ a ∈ b.children, Tells (f a) (P a) (g a)) :
    Tells (b.mapM f) (∀ a ∈ b.children, P a) (b.map g) := by
  cases b with
  | number v => exact hT.congr (hT.pure _) (by simp [Shape.children])
  | var n => exact hT.congr (hT.pure _) (by simp [Shape.children])
  | power b e =>
    have hb := h b (by simp [Shape.children])
    have he := h e (by simp [Shape.children])
    exact hT.congr (hT.map₂ hb he Shape.power) (by simp [Shape.children])
  | modulo a b =>
    have ha := h a (by simp [Shape.children])
    have hb := h b (by simp [Shape.children])
    exact hT.congr (hT.map₂ ha hb Shape.modulo) (by simp [Shape.children])
  | factorial a =>
    have ha := h a (by simp [Shape.children])
    exact hT.congr (hT.map ha Shape.factorial) (by simp [Shape.children])
  | call n as => exact hT.map (hT.mapList h) (Shape.call n ·)
  | sum ts =>
    have hterm : ∀ t ∈ ts, Tells (t.mapM f) (∀ a ∈ t.factors, P a) (t.map g) := fun t ht =>
      hT.mapRatio fun a ha => h a (List.mem_flatMap.mpr ⟨t, ht, ha⟩)
    exact hT.congr (hT.map (hT.mapList hterm) Shape.sum) List.forall_mem_flatMap

end IsTold

/-- The value is there just if the condition holds. -/
structure IsGiven (x : Option α) (P : Prop) (a : α) : Prop where
  eq_some : P → x = some a
  eq_none : ¬P → x = none

theorem isTold_isGiven : IsTold IsGiven where
  pure _ := ⟨fun _ => rfl, fun h => absurd trivial h⟩
  bind {_ _ x f P Q a g} hx hf := by
    constructor
    · rintro ⟨hP, hQ⟩
      rw [hx.eq_some hP]
      exact (hf a).eq_some hQ
    · intro hnot
      by_cases hP : P
      · rw [hx.eq_some hP]
        exact (hf a).eq_none fun hQ => hnot ⟨hP, hQ⟩
      · rw [hx.eq_none hP]
        rfl
  congr hx hiff := ⟨fun h => hx.eq_some (hiff.mp h), fun h => hx.eq_none (mt hiff.mpr h)⟩

theorem Shape.mapM_eq_some_iff [Inhabited β] {f : α → Option β} {b : Shape α} {c : Shape β} :
    b.mapM f = some c ↔ (∀ a ∈ b.children, f a ≠ none) ∧ (b.map fun a => (f a).getD default) = c := by
  have hgiven : IsGiven (b.mapM f) (∀ a ∈ b.children, f a ≠ none) (b.map fun a => (f a).getD default) :=
    isTold_isGiven.mapShape fun a _ =>
      ⟨fun ha => (Option.getD_of_ne_none ha default).symm, fun ha => Decidable.not_not.mp ha⟩
  by_cases hall : ∀ a ∈ b.children, f a ≠ none
  · rw [hgiven.eq_some hall, Option.some.injEq, and_iff_right hall]
  · rw [hgiven.eq_none hall]
    exact ⟨nofun, fun h => absurd h.1 hall⟩

/-! ## Changes before and after -/

variable [LawfulMonad m]

theorem map_mapList (h : β → γ) (f : α → m β) (as : List α) :
    List.map h <$> as.mapM f = as.mapM fun a => h <$> f a := by
  induction as with
  | nil => simp
  | cons a as ih =>
    rw [List.mapM_cons, List.mapM_cons, ← ih]
    simp

theorem Ratio.mapM_map (h : α → β) (f : β → m γ) (r : Ratio α) : (r.map h).mapM f = r.mapM (f ∘ h) := by
  simp [mapM, map, List.mapM_map, Function.comp_def]

theorem Ratio.map_mapM (h : β → γ) (f : α → m β) (r : Ratio α) : map h <$> r.mapM f = r.mapM fun a => h <$> f a := by
  rw [mapM, mapM, ← map_mapList, ← map_mapList]
  simp [map]

/-- Changing the operands and then acting on them is acting on them in another way. -/
theorem Shape.mapM_map (h : α → β) (f : β → m γ) (b : Shape α) : (b.map h).mapM f = b.mapM (f ∘ h) := by
  cases b <;> simp [mapM, map, List.mapM_map, Function.comp_def, Ratio.mapM_map]

/-- Changing what the actions give changes the operands of what they give together. -/
theorem Shape.map_mapM (h : β → γ) (f : α → m β) (b : Shape α) : map h <$> b.mapM f = b.mapM fun a => h <$> f a := by
  cases b with
  | call n as =>
    rw [mapM, mapM, ← map_mapList]
    simp [map]
  | sum ts =>
    have hterms := map_mapList (Ratio.map h) (Ratio.mapM f) ts
    simp only [Ratio.map_mapM] at hterms
    rw [mapM, mapM, ← hterms]
    simp [map]
  | _ => simp [mapM, map]

end Isolate
