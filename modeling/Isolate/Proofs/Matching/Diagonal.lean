import Isolate.Proofs.Matching.Following
import Mathlib.Data.List.Forall2

/-!
# Matching a tree with itself

Names are *diagonal* if every one is noted with itself only; such names make a renaming (`Names.IsDiagonal.check`). A
matcher *accepts* what it matches from all diagonal names, if the names are diagonal then (`Matcher.Accepts`). The first
partner that is tried for an item is the item itself, so nothing is ever given up (`Matcher.accepts_pairUp`).

* `Expr.accepts_matcher`: the matcher of an expression accepts the expression.
* `Equation.isLike_self`: every equation is like itself.
-/

namespace Isolate

/-! ## Diagonal names -/

namespace NameTable

/-- No name is noted twice, and each has itself as its only partner. -/
structure IsDiagonal (t : NameTable) : Prop where
  nodup : (t.map Prod.fst).Nodup
  partner : ∀ p ∈ t, partner? p.2 = some p.1

theorem isDiagonal_iff {t : NameTable} : t.IsDiagonal ↔ t.Follows id :=
  ⟨fun h => ⟨h.nodup, h.partner⟩, fun h => ⟨h.nodup, h.partner⟩⟩

theorem IsDiagonal.record {t : NameTable} (h : t.IsDiagonal) (name : String) : (t.record name name).IsDiagonal :=
  isDiagonal_iff.mpr ((isDiagonal_iff.mp h).record name)

theorem IsDiagonal.check {t : NameTable} (h : t.IsDiagonal) : t.check = true :=
  (isDiagonal_iff.mp h).checkFrom (fun _ _ _ _ => id) fun _ _ hm => by cases hm

end NameTable

namespace Names

/-- Variables and functions are noted with themselves only. -/
def IsDiagonal (names : Names) : Prop := names.vars.IsDiagonal ∧ names.functions.IsDiagonal

theorem isDiagonal_empty : ({} : Names).IsDiagonal :=
  ⟨⟨List.nodup_nil, fun _ hp => by cases hp⟩, ⟨List.nodup_nil, fun _ hp => by cases hp⟩⟩

/-- Diagonal names make a renaming. -/
theorem IsDiagonal.check {names : Names} (h : names.IsDiagonal) : names.check = true := by
  rw [Names.check, h.1.check, h.2.check]
  rfl

end Names

/-! ## Matchers that accept -/

namespace Matcher

variable {β : Type} {m : Matcher β} {b : β} {names : Names}

/-- The matcher matches from diagonal names, and leaves them diagonal. -/
def Accepts (m : Matcher β) (b : β) : Prop :=
  ∀ names : Names, names.IsDiagonal → ((m b).run names).1 = true ∧ ((m b).run names).2.IsDiagonal

theorem accepts_pairUp {ms : List (Matcher β)} {bs : List β} (h : List.Forall₂ Accepts ms bs) :
    Accepts (pairUp ms) bs := by
  induction h with
  | nil => exact fun names hn => ⟨rfl, hn⟩
  | @cons m b ms bs hm _ ih =>
    intro names hn
    obtain ⟨h1, hd⟩ := hm names hn
    obtain ⟨h2, hd2⟩ := ih _ hd
    have hrun : (pairUp (m :: ms) (b :: bs)).run names = (true, ((pairUp ms bs).run ((m b).run names).2).2) := by
      rw [run_pairUp_cons, picks, List.findSome?_cons, if_pos ⟨h1, hd.check⟩, if_pos h2]
      rfl
    rw [hrun]
    exact ⟨rfl, hd2⟩

theorem accepts_list {ms : List (Matcher β)} {bs : List β} (h : List.Forall₂ Accepts ms bs) :
    Accepts (list .bijective ms) bs := by
  intro names hn
  rw [list_bijective h.length_eq]
  exact accepts_pairUp h names hn

/-- If one matcher accepts and then another, so does the one after the other. -/
theorem accepts_and {x y : StateM Names Bool} {names : Names}
    (hx : (x.run names).1 = true ∧ (x.run names).2.IsDiagonal)
    (hy : ∀ names : Names, names.IsDiagonal → (y.run names).1 = true ∧ (y.run names).2.IsDiagonal) :
    ((do if ← x then y else return false : StateM Names Bool).run names).1 = true ∧
      ((do if ← x then y else return false : StateM Names Bool).run names).2.IsDiagonal := by
  rw [run_bind, hx.1, if_pos rfl]
  exact hy _ hx.2

theorem accepts_ratio {r : Ratio (Matcher Expr)} {t : Ratio Expr} (hn : List.Forall₂ Accepts r.numerator t.numerator)
    (hd : List.Forall₂ Accepts r.denominator t.denominator) : Accepts (ratio .bijective r) t :=
  fun names h => accepts_and (accepts_list hn names h) (accepts_list hd)

end Matcher

namespace Expr

open Matcher (Accepts)

theorem accepts_map {f : α → Matcher β} {g : α → β} {as : List α} (h : ∀ a ∈ as, Accepts (f a) (g a)) :
    List.Forall₂ Accepts (as.map f) (as.map g) := by
  rw [List.forall₂_map_left_iff, List.forall₂_map_right_iff, List.forall₂_same]
  exact h

/-- **The matcher of an expression accepts the expression.** -/
theorem accepts_matcher (e : Expr) : Accepts (e.matcher .bijective) e := by
  induction e using Expr.induction with
  | h e ih =>
    obtain ⟨s, b, c⟩ := e
    have hlist : ∀ es : List Expr, (∀ a ∈ es, a ∈ b.children) →
        List.Forall₂ Accepts (es.map (matcher .bijective)) es := by
      intro es hes
      have := accepts_map (f := matcher .bijective) (g := id) fun a ha => ih a (hes a ha)
      rwa [List.map_id] at this
    rw [matcher_eq]
    intro names hn
    simp only [if_true]
    cases b with
    | number v => simpa [Matcher.shape, Shape.map] using ⟨rfl, hn⟩
    | var n => exact ⟨rfl, hn.1.record n, hn.2⟩
    | power a d =>
      have ha := ih a (by simp [children, Shape.children])
      have hd := ih d (by simp [children, Shape.children])
      exact Matcher.accepts_and (ha names hn) hd
    | modulo a d =>
      have ha := ih a (by simp [children, Shape.children])
      have hd := ih d (by simp [children, Shape.children])
      exact Matcher.accepts_and (ha names hn) hd
    | factorial a => exact ih a (by simp [children, Shape.children]) names hn
    | call n as =>
      refine Matcher.accepts_and (Matcher.accepts_list (hlist as fun _ => id) names hn) fun names hn => ?_
      exact ⟨rfl, hn.1, hn.2.record n⟩
    | sum ts =>
      refine Matcher.accepts_list ?_ names hn
      have hratio : ∀ t ∈ ts, Accepts (Matcher.ratio .bijective (t.map (matcher .bijective))) t := by
        intro t ht
        have hmem : ∀ a ∈ t.factors, a ∈ (Shape.sum ts).children := fun a ha => List.mem_flatMap.mpr ⟨t, ht, ha⟩
        exact Matcher.accepts_ratio (hlist _ fun a ha => hmem a (List.mem_append_left _ ha))
          (hlist _ fun a ha => hmem a (List.mem_append_right _ ha))
      have := accepts_map (g := id) hratio
      rw [List.map_id] at this
      simpa using this

end Expr

/-! ## Equations -/

theorem Comparable.accepts_sides (es : List Expr) : Matcher.Accepts (sides .bijective es) es := by
  induction es with
  | nil => exact fun names hn => ⟨rfl, hn⟩
  | cons e es ih => exact fun names hn => Matcher.accepts_and (Expr.accepts_matcher e.arrange names hn) ih

/-- **Every equation is like itself.** -/
theorem Equation.isLike_self (q : Equation) : isLike .bijective q q = true := by
  obtain ⟨h, hd⟩ := Comparable.accepts_sides q.sides {} Names.isDiagonal_empty
  exact isLike_iff.mpr ⟨rfl, h, hd.check⟩

end Isolate
