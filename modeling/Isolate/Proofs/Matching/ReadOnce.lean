import Isolate.Proofs.Matching.Complete

/-!
# Names that occur once

Where no name occurs twice, the parts of a node have no names to share, so nothing is ambiguous
(`Equation.isUnambiguous_of_nodup`). Whether that is so can be computed.
-/

namespace Isolate

/-- The name of the node itself. -/
def Shape.own : Shape α → List (Kind × String)
  | var n => [(.var, n)]
  | call n _ => [(.call, n)]
  | _ => []

theorem Shape.mem_own {k : Kind} {n : String} {b : Shape α} : (k, n) ∈ b.own ↔ b.Has k n := by
  cases b <;> simp [own, Has, eq_comm]

namespace Expr

variable {k : Kind} {n : String} {a b e : Expr}

/-- All names in the tree, as often as they occur. -/
def names (e : Expr) : List (Kind × String) := e.fold fun e b => e.shape.own ++ b.children.flatten

theorem names_eq (e : Expr) : e.names = e.shape.own ++ e.children.flatMap names := by
  rw [names, fold_eq, Shape.children_map, List.flatMap_def]
  rfl

theorem mem_names : (k, n) ∈ e.names ↔ e.Mentions k n := by
  induction e using Expr.induction with
  | h e ih =>
    rw [names_eq, mentions_iff, List.mem_append, Shape.mem_own, List.mem_flatMap]
    exact or_congr_right (exists_congr fun d => and_congr_right fun hd => ih d hd)

/-- Trees without a name in common fix the names that they share. -/
theorem fixesShared_of_names (h : a.names.Disjoint b.names) : a.FixesShared b :=
  fixesShared_of_disjoint fun _ _ ha hb => h (mem_names.mpr ha) (mem_names.mpr hb)

theorem areUnambiguous_of_names {es : List Expr} (h : es.Pairwise fun a b => a.names.Disjoint b.names) :
    AreUnambiguous es :=
  h.imp fun hab => ⟨fixesShared_of_names hab, fixesShared_of_names hab.symm⟩

theorem disjoint_together {as bs : List Expr} (h : ∀ a ∈ as, ∀ b ∈ bs, a.names.Disjoint b.names) (k : Kind) (n : String)
    (has : (together as).Mentions k n) : ¬(together bs).Mentions k n := by
  intro hbs
  obtain ⟨a, ha, hna⟩ := mentions_together.mp has
  obtain ⟨b, hb, hnb⟩ := mentions_together.mp hbs
  exact h a ha b hb (mem_names.mpr hna) (mem_names.mpr hnb)

/-- **A tree in which no name occurs twice is unambiguous.** -/
theorem isUnambiguous_of_nodup (h : e.names.Nodup) : e.IsUnambiguous := by
  induction e using Expr.induction with
  | h e ih =>
    rw [names_eq] at h
    obtain ⟨-, hchildren, hown⟩ := List.nodup_append.mp h
    obtain ⟨hnodup, hdisjoint⟩ := List.nodup_flatMap.mp hchildren
    refine isUnambiguous_iff.mpr ⟨?_, fun a ha => ih a ha (hnodup a ha)⟩
    obtain ⟨s, b, c⟩ := e
    cases b with
    | number v => trivial
    | var m => trivial
    | factorial a => trivial
    | power a b => exact fixesShared_of_names ((List.pairwise_cons.mp hdisjoint).1 b List.mem_cons_self)
    | modulo a b => exact fixesShared_of_names ((List.pairwise_cons.mp hdisjoint).1 b List.mem_cons_self)
    | call m as =>
      refine ⟨areUnambiguous_of_names hdisjoint, fixesShared_of_disjoint fun k n hargs hn => ?_⟩
      obtain ⟨a, ha, hna⟩ := mentions_together.mp hargs
      obtain ⟨rfl, rfl⟩ : k = .call ∧ m = n := by simpa using hn
      exact hown _ List.mem_cons_self _ (List.mem_flatMap.mpr ⟨a, ha, mem_names.mpr hna⟩) rfl
    | sum ts =>
      obtain ⟨hterm, hterms⟩ := List.pairwise_flatMap.mp hdisjoint
      refine ⟨List.pairwise_map.mpr (hterms.imp fun {t u} htu => ?_), fun t ht => ?_⟩
      · have hsum : ∀ t : Ratio Expr, ∀ k n, (Expr.sum [t]).Mentions k n → ∃ a ∈ t.factors, (k, n) ∈ a.names :=
          fun t k n hn => by simpa [mentions_sum, mem_names] using hn
        have happart : ∀ k n, (Expr.sum [t]).Mentions k n → ¬(Expr.sum [u]).Mentions k n := by
          intro k n ht hu
          obtain ⟨a, ha, hna⟩ := hsum t k n ht
          obtain ⟨b, hb, hnb⟩ := hsum u k n hu
          exact htu a ha b hb hna hnb
        exact ⟨fixesShared_of_disjoint happart, fixesShared_of_disjoint fun k n hu ht => happart k n ht hu⟩
      · obtain ⟨hn, hd, hcross⟩ := List.pairwise_append.mp (hterm t ht)
        exact ⟨areUnambiguous_of_names hn, areUnambiguous_of_names hd, fixesShared_of_disjoint (disjoint_together hcross)⟩

end Expr

/-- **An equation in which no name occurs twice is unambiguous.** -/
theorem Equation.isUnambiguous_of_nodup {q : Equation} (h : (q.sides.flatMap Expr.names).Nodup) :
    (Comparable.equation q).IsUnambiguous := by
  obtain ⟨hnodup, hdisjoint⟩ := List.nodup_flatMap.mp h
  exact ⟨hdisjoint.imp Expr.fixesShared_of_names, fun e he => Expr.isUnambiguous_of_nodup (hnodup e he)⟩

end Isolate
