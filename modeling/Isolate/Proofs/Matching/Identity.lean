import Isolate.Proofs.Matching.Complete
import Isolate.Proofs.Matching.Diagonal

/-!
# The identity renaming

The matcher of every tree accepts the tree, so a thing that is compared with itself is found to be the same, and the
names that were diagonal before are diagonal afterwards (`Comparable.accepts_self`). What a comparison finds to be the
same is alike by the names observed, so every name that occurs has been noted by then.

* `Comparable.isSame_self`: comparing a thing with itself notes every name in it with itself.
-/

namespace Isolate

open Matcher (Accepts)

/-! ## Lists and ratios -/

theorem Expr.accepts_matchers (es : List Expr) : List.Forall₂ Accepts (es.map (Expr.matcher .bijective)) es := by
  simpa using Expr.accepts_map (g := id) fun e (_ : e ∈ es) => e.accepts_matcher

theorem Ratio.accepts_matcher (t : Ratio Expr) : Accepts (t.matcher .bijective) t :=
  Matcher.accepts_ratio (Expr.accepts_matchers t.numerator) (Expr.accepts_matchers t.denominator)

theorem Ratio.accepts_matchers (ts : List (Ratio Expr)) :
    List.Forall₂ Accepts (ts.map (Ratio.matcher .bijective)) ts := by
  simpa using Expr.accepts_map (g := id) fun t (_ : t ∈ ts) => t.accepts_matcher

/-! ## Names that are noted -/

/-- The right name has been noted for the left one. -/
def Names.Pairs (names : Names) (k : Kind) (m n : String) : Prop := ∃ seen, (m, seen) ∈ names.table k ∧ n ∈ seen

theorem Names.within_pairs (names : Names) : names.Within (names.Pairs .var) (names.Pairs .call) :=
  ⟨fun p hp _ hr => ⟨p.2, hp, hr⟩, fun p hp _ hr => ⟨p.2, hp, hr⟩⟩

theorem Names.IsDiagonal.table {names : Names} (h : names.IsDiagonal) : ∀ k, (names.table k).IsDiagonal
  | .var => h.1
  | .call => h.2

/-- A name in diagonal names has been noted with itself, and with no other. -/
theorem NameTable.IsDiagonal.lookup {t : NameTable} (h : t.IsDiagonal) {n : String} {seen : List String}
    (hn : (n, seen) ∈ t) : t.lookup n = some seen ∧ seen ≠ [] ∧ ∀ r ∈ seen, r = n := by
  obtain ⟨hhead, hall⟩ := partner?_eq_some (h.partner _ hn)
  exact ⟨(lookup_eq_some_iff h.nodup).mpr hn, List.ne_nil_of_mem (List.mem_of_mem_head? hhead), hall⟩

namespace Comparable

variable {l : Comparable} {k : Kind} {n : String} {m : StateM Names Bool} {names : Names}

/-- Is it an expression, a ratio, a sum or an equation, or a list of expressions or of ratios? -/
def IsMatchable : Comparable → Prop
  | others _ => False
  | other _ => False
  | _ => True

/-- What can be matched is the same as itself, and diagonal names stay diagonal. -/
theorem accepts_self (hl : l.IsMatchable) : ∃ m, isSame .bijective l l = .ok m ∧
    ∀ names : Names, names.IsDiagonal → (m.run names).1 = true ∧ (m.run names).2.IsDiagonal := by
  cases l with
  | expr e => exact ⟨_, rfl, e.arrange.accepts_matcher⟩
  | ratio t => exact ⟨_, rfl, Ratio.accepts_matcher _⟩
  | terms ts => exact ⟨_, rfl, Matcher.accepts_list (Ratio.accepts_matchers _)⟩
  | equation q => exact ⟨_, rfl, by rw [if_pos rfl]; exact accepts_sides q.sides⟩
  | exprs es => exact ⟨_, rfl, Matcher.accepts_list (Expr.accepts_matchers _)⟩
  | ratios ts => exact ⟨_, rfl, Matcher.accepts_list (Ratio.accepts_matchers _)⟩
  | others n => exact hl.elim
  | other kind => exact hl.elim

/-- Once a thing has been found to be the same as another, all its names have been noted. -/
theorem exists_pair_of_mentions {r : Comparable} (hm : isSame .bijective l r = .ok m) (hrun : (m.run names).1 = true)
    (hn : l.Mentions k n) : ∃ n', (m.run names).2.Pairs k n n' := by
  obtain ⟨e, he, hen⟩ := hn
  have halike := (tells_isSame hm names hrun (m.run names).2.within_pairs).2
  obtain ⟨d, -, hed⟩ := halike.trees.exists_related he
  obtain ⟨n', hpair, -⟩ := Expr.AlikeBy.mentions (R := (m.run names).2.Pairs) hed hen
  exact ⟨n', hpair⟩

/-- **Whatever is compared with itself is the same, by the identity renaming.** If the names noted before are noted with
themselves only, the comparison matches, the names pass the check, and every name that occurs is noted with itself
only. -/
theorem isSame_self (hl : l.IsMatchable) (hn : names.IsDiagonal) : ∃ m names', isSame .bijective l l = .ok m ∧
    m.run names = (true, names') ∧ names'.check = true ∧ names'.IsDiagonal ∧
      ∀ k n, l.Mentions k n → ∃ seen, (names'.table k).lookup n = some seen ∧ seen ≠ [] ∧ ∀ r ∈ seen, r = n := by
  obtain ⟨m, hm, haccepts⟩ := accepts_self hl
  obtain ⟨hrun, hd⟩ := haccepts names hn
  refine ⟨m, (m.run names).2, hm, Prod.ext hrun rfl, hd.check, hd, fun k n hkn => ?_⟩
  obtain ⟨n', seen, hseen, -⟩ := exists_pair_of_mentions hm hrun hkn
  exact ⟨seen, (hd.table k).lookup hseen⟩

/-- The equation `x * y + sin(y) * x = sin(x) ^ y`. -/
def mirroredTerms : Comparable := .equation
  ⟨[.sum [⟨[.var "x", .var "y"], []⟩, ⟨[.call "sin" [.var "y"], .var "x"], []⟩],
    (Expr.call "sin" [.var "x"]).pow (.var "y")]⟩

/-- The names `z`, noted twice, and `sin`, each with itself. -/
def notedBefore : Names := ⟨[("z", ["z", "z"])], [("sin", ["sin"])]⟩

theorem isSame_self_mirroredTerms : mirroredTerms.IsMatchable ∧ notedBefore.IsDiagonal ∧
    ∃ m names', isSame .bijective mirroredTerms mirroredTerms = .ok m ∧ m.run notedBefore = (true, names') ∧
      names'.check = true ∧ names'.IsDiagonal ∧ ∀ k n, mirroredTerms.Mentions k n →
        ∃ seen, (names'.table k).lookup n = some seen ∧ seen ≠ [] ∧ ∀ r ∈ seen, r = n := by
  have hdiagonal : notedBefore.IsDiagonal := ⟨⟨by decide, by decide⟩, ⟨by decide, by decide⟩⟩
  exact ⟨trivial, hdiagonal, isSame_self trivial hdiagonal⟩

end Comparable

end Isolate
