import Isolate.Proofs.Matching.Finding

/-!
# When a match is found

Two things can be the same up to a renaming without being found to be so. The sums of `a + b = a` and `a + b = b` are
matched with `a` for `a`, which the other sides do not allow, and `b` for `a` is not tried (`Comparable.misses_swappedSum`).
Things in which no part is ambiguous are found: `Comparable.isSame_of_rearranges`.
-/

namespace Isolate

open Isolate.Expr (together)

/-! ## What can be compared -/

namespace Expr

variable {e b e' b' : Expr} {as : List Expr} {ts : List (Ratio Expr)}

/-- A tree is alike the renamed tree. -/
theorem alike_rename (v f : String → String) (a : Expr) : a.Alike (v · = ·) (f · = ·) (a.rename v f) := by
  induction a using Expr.induction with
  | h a ih =>
    obtain ⟨s, b, c⟩ := a
    rw [rename_eq]
    refine alike_iff.mpr ⟨rfl, ?_⟩
    cases b with
    | number v => rfl
    | var n => rfl
    | power a b => exact ⟨ih a (by simp [children, Shape.children]), ih b (by simp [children, Shape.children])⟩
    | modulo a b => exact ⟨ih a (by simp [children, Shape.children]), ih b (by simp [children, Shape.children])⟩
    | factorial a => exact ih a (by simp [children, Shape.children])
    | call n as => exact ⟨rfl, .of_perm ih (.refl _)⟩
    | sum ts =>
      refine .of_perm (f := Ratio.map (rename v f)) (fun t ht => ?_) (.refl _)
      have hfactors : ∀ a ∈ t.factors, a.Alike (v · = ·) (f · = ·) (a.rename v f) := fun a ha =>
        ih a (List.mem_flatMap.mpr ⟨t, ht, ha⟩)
      exact ⟨.of_perm (fun a ha => hfactors a (List.mem_append_left _ ha)) (.refl _),
        .of_perm (fun a ha => hfactors a (List.mem_append_right _ ha)) (.refl _)⟩

/-- The factors of each term are unambiguous, and so are their lists. -/
theorem IsUnambiguous.factors (h : (sum ts).IsUnambiguous) {t : Ratio Expr} (ht : t ∈ ts) :
    (AreUnambiguous t.numerator ∧ AreUnambiguous t.denominator ∧
      (together t.numerator).FixesShared (together t.denominator)) ∧
        ∀ e ∈ t.factors, Matcher.Searches id (e.matcher .bijective) e := by
  obtain ⟨hshape, hchildren⟩ := isUnambiguous_iff.mp h
  exact ⟨hshape.2 t ht, fun e he => searches_matcher (hchildren e (List.mem_flatMap.mpr ⟨t, ht, he⟩))⟩

end Expr

namespace Matcher

variable {x : StateM Names Bool} {e b e' b' : Expr}

theorem Finds.rearranged (h : Finds x e' b') (he : e.Rearranges e') (hb : b.Rearranges b') : Finds x e b :=
  fun T ρ names hfits hT hlike =>
    h T ρ names hfits (fun k n hn => hT k n (he.mentions_iff.mpr hn)) (hlike.rearranged he hb)

theorem finds_terms {ts : List (Ratio Expr)} (h : (Expr.sum ts).IsUnambiguous) (us : List (Ratio Expr)) :
    Finds (list .bijective ((arrangeRatios ts).map (Ratio.matcher .bijective)) (arrangeRatios us)) (.sum ts)
      (.sum us) := by
  have harrange : ∀ ts : List (Ratio Expr), (Expr.sum ts).Rearranges (.sum (arrangeRatios ts)) := fun ts =>
    Expr.alikeBy_sum (R := fun _ => Eq).mpr (Comparable.corr_arrangeRatios ts)
  have h' := (harrange ts).isUnambiguous h
  have hfinds := finds_ratios (fun t ht => searches_ratio (h'.factors ht).2 (h'.factors ht).1)
    (Expr.isUnambiguous_iff.mp h').1.1 (arrangeRatios us)
  exact hfinds.rearranged (harrange ts) (harrange us)

theorem finds_together {as : List Expr} (h : (together as).IsUnambiguous) (bs : List Expr) :
    Finds (list .bijective ((arrangeExprs as).map (Expr.matcher .bijective)) (arrangeExprs bs)) (together as)
      (together bs) := by
  have harrange : ∀ es : List Expr, (together es).Rearranges (together (arrangeExprs es)) := fun es =>
    Expr.alikeBy_together (R := fun _ => Eq).mpr (Comparable.corr_arrangeExprs es)
  obtain ⟨⟨has, -⟩, hsearches⟩ := ((harrange as).isUnambiguous h).factors List.mem_cons_self
  have hfinds := finds_exprs (fun a ha => hsearches a (List.mem_append_left _ ha)) has (arrangeExprs bs)
  exact hfinds.rearranged (harrange as) (harrange bs)

theorem finds_arranged {t : Ratio Expr} (h : (Expr.sum [t]).IsUnambiguous) (u : Ratio Expr) :
    Finds ((t.arrange (t.map Expr.arrange)).matcher .bijective (u.arrange (u.map Expr.arrange))) (.sum [t])
      (.sum [u]) := by
  have harrange : ∀ t : Ratio Expr, (Expr.sum [t]).Rearranges (.sum [t.arrange (t.map Expr.arrange)]) := fun t =>
    Expr.alikeBy_sum_singleton (R := fun _ => Eq).mpr (Comparable.rearranges_arrangeRatio t)
  obtain ⟨ht, hsearches⟩ := ((harrange t).isUnambiguous h).factors List.mem_cons_self
  exact (searches_ratio hsearches ht _).2.rearranged (harrange t) (harrange u)

theorem compares_arrange (a b : Expr) : Compares (a.arrange.matcher .bijective b.arrange) a b := by
  refine ⟨fun R => (a.arrange.tells_matcher b.arrange).imp Expr.alike_of_arrange, fun P hrecord => ?_⟩
  refine a.arrange.keeps_of_record b.arrange fun k m hm => hrecord k m ?_
  exact (Expr.rearranges_arrange a).mentions_iff.mpr hm

theorem finds_arrange {a : Expr} (h : a.IsUnambiguous) (b : Expr) :
    Finds (a.arrange.matcher .bijective b.arrange) a b :=
  (Expr.searches_matcher ((Expr.rearranges_arrange a).isUnambiguous h) b.arrange).2.rearranged
    (Expr.rearranges_arrange a) (Expr.rearranges_arrange b)

end Matcher

namespace Comparable

/-- Does the name occur in one of the trees? -/
def Mentions (l : Comparable) (k : Kind) (n : String) : Prop := ∃ e ∈ l.trees, e.Mentions k n

/-- A tree that holds all the trees. -/
def tree : Comparable → Expr
  | expr e => e
  | ratio t => .sum [t]
  | terms ts => .sum ts
  | equation q => together q.sides
  | exprs es => together es
  | ratios ts => .sum ts
  | others _ => together []
  | other _ => together []

/-- All parts fix the names that they share with the parts beside them. The sides of an equation stand in order, so each
has to fix the names that it shares with later ones only. -/
def IsUnambiguous : Comparable → Prop
  | equation q => q.sides.Pairwise Expr.FixesShared ∧ ∀ e ∈ q.sides, e.IsUnambiguous
  | l => l.tree.IsUnambiguous

variable {l r : Comparable} {k : Kind} {n : String} {T : Kind → String → Prop} {ρ : Renaming} {names : Names}
  {v f : String → String} {m : StateM Names Bool}

theorem mentions_iff : l.Mentions k n ↔ l.tree.Mentions k n := by
  cases l with
  | expr e => simp [Mentions, trees, tree]
  | ratio t => simp [Mentions, trees, tree, Expr.mentions_sum]
  | terms ts => exact Expr.mentions_sum_factors.symm
  | ratios ts => exact Expr.mentions_sum_factors.symm
  | _ => exact Expr.mentions_together.symm

/-- A thing is alike whatever it is the same as once it is renamed. -/
theorem alike_of_rename (h : (l.rename v f).Rearranges r) : l.Alike (v · = ·) (f · = ·) r := by
  have hexpr : ∀ a b : Expr, (a.rename v f).Rearranges b → a.Alike (v · = ·) (f · = ·) b := fun a b hab =>
    (a.alike_rename v f).rearranges hab
  have hratio : ∀ t u : Ratio Expr, (t.map (Expr.rename v f)).Corr Expr.Rearranges u →
      t.Corr (Expr.Alike (v · = ·) (f · = ·)) u := fun t u htu =>
    ⟨(Corr.map_left.mp htu.1).imp fun a _ => hexpr a, (Corr.map_left.mp htu.2).imp fun a _ => hexpr a⟩
  cases l <;> cases r <;> simp only [rename, Rearranges, Alike] at h ⊢
  case expr.expr a b => exact hexpr a b h
  case ratio.ratio t u => exact hratio t u h
  case terms.terms ts us => exact (Corr.map_left.mp h).imp fun t _ => hratio t
  case equation.equation q r => exact (List.forall₂_map_left_iff.mp h).imp hexpr
  case exprs.exprs as bs => exact (Corr.map_left.mp h).imp fun a _ => hexpr a
  case ratios.ratios ts us => exact (Corr.map_left.mp h).imp fun t _ => hratio t
  case exprs.ratios as us => simpa using h
  case ratios.exprs ts bs => simpa using h

/-- The sides of an equation, one after the other. -/
theorem run_sides {as bs : List Expr} (hfix : as.Pairwise Expr.FixesShared) (has : ∀ a ∈ as, a.IsUnambiguous)
    (h : names.Fits T ρ) (hT : ∀ a ∈ as, ∀ k n, a.Mentions k n → T k n) (hlike : List.Forall₂ (Expr.LikeBy ρ) as bs) :
    ((sides .bijective as bs).run names).1 = true ∧ ((sides .bijective as bs).run names).2.check = true := by
  induction as generalizing bs names ρ with
  | nil =>
    cases hlike
    exact ⟨rfl, h.check⟩
  | cons a as ih =>
    cases hlike with
    | @cons _ b _ bs hab hrest =>
      obtain ⟨hfix, hfixes⟩ := List.pairwise_cons.mp hfix
      obtain ⟨ha, has⟩ := List.forall_mem_cons.mp has
      obtain ⟨haT, hT⟩ := List.forall_mem_cons.mp hT
      obtain ⟨hrun, ρ', hfits, hothers⟩ :=
        (Matcher.finds_arrange ha b).exchange (Matcher.compares_arrange a b) h haT hab
      have hrest' : List.Forall₂ (Expr.LikeBy ρ') as bs :=
        forall₂_imp_of_mem (fun d hd _ => hothers d _ (hfix d hd)) hrest
      rw [sides, Matcher.run_bind, hrun, if_pos rfl]
      exact ih hfixes has hfits hT hrest'

/-- A comparison of unambiguous things finds a renaming that fits. -/
theorem run_isSame (hl : l.IsUnambiguous) (hm : isSame .bijective l r = .ok m) (h : names.Fits T ρ)
    (hT : ∀ k n, l.Mentions k n → T k n) (hlike : l.Alike (ρ .var · = ·) (ρ .call · = ·) r) :
    (m.run names).1 = true ∧ (m.run names).2.check = true := by
  have htree : ∀ k n, l.tree.Mentions k n → T k n := fun k n hn => hT k n (mentions_iff.mpr hn)
  cases l <;> cases r <;> simp only [Alike] at hlike <;> simp only [isSame, Except.ok.injEq] at hm <;> subst hm
  case expr.expr a b => exact Matcher.finds_arrange hl b T ρ names h htree hlike
  case ratio.ratio t u => exact Matcher.finds_arranged hl u T ρ names h htree (Expr.alikeBy_sum_singleton.mpr hlike)
  case terms.terms ts us => exact Matcher.finds_terms hl us T ρ names h htree (Expr.alikeBy_sum.mpr hlike)
  case equation.equation q r =>
    rw [if_pos hlike.length_eq]
    exact run_sides hl.1 hl.2 h (fun a ha k n hn => hT k n ⟨a, ha, hn⟩) hlike
  case exprs.exprs as bs => exact Matcher.finds_together hl bs T ρ names h htree (Expr.alikeBy_together.mpr hlike)
  case ratios.ratios ts us => exact Matcher.finds_terms hl us T ρ names h htree (Expr.alikeBy_sum.mpr hlike)
  case exprs.ratios as us =>
    obtain ⟨rfl, rfl⟩ := hlike
    exact ⟨rfl, h.check⟩
  case ratios.exprs ts bs =>
    obtain ⟨rfl, rfl⟩ := hlike
    exact ⟨rfl, h.check⟩

/-- **What is the same up to names and order is found to be the same, if nothing is ambiguous.** If the parts of the left
side fix the names that they share, and maps of variables and of functions that are injective on it make the right side
of it, up to the order of terms, factors, arguments and the items of lists, then the two match, and the observed names
pass the check. -/
theorem isSame_of_rearranges (hl : l.IsUnambiguous) (hv : Set.InjOn v {n | l.Mentions .var n})
    (hf : Set.InjOn f {n | l.Mentions .call n}) (h : (l.rename v f).Rearranges r) :
    ∃ m names, isSame .bijective l r = .ok m ∧ m.run {} = (true, names) ∧ names.check = true := by
  have halike := alike_of_rename h
  obtain ⟨m, hm⟩ : ∃ m, isSame .bijective l r = .ok m := by
    cases l <;> cases r <;> simp only [Alike] at halike <;> exact ⟨_, rfl⟩
  have hinjective : (Renaming.ofMaps v f).InjectiveOn l.Mentions := by
    intro k m n hm hn heq
    cases k
    · exact hv hm hn heq
    · exact hf hm hn heq
  obtain ⟨hrun, hcheck⟩ := run_isSame hl hm (Names.fits_empty hinjective) (fun _ _ => id) halike
  exact ⟨m, (m.run {}).2, hm, Prod.ext hrun rfl, hcheck⟩

open Isolate.Expr in
/-- The equation `f(z)^2 = x * y + f(z)`. -/
def squareOverSum : Comparable := .equation ⟨[(call "f" [.var "z"]).pow (number 2),
  sum [⟨[.var "x", .var "y"], []⟩, .of (call "f" [.var "z"])]]⟩

open Isolate.Expr in
/-- The equation `g(x)^2 = g(x) + y * z`. -/
def renamedSquareOverSum : Comparable := .equation ⟨[(call "g" [.var "x"]).pow (number 2),
  sum [.of (call "g" [.var "x"]), ⟨[.var "y", .var "z"], []⟩]]⟩

open Isolate.Expr in
theorem isUnambiguous_squareOverSum : squareOverSum.IsUnambiguous := by
  have hcall : (call "f" [.var "z"]).IsUnambiguous :=
    isUnambiguous_call.mpr (by simp [AreUnambiguous, FixesShared, mentions_together])
  have hvars : AreUnambiguous [.var "x", .var "y"] :=
    List.pairwise_pair.mpr ⟨fixesShared_of_disjoint (by simp), fixesShared_of_disjoint (by simp)⟩
  have hterms : ∀ k n, (sum [⟨[.var "x", .var "y"], []⟩]).Mentions k n →
      ¬(sum [.of (call "f" [.var "z"])]).Mentions k n := by
    intro k n hn hm
    simp only [mentions_sum, Ratio.factors, Ratio.of, List.mem_cons, List.not_mem_nil, List.mem_append, or_false,
      exists_eq_left, exists_eq_or_imp, mentions_var, mentions_call] at hn hm
    rcases hn with ⟨rfl, rfl⟩ | ⟨rfl, rfl⟩ <;> simp at hm
  refine ⟨?_, List.forall_mem_cons.mpr ⟨?_, List.forall_mem_singleton.mpr ?_⟩⟩
  · -- the square fixes its names, as they are the only ones of their kinds
    refine List.pairwise_pair.mpr fun k n hn _ => fixes_of_only hn fun m hm => ?_
    simp only [mentions_pow, mentions_call, List.mem_singleton, exists_eq_left, mentions_var, not_mentions_number,
      or_false] at hm hn
    cases k <;> simp_all
  · exact isUnambiguous_pow.mpr ⟨fixesShared_of_disjoint (by simp), hcall, isUnambiguous_number 2⟩
  · refine isUnambiguous_iff.mpr ⟨⟨List.pairwise_pair.mpr ?_, ?_⟩, ?_⟩
    · exact ⟨fixesShared_of_disjoint hterms, fixesShared_of_disjoint fun k n h h' => hterms k n h' h⟩
    · refine List.forall_mem_cons.mpr ⟨⟨hvars, .nil, ?_⟩, List.forall_mem_singleton.mpr ⟨?_, .nil, ?_⟩⟩
      · exact fixesShared_of_disjoint (by simp [mentions_together])
      · exact List.pairwise_singleton _ _
      · exact fixesShared_of_disjoint (by simp [mentions_together, Ratio.of])
    · simp [sum, ofShape, children, Shape.children, Ratio.factors, Ratio.of, hcall]

theorem isSame_squareOverSum : ∃ v f, squareOverSum.IsUnambiguous ∧ Set.InjOn v {n | squareOverSum.Mentions .var n} ∧
    Set.InjOn f {n | squareOverSum.Mentions .call n} ∧ (squareOverSum.rename v f).Rearranges renamedSquareOverSum ∧
      ∃ m names, isSame .bijective squareOverSum renamedSquareOverSum = .ok m ∧ m.run {} = (true, names) ∧
        names.check = true := by
  have hv : Set.InjOn (Equiv.swap "x" "z") {n | squareOverSum.Mentions .var n} := (Equiv.injective _).injOn
  have hf : Set.InjOn (Equiv.swap "f" "g") {n | squareOverSum.Mentions .call n} := (Equiv.injective _).injOn
  have hsame : (squareOverSum.rename (Equiv.swap "x" "z") (Equiv.swap "f" "g")).Rearranges renamedSquareOverSum :=
    .cons (Expr.rearranges_of_arrange_eq (by cbv)) (.cons (Expr.rearranges_of_arrange_eq (by cbv)) .nil)
  exact ⟨_, _, isUnambiguous_squareOverSum, hv, hf, hsame,
    isSame_of_rearranges isUnambiguous_squareOverSum hv hf hsame⟩

/-- The equation `a + b = a`. -/
def sumOverFirst : Comparable := .equation ⟨[(Expr.var "a").add (.var "b"), .var "a"]⟩

/-- The equation `a + b = b`. -/
def sumOverSecond : Comparable := .equation ⟨[(Expr.var "a").add (.var "b"), .var "b"]⟩

theorem misses_swappedSum :
    (∃ v f, Function.Injective v ∧ Function.Injective f ∧ (sumOverFirst.rename v f).Rearranges sumOverSecond) ∧
      ∃ m, isSame .bijective sumOverFirst sumOverSecond = .ok m ∧
        m.run {} = (true, ⟨[("a", ["a", "b"]), ("b", ["b"])], []⟩) ∧ (m.run {}).2.check = false := by
  have hrun : ∀ m, isSame .bijective sumOverFirst sumOverSecond = .ok m →
      m.run {} = (true, ⟨[("a", ["a", "b"]), ("b", ["b"])], []⟩) := by
    intro m hm
    obtain rfl := Except.ok.inj hm
    cbv
  refine ⟨⟨Equiv.swap "a" "b", id, Equiv.injective _, Function.injective_id, ?_⟩, _, rfl, hrun _ rfl, ?_⟩
  · exact .cons (Expr.rearranges_of_arrange_eq (by cbv)) (.cons (Expr.rearranges_of_arrange_eq (by cbv)) .nil)
  · rw [hrun _ rfl]
    decide

end Comparable

end Isolate
