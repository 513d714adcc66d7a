import Isolate.Proofs.Matching.Mentions

/-!
# Trees without ambiguity

A tree *fixes* a name if all injective renamings that make the same of it, up to order, agree on that name
(`Expr.Fixes`). So `a + b` fixes neither of its names, and `a + f(a)` fixes both. A tree is *unambiguous* if each part of
it fixes the names that it shares with the parts beside it (`Expr.IsUnambiguous`): how one part is matched is then no
matter for the others.

* `Expr.fixes_of_only`: the only name of its kind is fixed.
* `Expr.Rearranges.isUnambiguous`: order does not make a tree ambiguous.
-/

namespace Isolate

/-! ## Lists of trees -/

namespace Corr

variable {R : α → β → Prop} {as : List α} {bs : List β}

theorem singleton_iff {a : α} {b : β} : Corr R [a] [b] ↔ R a b := by
  constructor
  · rintro ⟨cs, hf, hp⟩
    obtain rfl := List.perm_singleton.mp hp
    exact (List.forall₂_cons.mp hf).1
  · exact fun h => ⟨[b], .cons h .nil, .refl _⟩

theorem nil_iff : Corr R ([] : List α) bs ↔ bs = [] := by
  constructor
  · intro h
    exact List.length_eq_zero_iff.mp h.length_eq.symm
  · rintro rfl
    exact ⟨[], .nil, .refl _⟩

theorem map {R' : γ → δ → Prop} {f : α → γ} {g : β → δ} (hR : ∀ a b, R a b → R' (f a) (g b)) (h : Corr R as bs) :
    Corr R' (as.map f) (bs.map g) := by
  obtain ⟨cs, hf, hp⟩ := h
  refine ⟨cs.map g, ?_, hp.map g⟩
  rw [List.forall₂_map_left_iff, List.forall₂_map_right_iff]
  exact hf.imp hR

/-- What holds of any two items holds of any two that correspond to them. -/
theorem pairwise {P : α → α → Prop} {Q : β → β → Prop} (hQ : ∀ {b b'}, Q b b' → Q b' b)
    (hR : ∀ a a' b b', R a b → R a' b' → P a a' → Q b b') (h : Corr R as bs) (hP : as.Pairwise P) :
    bs.Pairwise Q := by
  obtain ⟨cs, hf, hp⟩ := h
  refine (hp.pairwise_iff hQ).mp ?_
  clear hp
  induction hf with
  | nil => exact .nil
  | cons hab hrest ih =>
    obtain ⟨hhead, htail⟩ := List.pairwise_cons.mp hP
    refine List.pairwise_cons.mpr ⟨fun c hc => ?_, ih htail⟩
    obtain ⟨a, ha, hac⟩ := forall₂_exists_of_mem hrest.flip hc
    exact hR _ _ _ _ hab hac (hhead a ha)

end Corr

namespace Expr

/-- A tree that holds the items of a list. -/
def together (es : List Expr) : Expr := sum [⟨es, []⟩]

variable {R : Kind → String → String → Prop} {k : Kind} {n : String} {as bs es : List Expr} {ts us : List (Ratio Expr)}

theorem alikeBy_sum : (sum ts).AlikeBy R (sum us) ↔ Corr (Ratio.Corr (AlikeBy R)) ts us :=
  alikeBy_iff.trans (and_iff_right rfl)

theorem alikeBy_sum_singleton {t u : Ratio Expr} : (sum [t]).AlikeBy R (sum [u]) ↔ t.Corr (AlikeBy R) u :=
  alikeBy_sum.trans Corr.singleton_iff

theorem alikeBy_together : (together as).AlikeBy R (together bs) ↔ Corr (AlikeBy R) as bs :=
  alikeBy_sum_singleton.trans (and_iff_left (Corr.nil_iff.mpr rfl))

theorem mentions_sum_factors : (sum ts).Mentions k n ↔ ∃ e ∈ ts.flatMap Ratio.factors, e.Mentions k n :=
  mentions_iff.trans (or_iff_right id)

theorem mentions_sum : (sum ts).Mentions k n ↔ ∃ t ∈ ts, ∃ e ∈ t.factors, e.Mentions k n := by
  rw [mentions_sum_factors]
  constructor
  · rintro ⟨e, he, hn⟩
    obtain ⟨t, ht, he⟩ := List.mem_flatMap.mp he
    exact ⟨t, ht, e, he, hn⟩
  · rintro ⟨t, ht, e, he, hn⟩
    exact ⟨e, List.mem_flatMap.mpr ⟨t, ht, he⟩, hn⟩

theorem mentions_together : (together es).Mentions k n ↔ ∃ e ∈ es, e.Mentions k n := by
  simp [together, mentions_sum, Ratio.factors]

/-! ## Names that are fixed -/

/-- Injective renamings that make the same of the tree, up to order, agree on the name. -/
def Fixes (e : Expr) (k : Kind) (n : String) : Prop :=
  ∀ (ρ ρ' : Renaming) (b : Expr), ρ.InjectiveOn e.Mentions → ρ'.InjectiveOn e.Mentions → e.LikeBy ρ b →
    e.LikeBy ρ' b → ρ k n = ρ' k n

/-- The names that occur in both trees are fixed by the first one. -/
def FixesShared (a b : Expr) : Prop := ∀ k n, a.Mentions k n → b.Mentions k n → a.Fixes k n

variable {a b c d e : Expr}

/-- The only name of its kind is fixed. -/
theorem fixes_of_only (hn : e.Mentions k n) (h : ∀ m, e.Mentions k m → m = n) : e.Fixes k n := by
  intro ρ ρ' b _ _ hρ hρ'
  obtain ⟨m, hm, heq⟩ := hρ.mentioned (hρ'.mentions hn)
  rw [h m hm] at heq
  exact heq

theorem fixesShared_of_disjoint (h : ∀ k n, a.Mentions k n → ¬b.Mentions k n) : a.FixesShared b :=
  fun k n ha hb => absurd hb (h k n ha)

theorem Rearranges.fixes (h : a.Rearranges b) (ha : a.Fixes k n) : b.Fixes k n := by
  intro ρ ρ' c hρ hρ' hc hc'
  have hinjective : ∀ σ : Renaming, σ.InjectiveOn b.Mentions → σ.InjectiveOn a.Mentions := fun σ hσ k m n hm hn =>
    hσ k m n (h.mentions_iff.mp hm) (h.mentions_iff.mp hn)
  exact ha ρ ρ' c (hinjective ρ hρ) (hinjective ρ' hρ') (h.alike hc) (h.alike hc')

theorem FixesShared.rearranged (h : a.FixesShared b) (hac : a.Rearranges c) (hbd : b.Rearranges d) :
    c.FixesShared d := fun k n hc hd => hac.fixes (h k n (hac.mentions_iff.mpr hc) (hbd.mentions_iff.mpr hd))

/-- Each item of a list fixes the names that it shares with the others. -/
def AreUnambiguous (es : List Expr) : Prop := es.Pairwise fun a b => a.FixesShared b ∧ b.FixesShared a

theorem AreUnambiguous.rearranged (h : AreUnambiguous as) (hab : Corr Rearranges as bs) : AreUnambiguous bs :=
  hab.pairwise And.symm (fun _ _ _ _ hac hbd hfix => ⟨hfix.1.rearranged hac hbd, hfix.2.rearranged hbd hac⟩) h

end Expr

/-- The operands of a node fix the names that they share with each other, and the arguments of a call fix its name. -/
def Shape.IsUnambiguous : Shape Expr → Prop
  | power a b => a.FixesShared b
  | modulo a b => a.FixesShared b
  | call n as => Expr.AreUnambiguous as ∧ (Expr.together as).FixesShared (.call n [])
  | sum ts => Expr.AreUnambiguous (ts.map fun t => .sum [t]) ∧ ∀ t ∈ ts, Expr.AreUnambiguous t.numerator ∧
      Expr.AreUnambiguous t.denominator ∧ (Expr.together t.numerator).FixesShared (.together t.denominator)
  | _ => True

namespace Expr

/-- Everywhere in the tree, the parts of a node fix the names that they share with each other. -/
def IsUnambiguous (e : Expr) : Prop := e.Everywhere fun a => a.shape.IsUnambiguous

variable {a b e : Expr} {n : String}

theorem isUnambiguous_iff : e.IsUnambiguous ↔ e.shape.IsUnambiguous ∧ ∀ a ∈ e.children, a.IsUnambiguous :=
  everywhere_iff

@[simp] theorem isUnambiguous_number (q : Rat) : (number q).IsUnambiguous := by
  rw [isUnambiguous_iff]
  simp [number, ofShape, children, Shape.children, Shape.IsUnambiguous]

@[simp] theorem isUnambiguous_var (n : String) : (var n).IsUnambiguous := by
  rw [isUnambiguous_iff]
  simp [var, ofShape, children, Shape.children, Shape.IsUnambiguous]

theorem isUnambiguous_pow : (a.pow b).IsUnambiguous ↔ a.FixesShared b ∧ a.IsUnambiguous ∧ b.IsUnambiguous := by
  rw [isUnambiguous_iff]
  simp [pow, ofShape, children, Shape.children, Shape.IsUnambiguous]

theorem isUnambiguous_call {as : List Expr} : (call n as).IsUnambiguous ↔
    (AreUnambiguous as ∧ (together as).FixesShared (call n [])) ∧ ∀ a ∈ as, a.IsUnambiguous :=
  isUnambiguous_iff

theorem isUnambiguous_of_corr {b c : Shape Expr} (h : Shape.Corr Eq Eq Rearranges b c) (hb : b.IsUnambiguous) :
    c.IsUnambiguous := by
  have htogether : ∀ {as bs : List Expr}, Corr Rearranges as bs → (together as).Rearranges (together bs) :=
    fun h => alikeBy_together (R := fun _ => Eq).mpr h
  cases b <;> cases c <;> simp only [Shape.Corr] at h <;> simp only [Shape.IsUnambiguous] at hb ⊢
  case power.power => exact hb.rearranged h.1 h.2
  case modulo.modulo => exact hb.rearranged h.1 h.2
  case call.call m as n bs =>
    obtain ⟨rfl, hcorr⟩ := h
    exact ⟨hb.1.rearranged hcorr, hb.2.rearranged (htogether hcorr) (.refl _)⟩
  case sum.sum ts us =>
    obtain ⟨hterms, hfactors⟩ := hb
    refine ⟨hterms.rearranged (h.map fun t u htu => alikeBy_sum_singleton (R := fun _ => Eq).mpr htu), fun u hu => ?_⟩
    obtain ⟨t, ht, hut⟩ := h.symm.exists_related hu
    obtain ⟨hnum, hden, hshared⟩ := hfactors t ht
    exact ⟨hnum.rearranged hut.1, hden.rearranged hut.2, hshared.rearranged (htogether hut.1) (htogether hut.2)⟩

/-- **Order does not make a tree ambiguous.** -/
theorem Rearranges.isUnambiguous (h : a.Rearranges b) (ha : a.IsUnambiguous) : b.IsUnambiguous := by
  induction a using Expr.induction generalizing b with
  | h a ih =>
    obtain ⟨hshape, hchildren⟩ := isUnambiguous_iff.mp ha
    refine isUnambiguous_iff.mpr ⟨isUnambiguous_of_corr (Alike.corr h) hshape, fun d hd => ?_⟩
    obtain ⟨c, hc, hcd⟩ := (Alike.children h).symm.exists_related hd
    exact ih c hc hcd (hchildren c hc)

end Expr

end Isolate
