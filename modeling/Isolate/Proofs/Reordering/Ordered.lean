import Isolate.Proofs.Matching.ReadOnce
import Isolate.Proofs.Reordering.Gathered
import Isolate.Proofs.Settling.Canonical

/-!
# Trees in another order

Trees that differ in the order of terms and of factors (`Expr.Reorders`) gather to the same (`Expr.Reorders.gathered`).
Gathering loses no more than the order and the place of each minus (`Expr.reorders_of_gathered`). That place is known in
canonical equations in which each minus in a product stands at a number (`Equation.reorders_of_isCanonical`).

* `Equation.isLike_of_reorders`: equations that differ in order are like each other, unless a part is ambiguous.
-/

namespace Isolate

/-- Two shapes of one form, with the same names, related operands, and terms and factors related in some order. -/
def Shape.Reorders (R : α → β → Prop) : Shape α → Shape β → Prop
  | number v, number w => v = w
  | var m, var n => m = n
  | power a b, power c d => R a c ∧ R b d
  | modulo a b, modulo c d => R a c ∧ R b d
  | factorial a, factorial c => R a c
  | call m as, call n bs => m = n ∧ List.Forall₂ R as bs
  | sum ts, sum us => Isolate.Corr (Ratio.Corr R) ts us
  | _, _ => False

namespace Shape

/-- The terms of a sum. -/
def terms : Shape α → List (Ratio α)
  | sum ts => ts
  | _ => []

variable {R : α → β → Prop} {b : Shape α} {c : Shape β}

theorem reorders_map_left {R : β → γ → Prop} {f : α → β} {b : Shape α} {c : Shape γ} :
    (b.map f).Reorders R c ↔ b.Reorders (fun a d => R (f a) d) c := by
  cases b <;> cases c <;> simp [map, Reorders, Isolate.Corr.map_left, Ratio.Corr, Ratio.map]
  rfl

/-- Nodes that are no sums are the same by a key that related operands have in common. -/
theorem Reorders.map_eq {f : α → γ} {g : β → γ} (h : b.Reorders R c) (hb : ∀ ts, b ≠ .sum ts)
    (hR : ∀ x ∈ b.children, ∀ y, R x y → f x = g y) : b.map f = c.map g := by
  unfold children at hR
  cases b <;> cases c <;> simp only [Reorders] at h
  case number.number => rw [h]; rfl
  case var.var => rw [h]; rfl
  case power.power => rw [map, hR _ (by simp) _ h.1, hR _ (by simp) _ h.2]; rfl
  case modulo.modulo => rw [map, hR _ (by simp) _ h.1, hR _ (by simp) _ h.2]; rfl
  case factorial.factorial => rw [map, hR _ (by simp) _ h]; rfl
  case call.call m as n bs =>
    have hargs : as.map f = bs.map g := by
      rw [← List.forall₂_eq_eq_eq, List.forall₂_map_left_iff, List.forall₂_map_right_iff]
      exact forall₂_imp_of_mem hR h.2
    rw [map, h.1, hargs]
    rfl
  case sum.sum ts us => exact absurd rfl (hb ts)

/-- The operands of nodes that are no sums are related if a key that they have in common relates them. -/
theorem reorders_of_map_eq {f : α → γ} {g : β → γ} (h : b.map f = c.map g) (hb : ∀ ts, b ≠ .sum ts)
    (hR : ∀ x ∈ b.children, ∀ y ∈ c.children, f x = g y → R x y) : b.Reorders R c := by
  unfold children at hR
  cases b <;> cases c <;> simp only [map, reduceCtorEq] at h
  case number.number => exact number.inj h
  case var.var => exact var.inj h
  case power.power =>
    obtain ⟨h1, h2⟩ := power.inj h
    exact ⟨hR _ (by simp) _ (by simp) h1, hR _ (by simp) _ (by simp) h2⟩
  case modulo.modulo =>
    obtain ⟨h1, h2⟩ := modulo.inj h
    exact ⟨hR _ (by simp) _ (by simp) h1, hR _ (by simp) _ (by simp) h2⟩
  case factorial.factorial => exact hR _ (by simp) _ (by simp) (factorial.inj h)
  case call.call m as n bs =>
    obtain ⟨hn, hargs⟩ := call.inj h
    rw [← List.forall₂_eq_eq_eq, List.forall₂_map_left_iff, List.forall₂_map_right_iff] at hargs
    exact ⟨hn, (forall₂_and_mem hargs).imp fun x y ⟨hxy, hx, hy⟩ => hR x hx y hy hxy⟩
  case sum.sum ts us => exact absurd rfl (hb ts)

theorem Reorders.corr (h : b.Reorders R c) : Shape.Corr Eq Eq R b c := by
  cases b <;> cases c <;> simp only [Reorders] at h
  case call.call => exact ⟨h.1, _, h.2, .refl _⟩
  all_goals exact h

theorem Reorders.not_sum (h : b.Reorders R c) (hb : ∀ ts, b ≠ .sum ts) : ∀ us, c ≠ .sum us := by
  rintro us rfl
  cases b with
  | sum ts => exact hb ts rfl
  | _ => exact h.elim

/-- What differs from a sum in order is a sum. -/
theorem Reorders.sum {ts : List (Ratio α)} (h : (Shape.sum ts).Reorders R c) :
    ∃ us, c = .sum us ∧ Isolate.Corr (Ratio.Corr R) ts us := by
  cases c with
  | sum us => exact ⟨us, rfl, h⟩
  | _ => exact h.elim

end Shape

/-! ## Signs in products -/

namespace Ratio

variable {t u : Ratio Expr}

/-- No factor bears a minus, unless it is the only one. -/
def IsPlain (t : Ratio Expr) : Prop := t.factors.length ≠ 1 → ∀ e ∈ t.factors, e.sign = .pos

instance : DecidablePred IsPlain := fun _ => inferInstanceAs (Decidable (_ → _))

/-- No factor but a number bears a minus, unless it is the only one. -/
def HasMinusAtNumber (t : Ratio Expr) : Prop :=
  t.factors.length ≠ 1 → ∀ e ∈ t.factors, e.number? = none → e.sign = .pos

instance : DecidablePred HasMinusAtNumber := fun _ => inferInstanceAs (Decidable (_ → _))

/-- Where factors are akin, they have the same sign, if no product of several factors bears a minus. -/
theorem Akin.corr_sign_of_isPlain (h : t.Akin u) (ht : t.IsPlain) (hu : u.IsPlain) :
    t.Corr (fun x y => x.Akin y ∧ x.sign = y.sign) u := by
  have hlen := h.2.factors.length_eq
  refine corr_imp_of_mem h.2 fun x hx y hy hxy => ⟨hxy, ?_⟩
  by_cases hone : t.factors.length = 1
  · have hsign := h.sign_eq fun hv => hv.1 hone
    obtain ⟨a, ha⟩ := List.length_eq_one_iff.mp hone
    obtain ⟨b, hb⟩ := List.length_eq_one_iff.mp (hlen ▸ hone)
    rw [ha, List.mem_singleton] at hx
    rw [hb, List.mem_singleton] at hy
    rwa [sign_eq_prod, sign_eq_prod, ha, hb, List.map_singleton, List.map_singleton, List.prod_singleton,
      List.prod_singleton, ← hx, ← hy] at hsign
  · rw [ht hone x hx, hu (hlen ▸ hone) y hy]

/-- The sign of a reduced product is that of its first factor. -/
theorem IsReduced.sign_eq_head {x : Expr} {xs ds : List Expr} (h : (⟨x :: xs, ds⟩ : Ratio Expr).IsReduced) :
    (⟨x :: xs, ds⟩ : Ratio Expr).sign = x.sign := by
  have hrest : ((xs ++ ds).map Expr.sign).prod = 1 := List.prod_eq_one fun s hs => by
    obtain ⟨e, he, rfl⟩ := List.mem_map.mp hs
    exact h.signs e he
  rw [sign_eq_prod, factors, List.cons_append, List.map_cons, List.prod_cons, hrest, mul_one]

theorem IsReduced.not_vanishes (h : t.IsReduced) : ¬t.Vanishes := by
  rintro ⟨-, e, he, h0⟩
  obtain ⟨n, hn, hpos, -⟩ := h.number e he 0 h0
  have hzero : n = 0 := by exact_mod_cast hn.symm
  omega

/-- A minus in front of a reduced product that has a number stands at the number, so it stands at the number in any
product that is akin. -/
theorem Akin.corr_sign_of_isReduced (h : t.Akin u) (ht : t.IsReduced) (hu : u.IsReduced) (hminus : t.HasMinusAtNumber) :
    t.Corr (fun x y => x.Akin y ∧ x.sign = y.sign) u := by
  have hsign := h.sign_eq ht.not_vanishes
  have hlen := h.2.factors.length_eq
  obtain ⟨_ | ⟨x₀, xs⟩, ds⟩ := t
  · exact absurd rfl ht.numerator_ne_nil
  obtain ⟨_ | ⟨y₀, ys⟩, es⟩ := u
  · exact absurd rfl hu.numerator_ne_nil
  rw [ht.sign_eq_head, hu.sign_eq_head] at hsign
  have hmany : ∀ {e e₀ : Expr} {rest fs : List Expr}, e ∈ rest → (⟨e₀ :: rest, fs⟩ : Ratio Expr).factors.length ≠ 1 := by
    intro e e₀ rest fs he
    have hpos := List.length_pos_of_mem he
    simp only [factors, List.length_append, List.length_cons]
    omega
  refine ⟨h.2.1.imp_of_mem fun x hx y hy hxy => ⟨hxy, ?_⟩, h.2.2.imp_of_mem fun x hx y hy hxy => ⟨hxy, ?_⟩⟩
  · rcases List.mem_cons.mp hx with rfl | hx <;> rcases List.mem_cons.mp hy with rfl | hy
    · exact hsign
    · have hnone : x.number? = none := hxy.number?.trans (hu.numbers y hy)
      rw [hminus (hlen ▸ hmany hy) x List.mem_cons_self hnone, hu.signs y (List.mem_append_left _ hy)]
    · -- the first factor is no number either, as there would be none like it on the other side
      have hnone : y.number? = none := hxy.number?.symm.trans (ht.numbers x hx)
      have hnone' : x₀.number? = none := by
        obtain ⟨z, hz, hxz⟩ := h.2.1.exists_related List.mem_cons_self
        rcases List.mem_cons.mp hz with rfl | hz
        · exact hxz.number?.trans hnone
        · exact hxz.number?.trans (hu.numbers z hz)
      rw [ht.signs x (List.mem_append_left _ hx), ← hsign, hminus (hmany hx) x₀ List.mem_cons_self hnone']
    · rw [ht.signs x (List.mem_append_left _ hx), hu.signs y (List.mem_append_left _ hy)]
  · rw [ht.signs x (List.mem_append_right _ hx), hu.signs y (List.mem_append_right _ hy)]

end Ratio

namespace Expr

variable {a b : Expr}

/-- The trees differ only in the order of terms within sums and of factors within numerators and denominators, at any
depth. -/
def Reorders (a b : Expr) : Prop :=
  a.fold (fun e p b => e.sign = b.sign ∧ p.Reorders (fun p b => p b) b.shape) b

theorem reorders_iff : a.Reorders b ↔ a.sign = b.sign ∧ a.shape.Reorders Reorders b.shape := by
  rw [Reorders, fold_eq]
  exact and_congr_right fun _ => Shape.reorders_map_left

/-- **Trees that differ in order gather to the same.** -/
theorem Reorders.gathered (h : a.Reorders b) : a.gathered = b.gathered := by
  induction a using Expr.induction generalizing b with
  | h a ih =>
    obtain ⟨hs, hshape⟩ := reorders_iff.mp h
    refine gathered_eq_iff.mpr ⟨hs, ?_⟩
    by_cases hsum : ∃ ts, a.shape = .sum ts
    · obtain ⟨s, p, c⟩ := a
      obtain ⟨s', r, c'⟩ := b
      obtain ⟨ts, rfl⟩ := hsum
      obtain ⟨us, rfl, hc⟩ := Shape.Reorders.sum hshape
      refine akin_sum.mpr (hc.imp fun t ht u htu => ?_)
      have hfactors : t.Corr (fun x y => x.gathered = y.gathered) u := htu.imp fun x hx y hxy =>
        ih x (List.mem_flatMap.mpr ⟨t, ht, hx⟩) hxy
      refine Ratio.akin_of_sign (hfactors.imp fun x _ y hxy => (gathered_eq_iff.mp hxy).2) fun _ => ?_
      exact Ratio.sign_eq_of_corr (hfactors.imp fun x _ y hxy => (gathered_eq_iff.mp hxy).1)
    · exact akin_of_map_eq (hshape.map_eq (not_exists.mp hsum) fun x hx y => ih x hx)

/-- **Gathering loses no more than the order, where it does not lose the place of a minus.** -/
theorem reorders_of_gathered {P Q : Ratio Expr → Prop} (hPQ : ∀ {t u}, P t → Q u → t.Akin u →
    t.Corr (fun x y => x.Akin y ∧ x.sign = y.sign) u) (h : a.gathered = b.gathered)
    (ha : a.Everywhere fun e => ∀ t ∈ e.shape.terms, P t) (hb : b.Everywhere fun e => ∀ t ∈ e.shape.terms, Q t) :
    a.Reorders b := by
  induction a using Expr.induction generalizing b with
  | h a ih =>
    obtain ⟨hs, hakin⟩ := gathered_eq_iff.mp h
    obtain ⟨hna, hca⟩ := everywhere_iff.mp ha
    obtain ⟨hnb, hcb⟩ := everywhere_iff.mp hb
    refine reorders_iff.mpr ⟨hs, ?_⟩
    by_cases hsum : ∃ ts, a.shape = .sum ts
    · obtain ⟨s, p, c⟩ := a
      obtain ⟨s', r, c'⟩ := b
      obtain ⟨ts, rfl⟩ := hsum
      obtain ⟨us, rfl, hc⟩ := hakin.sum rfl
      refine hc.imp_of_mem fun t ht u hu htu => ?_
      refine Ratio.corr_imp_of_mem (hPQ (hna t ht) (hnb u hu) htu) fun x hx y hy hxy => ?_
      have hxc := List.mem_flatMap.mpr ⟨t, ht, hx⟩
      have hyc := List.mem_flatMap.mpr ⟨u, hu, hy⟩
      exact ih x hxc (gathered_eq_iff.mpr hxy.symm) (hca x hxc) (hcb y hyc)
    · have hnot := not_exists.mp hsum
      exact Shape.reorders_of_map_eq (hakin.map_eq hnot) hnot fun x hx y hy hxy => ih x hx hxy (hca x hx) (hcb y hy)

theorem Reorders.rearranges (h : a.Reorders b) : a.Rearranges b := by
  induction a using Expr.induction generalizing b with
  | h a ih =>
    obtain ⟨hs, hshape⟩ := reorders_iff.mp h
    exact alike_iff.mpr ⟨hs, hshape.corr.imp (fun _ _ => id) (fun _ _ => id) fun x hx y => ih x hx⟩

end Expr

namespace Equation

variable {q r : Equation}

/-- The sides differ only in the order of terms within sums and of factors within numerators and denominators. -/
def Reorders (q r : Equation) : Prop := List.Forall₂ Expr.Reorders q.sides r.sides

/-- The equation with all sums and products of its sides in order, and one sign in front of each product. -/
def gathered (q : Equation) : Equation := ⟨q.sides.map Expr.gathered⟩

theorem gathered_eq_iff : q.gathered = r.gathered ↔ List.Forall₂ (fun a b => a.gathered = b.gathered) q.sides r.sides := by
  rw [gathered, gathered, Equation.mk.injEq, ← List.forall₂_eq_eq_eq, List.forall₂_map_left_iff,
    List.forall₂_map_right_iff]

/-- No product of several factors bears a minus. -/
def IsPlain (q : Equation) : Prop := ∀ e ∈ q.sides, e.Everywhere fun a => ∀ t ∈ a.shape.terms, t.IsPlain

instance : DecidablePred IsPlain := fun _ => inferInstanceAs (Decidable (∀ _ ∈ _, _))

/-- In a product of several factors, only a number bears a minus. -/
def HasMinusAtNumbers (q : Equation) : Prop :=
  ∀ e ∈ q.sides, e.Everywhere fun a => ∀ t ∈ a.shape.terms, t.HasMinusAtNumber

instance : DecidablePred HasMinusAtNumbers := fun _ => inferInstanceAs (Decidable (∀ _ ∈ _, _))

/-- Equations that gather to the same differ in order only, if no product of several factors bears a minus. -/
theorem reorders_of_isPlain (h : q.gathered = r.gathered) (hq : q.IsPlain) (hr : r.IsPlain) : q.Reorders r :=
  (forall₂_and_mem (gathered_eq_iff.mp h)).imp fun a b ⟨hab, ha, hb⟩ =>
    Expr.reorders_of_gathered (fun ht hu htu => htu.corr_sign_of_isPlain ht hu) hab (hq a ha) (hr b hb)

/-- Canonical equations that gather to the same differ in order only, if each minus in a product stands at a number. -/
theorem reorders_of_isCanonical (h : q.gathered = r.gathered) (hq : ∀ e ∈ q.sides, e.Everywhere Expr.IsCanonical)
    (hr : ∀ e ∈ r.sides, e.Everywhere Expr.IsCanonical) (hminus : q.HasMinusAtNumbers) : q.Reorders r := by
  have hreduced : ∀ e : Expr, e.IsCanonical → ∀ t ∈ e.shape.terms, t.IsReduced := by
    rintro ⟨s, b, c⟩ he t ht
    cases b with
    | sum ts => exact (he ts rfl).reduced t ht
    | _ => cases ht
  refine (forall₂_and_mem (gathered_eq_iff.mp h)).imp fun a b ⟨hab, ha, hb⟩ => ?_
  have hterms : a.Everywhere fun e => ∀ t ∈ e.shape.terms, t.IsReduced ∧ t.HasMinusAtNumber :=
    ((hq a ha).and (hminus a ha)).imp fun e he t ht => ⟨hreduced e he.1 t ht, he.2 t ht⟩
  refine Expr.reorders_of_gathered ?_ hab hterms ((hr b hb).imp hreduced)
  exact fun ht hu htu => htu.corr_sign_of_isReduced ht.1 hu ht.2

/-- **Equations that differ in order are like each other**, if the parts of the first one fix the names that they share. -/
theorem isLike_of_reorders (h : q.Reorders r) (hq : (Comparable.equation q).IsUnambiguous) :
    isLike .bijective q r = true := by
  have hinjective : Renaming.InjectiveOn (fun _ => id) (Comparable.equation q).Mentions := fun _ _ _ _ _ => id
  have hlike : List.Forall₂ (Expr.LikeBy fun _ => id) q.sides r.sides := h.imp fun _ _ => Expr.Reorders.rearranges
  obtain ⟨hrun, hcheck⟩ := Comparable.run_sides hq.1 hq.2 (Names.fits_empty hinjective)
    (fun a ha k n hn => ⟨a, ha, hn⟩) hlike
  exact isLike_iff.mpr ⟨h.length_eq, hrun, hcheck⟩

end Equation

end Isolate
