import Isolate.Matching.Match
import Isolate.Proofs.Settling.Flat
import Mathlib.Data.List.Forall2

/-!
# Trees that are alike

Two lists *correspond* if the items of the second can be put in an order in which they correspond one by one (`Corr`).
Two trees are *alike* if they have the same signs and forms throughout, names that are related, and terms, factors and
arguments that correspond (`Expr.Alike`).

* `Expr.alike_arrange`: an arranged tree is alike the tree.
* `Expr.Alike.weight_eq` and `Expr.Alike.everywhere_isFlat`: trees that are alike have one weight, and if one is flat, so
  is the other.
-/

namespace Isolate

/-! ## Corresponding lists -/

theorem forall₂_imp_of_mem {R S : α → β → Prop} {as : List α} {bs : List β} (hRS : ∀ a ∈ as, ∀ b, R a b → S a b)
    (h : List.Forall₂ R as bs) : List.Forall₂ S as bs := by
  induction h with
  | nil => exact .nil
  | cons hab _ ih => exact .cons (hRS _ List.mem_cons_self _ hab) (ih fun a ha => hRS a (List.mem_cons_of_mem _ ha))

theorem forall₂_exists_of_mem {R : α → β → Prop} {as : List α} {bs : List β} (h : List.Forall₂ R as bs) {a : α}
    (ha : a ∈ as) : ∃ b ∈ bs, R a b := by
  induction h with
  | nil => cases ha
  | cons hab _ ih =>
    rcases List.mem_cons.mp ha with rfl | ha
    · exact ⟨_, List.mem_cons_self, hab⟩
    · obtain ⟨b, hb, hab⟩ := ih ha
      exact ⟨b, List.mem_cons_of_mem _ hb, hab⟩

/-- The items of the second list correspond to those of the first, in some order. -/
def Corr (R : α → β → Prop) (as : List α) (bs : List β) : Prop := ∃ cs, List.Forall₂ R as cs ∧ cs.Perm bs

namespace Corr

variable {R : α → β → Prop} {as : List α} {bs : List β}

theorem imp {S : α → β → Prop} (hRS : ∀ a ∈ as, ∀ b, R a b → S a b) (h : Corr R as bs) : Corr S as bs := by
  obtain ⟨cs, hf, hp⟩ := h
  exact ⟨cs, forall₂_imp_of_mem hRS hf, hp⟩

theorem map_left {f : γ → α} {cs : List γ} : Corr R (cs.map f) bs ↔ Corr (fun c b => R (f c) b) cs bs := by
  simp only [Corr, List.forall₂_map_left_iff]

theorem length_eq (h : Corr R as bs) : as.length = bs.length := by
  obtain ⟨cs, hf, hp⟩ := h
  exact hf.length_eq.trans hp.length_eq

/-- An item of the first list is related to one of the second. -/
theorem exists_related (h : Corr R as bs) {a : α} (ha : a ∈ as) : ∃ b ∈ bs, R a b := by
  obtain ⟨cs, hf, hp⟩ := h
  obtain ⟨b, hb, hab⟩ := forall₂_exists_of_mem hf ha
  exact ⟨b, hp.mem_iff.mp hb, hab⟩

theorem append {as' : List α} {bs' : List β} (h : Corr R as bs) (h' : Corr R as' bs') :
    Corr R (as ++ as') (bs ++ bs') := by
  obtain ⟨cs, hf, hp⟩ := h
  obtain ⟨cs', hf', hp'⟩ := h'
  exact ⟨cs ++ cs', List.rel_append hf hf', hp.append hp'⟩

theorem flatMap {R' : γ → δ → Prop} {f : α → List γ} {g : β → List δ}
    (hR : ∀ a ∈ as, ∀ b, R a b → Corr R' (f a) (g b)) (h : Corr R as bs) : Corr R' (as.flatMap f) (bs.flatMap g) := by
  obtain ⟨cs, hf, hp⟩ := h
  have hcs : Corr R' (as.flatMap f) (cs.flatMap g) := by
    clear hp
    induction hf with
    | nil => exact ⟨[], .nil, .refl _⟩
    | cons hab _ ih =>
      exact (hR _ List.mem_cons_self _ hab).append (ih fun a ha => hR a (List.mem_cons_of_mem _ ha))
  obtain ⟨ds, hf', hp'⟩ := hcs
  exact ⟨ds, hf', hp'.trans (hp.flatMap_right _)⟩

/-- What corresponding items have in common, all items have in common. -/
theorem forall_iff {P : α → Prop} {Q : β → Prop} (hR : ∀ a ∈ as, ∀ b, R a b → (P a ↔ Q b)) (h : Corr R as bs) :
    (∀ a ∈ as, P a) ↔ ∀ b ∈ bs, Q b := by
  obtain ⟨cs, hf, hp⟩ := h
  have hcs : (∀ a ∈ as, P a) ↔ ∀ c ∈ cs, Q c := by
    clear hp
    induction hf with
    | nil => simp
    | cons hab _ ih =>
      rw [List.forall_mem_cons, List.forall_mem_cons, hR _ List.mem_cons_self _ hab,
        ih fun a ha => hR a (List.mem_cons_of_mem _ ha)]
  rw [hcs]
  exact forall_congr' fun c => by rw [hp.mem_iff]

theorem sum_eq {f : α → Nat} {g : β → Nat} (hR : ∀ a ∈ as, ∀ b, R a b → f a = g b) (h : Corr R as bs) :
    (as.map f).sum = (bs.map g).sum := by
  obtain ⟨cs, hf, hp⟩ := h
  rw [← (hp.map g).sum_eq]
  clear hp
  induction hf with
  | nil => rfl
  | cons hab _ ih =>
    rw [List.map_cons, List.sum_cons, List.map_cons, List.sum_cons, hR _ List.mem_cons_self _ hab,
      ih fun a ha => hR a (List.mem_cons_of_mem _ ha)]

theorem of_perm {f : α → β} (hR : ∀ a ∈ as, R a (f a)) (hp : (as.map f).Perm bs) : Corr R as bs := by
  refine ⟨as.map f, ?_, hp⟩
  rw [List.forall₂_map_right_iff, List.forall₂_same]
  exact hR

end Corr

/-! ## Corresponding shapes -/

/-- Numerators correspond to each other, and so do denominators. -/
def Ratio.Corr (R : α → β → Prop) (r : Ratio α) (t : Ratio β) : Prop :=
  Isolate.Corr R r.numerator t.numerator ∧ Isolate.Corr R r.denominator t.denominator

theorem Ratio.Corr.factors {R : α → β → Prop} {r : Ratio α} {t : Ratio β} (h : r.Corr R t) :
    Isolate.Corr R r.factors t.factors := h.1.append h.2

/-- Two shapes of one form, with related names and corresponding operands. -/
def Shape.Corr (V F : String → String → Prop) (R : α → β → Prop) : Shape α → Shape β → Prop
  | number v, number w => v = w
  | var m, var n => V m n
  | power a b, power c d => R a c ∧ R b d
  | modulo a b, modulo c d => R a c ∧ R b d
  | factorial a, factorial c => R a c
  | call m as, call n bs => F m n ∧ Isolate.Corr R as bs
  | sum ts, sum us => Isolate.Corr (Ratio.Corr R) ts us
  | _, _ => False

namespace Shape

variable {V F : String → String → Prop} {R : α → β → Prop} {b : Shape α} {c : Shape β}

theorem corr_map_left {f : γ → α} {b : Shape γ} : Corr V F R (b.map f) c ↔ Corr V F (fun a d => R (f a) d) b c := by
  cases b <;> cases c <;> simp [map, Corr, Isolate.Corr.map_left, Ratio.Corr, Ratio.map]
  rfl

theorem Corr.children (h : Corr V F R b c) : Isolate.Corr R b.children c.children := by
  have hnil : Isolate.Corr R ([] : List α) [] := ⟨[], .nil, .refl _⟩
  have hcons : ∀ {a d as ds}, R a d → Isolate.Corr R as ds → Isolate.Corr R (a :: as) (d :: ds) :=
    fun had ⟨es, hf, hp⟩ => ⟨_ :: es, .cons had hf, hp.cons _⟩
  cases b <;> cases c <;> simp only [Corr] at h
  · exact hnil
  · exact hnil
  · exact hcons h.1 (hcons h.2 hnil)
  · exact hcons h.1 (hcons h.2 hnil)
  · exact hcons h hnil
  · exact h.2
  · exact Isolate.Corr.flatMap (fun _ _ _ ht => ht.factors) h

end Shape

/-! ## Trees that are alike -/

namespace Expr

variable {V F : String → String → Prop}

/-- The same tree up to the order of terms, factors and arguments, with names that are related. -/
def Alike (V F : String → String → Prop) (a b : Expr) : Prop :=
  a.fold (fun e p b => e.sign = b.sign ∧ Shape.Corr V F (fun p b => p b) p b.shape) b

theorem alike_iff {a b : Expr} : a.Alike V F b ↔ a.sign = b.sign ∧ Shape.Corr V F (Alike V F) a.shape b.shape := by
  rw [Alike, fold_eq]
  exact and_congr_right fun _ => Shape.corr_map_left

theorem Alike.corr {a b : Expr} (h : a.Alike V F b) : Shape.Corr V F (Alike V F) a.shape b.shape := (alike_iff.mp h).2

theorem Alike.children {a b : Expr} (h : a.Alike V F b) : Corr (Alike V F) a.children b.children := h.corr.children

end Expr

/-! ## Arranging -/

theorem sortAlong_perm {le : α → α → Bool} {keys : List α} {items : List β} (h : keys.length = items.length) :
    (sortAlong le keys items).Perm items := by
  have hsort := (List.mergeSort_perm (keys.zip items) fun p q => le p.1 q.1).map (·.2)
  rwa [List.map_snd_zip h.ge] at hsort

theorem Ratio.corr_arrange {R : Expr → Expr → Prop} {f : Expr → Expr} {t : Ratio Expr} (h : ∀ a ∈ t.factors, R a (f a)) :
    t.Corr R (t.arrange (t.map f)) :=
  ⟨.of_perm (fun a ha => h a (List.mem_append_left _ ha)) (sortAlong_perm (by simp)).symm,
    .of_perm (fun a ha => h a (List.mem_append_right _ ha)) (sortAlong_perm (by simp)).symm⟩

theorem zipWith_arrange (f : Expr → Expr) (ts : List (Ratio Expr)) :
    List.zipWith Ratio.arrange ts (ts.map (Ratio.map f)) = ts.map fun t => t.arrange (t.map f) := by
  induction ts with
  | nil => rfl
  | cons t ts ih => rw [List.map_cons, List.zipWith_cons_cons, ih, List.map_cons]

namespace Expr

variable {V F : String → String → Prop}

/-- **A tree is alike the arranged tree.** -/
theorem alike_arrange (hV : ∀ n, V n n) (hF : ∀ n, F n n) (e : Expr) : e.Alike V F e.arrange := by
  induction e using Expr.induction with
  | h e ih =>
    rw [arrange_eq]
    refine alike_iff.mpr ⟨rfl, ?_⟩
    obtain ⟨s, b, c⟩ := e
    cases b with
    | number v => rfl
    | var n => exact hV n
    | power a b => exact ⟨ih a (by simp [children, Shape.children]), ih b (by simp [children, Shape.children])⟩
    | modulo a b => exact ⟨ih a (by simp [children, Shape.children]), ih b (by simp [children, Shape.children])⟩
    | factorial a => exact ih a (by simp [children, Shape.children])
    | call n as => exact ⟨hF n, .of_perm ih (sortAlong_perm (by simp)).symm⟩
    | sum ts =>
      simp only [Shape.map, Shape.arrange, zipWith_arrange]
      refine .of_perm (fun t ht => ?_) (sortAlong_perm (by simp)).symm
      exact Ratio.corr_arrange fun a ha => ih a (List.mem_flatMap.mpr ⟨t, ht, ha⟩)

/-! ## What trees that are alike have in common -/

theorem base_of_corr {R : α → β → Prop} {b : Shape α} {c : Shape β} (h : Shape.Corr V F R b c) : b.base = c.base := by
  cases b <;> cases c <;> simp only [Shape.Corr] at h
  · rw [h]
    rfl
  · rfl
  · rfl
  · rfl
  · rfl
  · rfl
  · refine congrArg (3 + ·) (h.sum_eq fun t _ u htu => ?_)
    have := htu.1.length_eq
    simp only [Ratio.base, List.isEmpty_iff_length_eq_zero, this]

/-- Trees that are alike have one weight. -/
theorem Alike.weight_eq {a b : Expr} (h : a.Alike V F b) : a.weight = b.weight := by
  induction a using Expr.induction generalizing b with
  | h a ih =>
    rw [Expr.weight_eq, Expr.weight_eq, base_of_corr h.corr, load, h.children.sum_eq fun c hc d hcd => ih c hc hcd]
    rfl

theorem Alike.termCount? {a b : Expr} (h : a.Alike V F b) : a.termCount? = b.termCount? := by
  obtain ⟨s, x, c⟩ := a
  obtain ⟨t, y, d⟩ := b
  have hc := h.corr
  cases x <;> cases y <;> simp only [Shape.Corr] at hc
  all_goals simp only [Expr.termCount?]
  exact congrArg some hc.length_eq

/-- Whether a term is flat is a matter of lengths and of the factors one by one. -/
theorem isFlat_ratio_iff {t : Ratio Expr} : t.IsFlat ↔ (∀ e ∈ t.factors, e.termCount? ≠ some 1) ∧
    (t.numerator.length = 1 → t.denominator.length = 0 → ∀ e ∈ t.factors, e.termCount? = none) := by
  refine and_congr_right fun _ => ⟨fun h hn hd => ?_, fun h e he => ?_⟩
  · obtain ⟨ns, ds⟩ := t
    obtain ⟨e, rfl⟩ := List.length_eq_one_iff.mp hn
    obtain rfl := List.length_eq_zero_iff.mp hd
    intro a ha
    rw [List.mem_singleton.mp ha]
    exact h e rfl
  · subst he
    exact h rfl rfl e List.mem_cons_self

/-- Whether the terms of a node are flat and more than one factor is a matter of lengths and of the terms one by one. -/
theorem isFlat_sum_iff {ts : List (Ratio Expr)} : ((∀ t ∈ ts, t.IsFlat) ∧ ∀ a, ts ≠ [⟨[a], []⟩]) ↔
    (∀ t ∈ ts, t.IsFlat) ∧ (ts.length = 1 → ∀ t ∈ ts, ¬(t.numerator.length = 1 ∧ t.denominator.length = 0)) := by
  refine and_congr_right fun _ => ⟨fun h hlen => ?_, fun h a ha => ?_⟩
  · obtain ⟨t, rfl⟩ := List.length_eq_one_iff.mp hlen
    intro u hu
    rw [List.mem_singleton.mp hu]
    rintro ⟨hn, hd⟩
    obtain ⟨ns, ds⟩ := t
    obtain ⟨a, rfl⟩ := List.length_eq_one_iff.mp hn
    obtain rfl := List.length_eq_zero_iff.mp hd
    exact h a rfl
  · subst ha
    exact h rfl _ List.mem_cons_self ⟨rfl, rfl⟩

theorem isFlat_of_corr {t u : Ratio Expr} (h : t.Corr (Alike V F) u) : t.IsFlat ↔ u.IsFlat := by
  rw [isFlat_ratio_iff, isFlat_ratio_iff, h.1.length_eq, h.2.length_eq]
  have h1 := h.factors.forall_iff (P := fun e => e.termCount? ≠ some 1) (Q := fun e => e.termCount? ≠ some 1)
    fun a _ b hab => by rw [hab.termCount?]
  have h0 := h.factors.forall_iff (P := fun e => e.termCount? = none) (Q := fun e => e.termCount? = none)
    fun a _ b hab => by rw [hab.termCount?]
  rw [h1, h0]

theorem Alike.isFlat {a b : Expr} (h : a.Alike V F b) : a.IsFlat ↔ b.IsFlat := by
  obtain ⟨s, x, c⟩ := a
  obtain ⟨t, y, d⟩ := b
  have hc := h.corr
  cases x <;> cases y <;> simp only [Shape.Corr] at hc
  case sum.sum ts us =>
    have hterms := hc.forall_iff (P := Ratio.IsFlat) (Q := Ratio.IsFlat) fun t _ u htu => isFlat_of_corr htu
    have honly := hc.forall_iff (P := fun t => ¬(t.numerator.length = 1 ∧ t.denominator.length = 0))
      (Q := fun u => ¬(u.numerator.length = 1 ∧ u.denominator.length = 0))
      fun t _ u htu => by rw [htu.1.length_eq, htu.2.length_eq]
    simp only [IsFlat, Shape.sum.injEq, forall_eq', isFlat_sum_iff]
    rw [hterms, honly, hc.length_eq]
  all_goals simp [IsFlat]

/-- Of trees that are alike, both are flat or none. -/
theorem Alike.everywhere_isFlat {a b : Expr} (h : a.Alike V F b) : a.Everywhere IsFlat ↔ b.Everywhere IsFlat := by
  induction a using Expr.induction generalizing b with
  | h a ih =>
    rw [everywhere_iff, everywhere_iff, h.isFlat]
    exact and_congr_right fun _ => h.children.forall_iff fun c hc d hcd => ih c hc hcd

end Expr

end Isolate
