import Isolate.Proofs.Reordering.Flattened
import Isolate.Proofs.Settling.LowestTerms

/-!
# Reducing and order

Reducing a sum compares factors across the line, and terms with each other, in form. Where those that are akin are the
same in form (`Ratio.AreDiscerned`), what is cancelled and what is collected does not depend on the order: cancelling takes
from each kind of factor as many as stand on the other side (`coe_cancel_core`), and collecting adds up the coefficients of
each kind of terms (`Monomial.coefficient_addAll`).

* `Ratio.corr_collect`: akin sums are reduced to akin ones, and
* `Expr.Akin.reduceUp`: so are akin trees.
-/

namespace Isolate

theorem Expr.akin_of_bare {a b : Expr} (h : a.bare = b.bare) : a.Akin b := by
  rw [Akin, ← gathered_bare a, h, gathered_bare]

/-- **Cancelling takes from each kind of factors as many as stand on the other side.** -/
theorem coe_cancel_core [DecidableEq Expr] {ns ds : List Expr}
    (h : ∀ a ∈ ns, ∀ d ∈ ds, a.Akin d → a.bare = d.bare) :
    ((cancel ns ds).1.map Expr.core : Multiset Expr) =
        (ns.map Expr.core : Multiset Expr) - (ds.map Expr.core : Multiset Expr) ∧
      ((cancel ns ds).2.map Expr.core : Multiset Expr) =
        (ds.map Expr.core : Multiset Expr) - (ns.map Expr.core : Multiset Expr) :=
  coe_cancel (fun _ _ hab => Expr.akin_iff_core.mp (Expr.akin_of_bare hab)) fun a ha d hd hcore =>
    h a ha d hd (Expr.akin_iff_core.mpr hcore)

/-! ## Monomials -/

namespace Monomial

variable {m n : Monomial}

/-- The factors are akin, in some order. -/
def IsKindred (m n : Monomial) : Prop := m.rest.Corr Expr.Akin n.rest

/-- One coefficient, and factors that are akin in some order. -/
def Akin (m n : Monomial) : Prop := m.coefficient = n.coefficient ∧ m.IsKindred n

/-- Cancelling makes akin monomials of akin ones, if it tells their factors apart. -/
theorem Akin.reduce (h : m.Akin n) (hm : ∀ a ∈ m.numerator, ∀ d ∈ m.denominator, a.Akin d → a.bare = d.bare)
    (hn : ∀ a ∈ n.numerator, ∀ d ∈ n.denominator, a.Akin d → a.bare = d.bare) : m.reduce.Akin n.reduce := by
  classical
  have hnum := Multiset.coe_eq_coe.mpr (Expr.corr_akin_iff.mp h.2.1)
  have hden := Multiset.coe_eq_coe.mpr (Expr.corr_akin_iff.mp h.2.2)
  refine ⟨h.1, Expr.corr_akin_iff.mpr (Multiset.coe_eq_coe.mp ?_), Expr.corr_akin_iff.mpr (Multiset.coe_eq_coe.mp ?_)⟩
  · exact (coe_cancel_core hm).1.trans ((congrArg₂ (· - ·) hnum hden).trans (coe_cancel_core hn).1.symm)
  · exact (coe_cancel_core hm).2.trans ((congrArg₂ (· - ·) hden hnum).trans (coe_cancel_core hn).2.symm)

end Monomial

theorem product_filterMap_congr {as bs : List Expr} {f : Expr → Option Rat} (h : Corr Expr.Akin as bs)
    (hf : ∀ a b : Expr, a.Akin b → f a = f b) : product (as.filterMap f) = product (bs.filterMap f) := by
  have hperm := (h.perm_map fun a _ b hab => hf a b hab).filterMap id
  rw [List.filterMap_map, List.filterMap_map] at hperm
  rw [product_eq_prod, product_eq_prod]
  exact hperm.prod_eq

theorem Expr.Akin.divisor? {a b : Expr} (h : a.Akin b) : a.divisor? = b.divisor? := by
  rw [Expr.divisor?, h.number?, Expr.divisor?]

namespace Ratio

variable {t u : Ratio Expr}

theorem magnitude_of_vanishes (h : t.Vanishes) : t.magnitude = 0 := by
  obtain ⟨-, e, he, h0⟩ := h
  have hmem : (0 : Rat) ∈ t.numerator.filterMap Expr.number? := List.mem_filterMap.mpr ⟨e, he, h0⟩
  rw [magnitude_eq, product_eq_prod, List.prod_eq_zero hmem, zero_div]

/-- The monomials split off akin ratios are akin. -/
theorem Akin.split (h : t.Akin u) : t.split.Akin u.split := by
  have hmagnitude : t.magnitude = u.magnitude := by
    rw [magnitude_eq, magnitude_eq, product_filterMap_congr h.2.1 fun _ _ => Expr.Akin.number?,
      product_filterMap_congr h.2.2 fun _ _ => Expr.Akin.divisor?]
  have hrest : ∀ {as bs : List Expr} {p : Expr → Bool}, Isolate.Corr Expr.Akin as bs → (∀ a b, a.Akin b → p a = p b) →
      Isolate.Corr Expr.Akin ((as.filter p).map Expr.abs) ((bs.filter p).map Expr.abs) := fun has hp =>
    (has.filter fun a _ b => hp a b).map fun a b hab =>
      (Expr.akin_of_shape rfl : a.abs.Akin a).trans (hab.trans (Expr.akin_of_shape rfl))
  refine ⟨?_, hrest h.2.1 fun a b hab => by rw [hab.number?], hrest h.2.2 fun a b hab => by rw [hab.divisor?]⟩
  rw [Ratio.split, Ratio.split]
  by_cases hv : t.Vanishes
  · have hzero : ∀ s : Sign, s.apply 0 = 0 := fun s => (Sign.apply_eq_zero s 0).mpr rfl
    simp only [magnitude_of_vanishes hv, magnitude_of_vanishes ((vanishes_of_corr h.2).mp hv), hzero]
  · simp only [hmagnitude, h.sign_eq hv]

end Ratio

/-! ## Writing monomials -/

namespace Monomial

variable {m n : Monomial}

theorem corr_negateFirst (es : List Expr) : Corr Expr.Akin (negateFirst es) es := by
  cases es with
  | nil => exact Corr.nil_iff.mpr rfl
  | cons e es => exact Expr.corr_akin_cons rfl

/-- The sign of a monomial that is written with a minus, or without one. -/
theorem sign_signed (hm : m.IsUnsigned) : (⟨negateFirst m.above, m.below⟩ : Ratio Expr).sign = .neg ∧
    (⟨m.above, m.below⟩ : Ratio Expr).sign = .pos := by
  rw [Ratio.sign_eq, Ratio.sign_eq, signOf_negateFirst above_ne_nil (sign_above hm), signOf_eq_pos (sign_above hm),
    signOf_eq_pos (sign_below hm)]
  exact ⟨rfl, rfl⟩

/-- Akin monomials are written as akin ratios. -/
theorem Akin.toRatio (h : m.Akin n) (hm : m.IsUnsigned) (hn : n.IsUnsigned) : m.toRatio.Akin n.toRatio := by
  obtain ⟨hcoefficient, hnum, hden⟩ := h
  by_cases h0 : m.coefficient = 0
  · rw [toRatio_of_eq_zero h0, toRatio_of_eq_zero (hcoefficient ▸ h0)]
    exact Ratio.akin_of.mpr ⟨rfl, .refl _⟩
  · have hempty : m.numerator.isEmpty = n.numerator.isEmpty := by
      have hlen : m.numerator.length = n.numerator.length := hnum.length_eq
      rw [Bool.eq_iff_iff, List.isEmpty_iff_length_eq_zero, List.isEmpty_iff_length_eq_zero, hlen]
    have habove : Corr Expr.Akin m.above n.above := by
      rw [above, above, hcoefficient, hempty]
      exact (Expr.corr_akin_refl _).append hnum
    have hbelow : Corr Expr.Akin m.below n.below := by
      rw [below, below, hcoefficient]
      exact (Expr.corr_akin_refl _).append hden
    rw [toRatio_of_ne_zero h0, toRatio_of_ne_zero (hcoefficient ▸ h0), ← hcoefficient]
    split
    · refine Ratio.akin_of_sign ⟨?_, hbelow⟩ fun _ => (sign_signed hm).1.trans (sign_signed hn).1.symm
      have hcores := Expr.corr_akin_iff.mp habove
      have hm' := Expr.corr_akin_iff.mp (corr_negateFirst m.above)
      have hn' := Expr.corr_akin_iff.mp (corr_negateFirst n.above)
      exact Expr.corr_akin_iff.mpr ((hm'.trans hcores).trans hn'.symm)
    · exact Ratio.akin_of_sign ⟨habove, hbelow⟩ fun _ => (sign_signed hm).2.trans (sign_signed hn).2.symm

end Monomial

/-! ## Collecting -/

namespace Monomial

variable {k m n : Monomial} {ms ns acc : List Monomial}

theorem isLike_iff : n.isLike m = true ↔
    (n.numerator.map Expr.bare).Perm (m.numerator.map Expr.bare) ∧
      (n.denominator.map Expr.bare).Perm (m.denominator.map Expr.bare) :=
  ⟨perm_of_isLike, fun h => isLike_of_perm h.1 h.2⟩

theorem isLike_comm (m n : Monomial) : m.isLike n = n.isLike m := by
  rw [Bool.eq_iff_iff, isLike_iff, isLike_iff, List.perm_comm, and_congr_right fun _ => List.perm_comm]

/-- Monomials like one and the same are like the same ones. -/
theorem isLike_of_isLike (h : m.isLike n = true) : k.isLike m = k.isLike n := by
  obtain ⟨hn, hd⟩ := perm_of_isLike h
  rw [Bool.eq_iff_iff, isLike_iff, isLike_iff]
  exact ⟨fun ⟨h1, h2⟩ => ⟨h1.trans hn, h2.trans hd⟩, fun ⟨h1, h2⟩ => ⟨h1.trans hn.symm, h2.trans hd.symm⟩⟩

/-- What the coefficients of the monomials like one add up to. -/
def amount (n : Monomial) (ms : List Monomial) : Rat := ((ms.filter n.isLike).map coefficient).sum

theorem amount_cons (n m : Monomial) (ms : List Monomial) :
    n.amount (m :: ms) = (if n.isLike m then m.coefficient else 0) + n.amount ms := by
  rw [amount, List.filter_cons]
  split
  · rw [List.map_cons, List.sum_cons, amount]
  · rw [zero_add, amount]

theorem amount_addTo (n m : Monomial) (ns : List Monomial) : n.amount (m.addTo ns) = n.amount (m :: ns) := by
  induction ns with
  | nil => rfl
  | cons k ns ih =>
    unfold addTo
    split
    · rename_i hlike
      have hk : n.isLike { k with coefficient := k.coefficient + m.coefficient } = n.isLike k := isLike_congr rfl rfl
      rw [amount_cons, amount_cons, amount_cons, hk, isLike_of_isLike hlike]
      split <;> ring
    · rw [amount_cons, ih, amount_cons, amount_cons, amount_cons]
      ring

theorem amount_addAll (n : Monomial) (ms acc : List Monomial) :
    n.amount (addAll ms acc) = n.amount ms + n.amount acc := by
  induction ms generalizing acc with
  | nil => rw [show n.amount [] = 0 from rfl, zero_add]; rfl
  | cons m ms ih =>
    rw [addAll, List.foldl_cons, ← addAll, ih, amount_addTo, amount_cons, amount_cons]
    ring

theorem amount_of_unlike (h : Unlike ns) (hn : n ∈ ns) : n.amount ns = n.coefficient := by
  induction ns with
  | nil => cases hn
  | cons k ns ih =>
    obtain ⟨hk, hns⟩ := List.pairwise_cons.mp h
    rw [amount_cons]
    rcases List.mem_cons.mp hn with rfl | hn
    · have hrest : ns.filter n.isLike = [] := List.filter_eq_nil_iff.mpr fun m hm => by simp [hk m hm]
      rw [if_pos (isLike_iff.mpr ⟨.refl _, .refl _⟩), amount, hrest]
      exact add_zero _
    · rw [isLike_comm, hk n hn, if_neg Bool.false_ne_true, ih hns hn, zero_add]

/-- **What is collected has the coefficients of its kind added up.** -/
theorem coefficient_addAll (h : n ∈ addAll ms []) : n.coefficient = n.amount ms := by
  rw [← amount_of_unlike (unlike_addAll ms List.Pairwise.nil) h, amount_addAll]
  exact add_zero _

theorem exists_rest_addTo (hn : n ∈ ns) : ∃ k ∈ m.addTo ns, k.rest = n.rest := by
  induction ns with
  | nil => cases hn
  | cons a ns ih =>
    unfold addTo
    split
    · rcases List.mem_cons.mp hn with rfl | hn
      · exact ⟨_, List.mem_cons_self, rfl⟩
      · exact ⟨n, List.mem_cons_of_mem _ hn, rfl⟩
    · rcases List.mem_cons.mp hn with rfl | hn
      · exact ⟨n, List.mem_cons_self, rfl⟩
      · obtain ⟨k, hk, hr⟩ := ih hn
        exact ⟨k, List.mem_cons_of_mem _ hk, hr⟩

theorem exists_isLike_addTo (m : Monomial) (ns : List Monomial) : ∃ k ∈ m.addTo ns, k.isLike m = true := by
  induction ns with
  | nil => exact ⟨m, List.mem_singleton_self m, isLike_iff.mpr ⟨.refl _, .refl _⟩⟩
  | cons a ns ih =>
    unfold addTo
    split
    · rename_i h
      exact ⟨_, List.mem_cons_self, (isLike_congr rfl rfl).trans h⟩
    · obtain ⟨k, hk, h⟩ := ih
      exact ⟨k, List.mem_cons_of_mem _ hk, h⟩

theorem exists_rest_addAll (hn : n ∈ acc) : ∃ k ∈ addAll ms acc, k.rest = n.rest := by
  induction ms generalizing acc n with
  | nil => exact ⟨n, hn, rfl⟩
  | cons m ms ih =>
    obtain ⟨a, ha, hr⟩ := exists_rest_addTo (m := m) hn
    obtain ⟨k, hk, hr'⟩ := ih ha
    exact ⟨k, hk, hr'.trans hr⟩

/-- No kind is lost. -/
theorem exists_isLike_addAll (hm : m ∈ ms) : ∃ k ∈ addAll ms acc, k.isLike m = true := by
  induction ms generalizing acc with
  | nil => cases hm
  | cons a ms ih =>
    rcases List.mem_cons.mp hm with rfl | hm
    · obtain ⟨k, hk, hlike⟩ := exists_isLike_addTo m acc
      obtain ⟨l, hl, hr⟩ : ∃ l ∈ addAll ms (m.addTo acc), l.rest = k.rest := exists_rest_addAll hk
      exact ⟨l, hl, (isLike_congr hr rfl).trans hlike⟩
    · exact ih hm

/-- The factors of a monomial without their order, as far as akin ones are told apart. -/
def key (m : Monomial) : Multiset Expr × Multiset Expr := (m.numerator.map Expr.core, m.denominator.map Expr.core)

theorem key_eq_iff : m.key = n.key ↔ m.IsKindred n := by
  rw [key, key, Prod.mk.injEq, Multiset.coe_eq_coe, Multiset.coe_eq_coe, ← Expr.corr_akin_iff, ← Expr.corr_akin_iff]
  rfl

theorem IsKindred.of_isLike (h : m.isLike n = true) : m.IsKindred n := by
  have hcore : ∀ es : List Expr, (es.map Expr.bare).map Expr.core = es.map Expr.core := fun es => by
    rw [List.map_map]
    exact List.map_congr_left fun e _ => congrArg Expr.abs (Expr.gathered_bare e)
  obtain ⟨hn, hd⟩ := perm_of_isLike h
  have hn := hn.map Expr.core
  have hd := hd.map Expr.core
  rw [hcore, hcore] at hn hd
  exact ⟨Expr.corr_akin_iff.mpr hn, Expr.corr_akin_iff.mpr hd⟩

/-- Monomials of one kind are like each other. -/
def AreDiscerned (ms : List Monomial) : Prop := ∀ m ∈ ms, ∀ n ∈ ms, m.IsKindred n → m.isLike n = true

theorem key_of_rest (h : m.rest = n.rest) : m.key = n.key := by
  obtain ⟨hn, hd⟩ := rest_eq_iff.mp h
  rw [key, key, hn, hd]

theorem AreDiscerned.isLike_iff_key (hd : AreDiscerned ms) (hm : m ∈ ms) (hn : n ∈ ms) (hr : k.rest = n.rest) :
    k.isLike m = true ↔ k.key = m.key := by
  rw [isLike_congr hr rfl, key_of_rest hr, key_eq_iff]
  exact ⟨IsKindred.of_isLike, hd n hn m hm⟩

theorem mem_key_addAll {κ : Multiset Expr × Multiset Expr} :
    κ ∈ (addAll ms []).map key ↔ κ ∈ ms.map key := by
  rw [List.mem_map, List.mem_map]
  constructor
  · rintro ⟨k, hk, rfl⟩
    obtain ⟨m, hm, hr⟩ := rest_of_mem_addAll hk
    exact ⟨m, hm, (key_of_rest hr).symm⟩
  · rintro ⟨m, hm, rfl⟩
    obtain ⟨k, hk, hlike⟩ := exists_isLike_addAll hm
    exact ⟨k, hk, key_eq_iff.mpr (.of_isLike hlike)⟩

theorem nodup_key_addAll (hd : AreDiscerned ms) : ((addAll ms []).map key).Nodup := by
  rw [List.Nodup, List.pairwise_map]
  refine (unlike_addAll ms List.Pairwise.nil).imp_of_mem fun {k l} hk hl hlike hkey => ?_
  obtain ⟨m, hm, hkm⟩ := rest_of_mem_addAll hk
  obtain ⟨n, hn, hln⟩ := rest_of_mem_addAll hl
  rw [isLike_congr rfl hln, (hd.isLike_iff_key hn hm hkm).mpr (hkey.trans (key_of_rest hln))] at hlike
  cases hlike

/-- **What is collected does not depend on the order**, if monomials of one kind are like each other. -/
theorem corr_addAll (h : Corr Akin ms ns) (hm : AreDiscerned ms) (hn : AreDiscerned ns) :
    Corr Akin (addAll ms []) (addAll ns []) := by
  have hkeys : (ms.map key).Perm (ns.map key) := h.perm_map fun _ _ _ hab => key_eq_iff.mpr hab.2
  have hperm : ((addAll ms []).map key).Perm ((addAll ns []).map key) := by
    rw [List.perm_ext_iff_of_nodup (nodup_key_addAll hm) (nodup_key_addAll hn)]
    intro κ
    rw [mem_key_addAll, mem_key_addAll, hkeys.mem_iff]
  refine (corr_iff_perm.mpr hperm).imp_of_mem fun k hk l hl hkl => ⟨?_, key_eq_iff.mp hkl⟩
  -- the monomials of this kind are the same on both sides
  obtain ⟨m, hkm, hrm⟩ := rest_of_mem_addAll hk
  obtain ⟨n, hln, hrn⟩ := rest_of_mem_addAll hl
  have hlike : ∀ a ∈ ms, ∀ b ∈ ns, Akin a b → k.isLike a = l.isLike b := by
    intro a ha b hb hab
    rw [Bool.eq_iff_iff, hm.isLike_iff_key ha hkm hrm, hn.isLike_iff_key hb hln hrn, hkl, key_eq_iff.mpr hab.2]
  have hsame : Corr (fun a b => Akin a b ∧ k.isLike a = l.isLike b) ms ns :=
    h.imp_of_mem fun a ha b hb hab => ⟨hab, hlike a ha b hb hab⟩
  rw [coefficient_addAll hk, coefficient_addAll hl]
  exact ((hsame.filter fun _ _ _ hab => hab.2).perm_map fun _ _ _ hab => hab.1.1).sum_eq

end Monomial

/-! ## Reducing a node -/

namespace Ratio

variable {t u : Ratio Expr} {ts us : List (Ratio Expr)} {a : Expr}

theorem exists_abs_of_mem_split (h : a ∈ t.split.rest.factors) : ∃ x ∈ t.factors, a = x.abs := by
  rcases List.mem_append.mp h with h | h
  · obtain ⟨x, hx, rfl⟩ := List.mem_map.mp h
    exact ⟨x, List.mem_append_left _ (List.mem_filter.mp hx).1, rfl⟩
  · obtain ⟨x, hx, rfl⟩ := List.mem_map.mp h
    exact ⟨x, List.mem_append_right _ (List.mem_filter.mp hx).1, rfl⟩

/-- What is split off a reduced ratio are factors of the ratio. -/
theorem exists_abs_of_mem_split_reduce (h : a ∈ t.reduce.split.rest.factors) : ∃ x ∈ t.factors, a = x.abs := by
  by_cases h0 : t.split.reduce.coefficient = 0
  · rw [reduce, Monomial.toRatio_of_eq_zero h0] at h
    cases h
  · rw [reduce, Monomial.split_toRatio (Monomial.isReduced_reduce t) h0] at h
    obtain ⟨hn, hd⟩ := cancel_sublist t.split.numerator t.split.denominator
    refine exists_abs_of_mem_split ?_
    rcases List.mem_append.mp h with h | h
    · exact List.mem_append_left _ (hn.mem h)
    · exact List.mem_append_right _ (hd.mem h)

/-- Factors above and below the line that are akin are the same in form, signs in front apart. -/
def IsDiscerned (t : Ratio Expr) : Prop := ∀ a ∈ t.numerator, ∀ d ∈ t.denominator, a.Akin d → a.abs.bare = d.abs.bare

/-- What reducing compares is told apart: the factors above and below each line, and the reduced terms. -/
def AreDiscerned (ts : List (Ratio Expr)) : Prop :=
  (∀ t ∈ ts, t.IsDiscerned) ∧ Monomial.AreDiscerned ((ts.map reduce).map Ratio.split)

/-- Reducing makes akin ratios of akin ones, if it tells their factors apart. -/
theorem Akin.reduce (h : t.Akin u) (ht : t.IsDiscerned) (hu : u.IsDiscerned) : t.reduce.Akin u.reduce := by
  have hsplit : ∀ r : Ratio Expr, r.IsDiscerned →
      ∀ a ∈ r.split.numerator, ∀ d ∈ r.split.denominator, a.Akin d → a.bare = d.bare := by
    intro r hr a ha d hd had
    obtain ⟨x, hx, rfl⟩ := List.mem_map.mp ha
    obtain ⟨y, hy, rfl⟩ := List.mem_map.mp hd
    exact hr x (List.mem_filter.mp hx).1 y (List.mem_filter.mp hy).1 (Expr.akin_abs_iff.mp had)
  exact (h.split.reduce (hsplit t ht) (hsplit u hu)).toRatio (Monomial.isUnsigned_reduce t.isUnsigned_split)
    (Monomial.isUnsigned_reduce u.isUnsigned_split)

/-- If all factors of a sum are told apart, so is whatever reducing compares. -/
theorem areDiscerned_of_factors (h : ∀ a ∈ ts.flatMap factors, ∀ b ∈ ts.flatMap factors, a.Akin b →
    a.abs.bare = b.abs.bare) : AreDiscerned ts := by
  have hsame : ∀ {as bs : List Expr}, Isolate.Corr Expr.Akin as bs → (∀ a ∈ as, ∃ x ∈ ts.flatMap factors, a = x.abs) →
      (∀ b ∈ bs, ∃ y ∈ ts.flatMap factors, b = y.abs) → (as.map Expr.bare).Perm (bs.map Expr.bare) := by
    intro as bs hc has hbs
    refine corr_iff_perm.mp (hc.imp_of_mem fun a ha b hb hab => ?_)
    obtain ⟨x, hx, rfl⟩ := has a ha
    obtain ⟨y, hy, rfl⟩ := hbs b hb
    exact h x hx y hy (Expr.akin_abs_iff.mp hab)
  have hmem : ∀ m ∈ (ts.map reduce).map Ratio.split, ∀ a ∈ m.rest.factors, ∃ x ∈ ts.flatMap factors, a = x.abs := by
    intro m hm a ha
    rw [List.map_map] at hm
    obtain ⟨t, ht, rfl⟩ := List.mem_map.mp hm
    obtain ⟨x, hx, rfl⟩ := exists_abs_of_mem_split_reduce ha
    exact ⟨x, List.mem_flatMap.mpr ⟨t, ht, hx⟩, rfl⟩
  refine ⟨fun t ht a ha d hd => h a ?_ d ?_, fun m hm n hn hmn => Monomial.isLike_iff.mpr ⟨?_, ?_⟩⟩
  · exact List.mem_flatMap.mpr ⟨t, ht, List.mem_append_left _ ha⟩
  · exact List.mem_flatMap.mpr ⟨t, ht, List.mem_append_right _ hd⟩
  · exact hsame hmn.1 (fun a ha => hmem m hm a (List.mem_append_left _ ha)) fun b hb =>
      hmem n hn b (List.mem_append_left _ hb)
  · exact hsame hmn.2 (fun a ha => hmem m hm a (List.mem_append_right _ ha)) fun b hb =>
      hmem n hn b (List.mem_append_right _ hb)

/-- **Akin sums are reduced to akin ones**, if what is compared is told apart. -/
theorem corr_collect (h : Isolate.Corr Akin ts us) (ht : AreDiscerned ts) (hu : AreDiscerned us) :
    Isolate.Corr Akin (collect (ts.map reduce)) (collect (us.map reduce)) := by
  have hreduced : Isolate.Corr Akin (ts.map reduce) (us.map reduce) :=
    (h.imp_of_mem fun t htm u hum htu => htu.reduce (ht.1 t htm) (hu.1 u hum)).map fun _ _ h => h
  have hsplit : Isolate.Corr Monomial.Akin ((ts.map reduce).map Ratio.split) ((us.map reduce).map Ratio.split) :=
    hreduced.map fun _ _ => Akin.split
  have hunsigned : ∀ rs : List (Ratio Expr), ∀ m ∈ Monomial.addAll (rs.map Ratio.split) [], m.IsUnsigned := by
    intro rs m hm
    obtain ⟨r, -, hr⟩ := rest_of_mem_collect hm
    rw [Monomial.IsUnsigned, hr]
    exact r.isUnsigned_split
  have hcollected := Monomial.corr_addAll hsplit ht.2 hu.2
  rw [collect_eq, collect_eq]
  exact (hcollected.imp_of_mem fun m hm n hn hmn => hmn.toRatio (hunsigned _ m hm) (hunsigned _ n hn)).map fun _ _ h => h

end Ratio

/-! ## Reducing a tree -/

namespace Expr

variable {a b e : Expr}

/-- If the node is a sum, what reducing compares in it is told apart, once its factors are reduced. -/
def IsDiscerned (e : Expr) : Prop :=
  ∀ ts, e.shape = .sum ts → Ratio.AreDiscerned (ts.map (Ratio.map (editUp reduceStep .all)))

theorem isOfSums_reduceStep : IsOfSums reduceStep := fun e he => by
  obtain ⟨s, b, c⟩ := e
  cases b with
  | sum ts => exact absurd rfl (he ts)
  | _ => rfl

theorem sign_reduceUp (e : Expr) : (e.editUp reduceStep .all).sign = e.sign := by
  obtain ⟨s, b, c⟩ := e
  rw [editUp_all]
  cases b <;> rfl

theorem number?_reduceUp (h : e.number? = some 0) : (e.editUp reduceStep .all).number? = some 0 := by
  obtain ⟨s, b, c⟩ := e
  cases b with
  | number q => rw [editUp_all]; exact h
  | _ => simp [number?] at h

/-- **Reducing makes akin trees of akin ones**, if what is compared in every sum is told apart. -/
theorem Akin.reduceUp (h : a.Akin b) (ha : a.Everywhere IsDiscerned) (hb : b.Everywhere IsDiscerned) :
    (a.editUp reduceStep .all).Akin (b.editUp reduceStep .all) := by
  induction a using Expr.induction generalizing b with
  | h a ih =>
    obtain ⟨hna, hca⟩ := everywhere_iff.mp ha
    obtain ⟨hnb, hcb⟩ := everywhere_iff.mp hb
    by_cases hsum : ∃ ts, a.shape = .sum ts
    · obtain ⟨s, p, c⟩ := a
      obtain ⟨s', r, c'⟩ := b
      obtain ⟨ts, rfl⟩ := hsum
      obtain ⟨us, rfl, hc⟩ := h.sum rfl
      rw [editUp_all, editUp_all]
      refine akin_sum.mpr (Ratio.corr_collect ?_ (hna ts rfl) (hnb us rfl))
      refine (hc.imp_of_mem fun t ht u hu htu => ?_).map fun _ _ h => h
      have hcorr : t.Corr (fun x y => (x.editUp reduceStep .all).Akin (y.editUp reduceStep .all)) u :=
        Ratio.corr_imp_of_mem htu.2 fun x hx y hy hxy =>
          have hxc := List.mem_flatMap.mpr ⟨t, ht, hx⟩
          ih x hxc hxy (hca x hxc) (hcb y (List.mem_flatMap.mpr ⟨u, hu, hy⟩))
      have hsign : ∀ r : Ratio Expr, (r.map (editUp reduceStep .all)).sign = r.sign := fun r =>
        Ratio.sign_map fun e _ => sign_reduceUp e
      refine Ratio.akin_of_sign (Ratio.corr_map hcorr) fun hv => ?_
      rw [hsign, hsign, htu.sign_eq fun h0 => hv (h0.map fun e => number?_reduceUp)]
    · exact ((isBottomUp_editUp reduceStep).akin_of_not_sum isOfSums_reduceStep h (not_exists.mp hsum)
        fun x hx y hy hxy hs => ⟨ih x hx hxy (hca x hx) (hcb y hy), by rw [sign_reduceUp, sign_reduceUp, hs]⟩).1

end Expr

end Isolate
