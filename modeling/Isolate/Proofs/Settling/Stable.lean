import Isolate.Normal.Simplify
import Isolate.Proofs.Monomial
import Isolate.Proofs.Tree.Bare
import Mathlib.Tactic.Ring

/-!
# Reduced sums stay as they are

A reduced monomial (`Monomial.IsReduced`) is split off the ratio it is written as, unless it is zero
(`Monomial.split_toRatio`), and monomials that are unlike each other are not changed when they are collected
(`Monomial.addAll_of_unlike`). So a sum that has been reduced and has no zero among its terms is not changed when it is
reduced again (`Ratio.collect_reduce_eq_self`).

* `Expr.everywhere_isCollected`: a tree that has been reduced and is free of zero terms is not changed at any node when
  it is reduced again. The operands of a reduced node are numbers, or operands it had before, up to their signs
  (`Expr.shape_of_mem_reduceStep`); this carries the induction.
-/

namespace Isolate

/-! ## Reduced monomials -/

namespace Monomial

variable {m n : Monomial}

/-- No signs, no numbers, and nothing to cancel. -/
structure IsReduced (m : Monomial) : Prop where
  unsigned : m.IsUnsigned
  numbers : ∀ e ∈ m.numerator, e.number? = none
  divisors : ∀ e ∈ m.denominator, e.divisor? = none
  cancelled : cancel m.numerator m.denominator = (m.numerator, m.denominator)

theorem rest_eq_iff : m.rest = n.rest ↔ m.numerator = n.numerator ∧ m.denominator = n.denominator := by
  simp [rest]

/-- The coefficient does not matter. -/
theorem IsReduced.congr (h : m.IsReduced) (hr : n.rest = m.rest) : n.IsReduced := by
  obtain ⟨hn, hd⟩ := rest_eq_iff.mp hr
  exact ⟨by rw [IsUnsigned, hr]; exact h.unsigned, hn ▸ h.numbers, hd ▸ h.divisors, by rw [hn, hd, h.cancelled]⟩

theorem IsReduced.reduce_eq (h : m.IsReduced) : m.reduce = m := by rw [reduce, h.cancelled]

end Monomial

/-! ## Cancelling twice -/

theorem contains_of_sublist {as bs : List Expr} {d : Expr} (h : as.Sublist bs) (hd : bs.contains d = false) :
    as.contains d = false := by
  rw [Bool.eq_false_iff] at hd ⊢
  intro hc
  obtain ⟨e, he, hde⟩ := List.contains_iff_exists_mem_beq.mp hc
  exact hd (List.contains_iff_exists_mem_beq.mpr ⟨e, h.mem he, hde⟩)

theorem contains_cancel {ns ds : List Expr} {d : Expr} (h : d ∈ (cancel ns ds).2) :
    (cancel ns ds).1.contains d = false := by
  induction ds generalizing ns with
  | nil => cases h
  | cons c ds ih =>
    unfold cancel at h ⊢
    split
    · rename_i hc
      rw [if_pos hc] at h
      exact ih h
    · rename_i hc
      rw [if_neg hc] at h
      rcases List.mem_cons.mp h with rfl | h
      · exact contains_of_sublist (cancel_sublist ns ds).1 (Bool.eq_false_iff.mpr hc)
      · exact ih h

theorem cancel_eq_self {ns ds : List Expr} (h : ∀ d ∈ ds, ns.contains d = false) : cancel ns ds = (ns, ds) := by
  induction ds with
  | nil => rfl
  | cons d ds ih =>
    obtain ⟨hd, hds⟩ := List.forall_mem_cons.mp h
    rw [cancel, hd, if_neg Bool.false_ne_true, ih hds]

theorem cancel_cancel (ns ds : List Expr) : cancel (cancel ns ds).1 (cancel ns ds).2 = cancel ns ds :=
  cancel_eq_self fun _ => contains_cancel

/-- What is split off has no numbers among its factors, but for divisors that are zero. -/
theorem Ratio.number?_of_mem_split {t : Ratio Expr} {e : Expr} (h : e ∈ t.split.numerator) : e.number? = none := by
  obtain ⟨a, ha, rfl⟩ := List.mem_map.mp h
  exact Option.isNone_iff_eq_none.mp (List.mem_filter.mp ha).2

theorem Ratio.divisor?_of_mem_split {t : Ratio Expr} {e : Expr} (h : e ∈ t.split.denominator) : e.divisor? = none := by
  obtain ⟨a, ha, rfl⟩ := List.mem_map.mp h
  exact Option.isNone_iff_eq_none.mp (List.mem_filter.mp ha).2

theorem Monomial.isReduced_reduce (t : Ratio Expr) : t.split.reduce.IsReduced where
  unsigned := isUnsigned_reduce t.isUnsigned_split
  numbers _ he := Ratio.number?_of_mem_split ((cancel_sublist _ _).1.mem he)
  divisors _ he := Ratio.divisor?_of_mem_split ((cancel_sublist _ _).2.mem he)
  cancelled := cancel_cancel _ _

/-! ## Splitting what has been written -/

theorem signOf_eq_pos {es : List Expr} (h : ∀ e ∈ es, e.sign = .pos) : signOf es = .pos := by
  induction es with
  | nil => rfl
  | cons e es ih =>
    obtain ⟨he, hes⟩ := List.forall_mem_cons.mp h
    rw [signOf_cons, he, ih hes]
    rfl

namespace Monomial

variable {m : Monomial}

theorem signOf_negateFirst {es : List Expr} (hne : es ≠ []) (h : ∀ e ∈ es, e.sign = .pos) :
    signOf (negateFirst es) = .neg := by
  cases es with
  | nil => exact absurd rfl hne
  | cons e es =>
    rw [negateFirst, signOf_cons, signOf_eq_pos (List.forall_mem_cons.mp h).2]
    rfl

theorem filterMap_negateFirst (es : List Expr) :
    (negateFirst es).filterMap Expr.number? = es.filterMap Expr.number? := by
  cases es with
  | nil => rfl
  | cons e es => rfl

theorem filter_negateFirst (es : List Expr) :
    ((negateFirst es).filter fun e => e.number?.isNone).map Expr.abs =
      (es.filter fun e => e.number?.isNone).map Expr.abs := by
  cases es with
  | nil => rfl
  | cons e es =>
    have h : ({ e with sign := .neg } : Expr).number? = e.number? := rfl
    rw [negateFirst, List.filter_cons, List.filter_cons, h]
    split <;> rfl

theorem product_numbers_above (h : ∀ e ∈ m.numerator, e.number? = none) :
    product (m.above.filterMap Expr.number?) = (m.coefficient.num.natAbs : Int) := by
  rw [above, List.filterMap_append, List.filterMap_eq_nil_iff.mpr h, List.append_nil]
  split
  · simp [Expr.number?, Expr.number, Expr.ofShape]
  · rename_i hp
    rw [not_or, not_ne_iff] at hp
    simp [hp.1]

theorem product_divisors_below (h : ∀ e ∈ m.denominator, e.divisor? = none) :
    product (m.below.filterMap Expr.divisor?) = m.coefficient.den := by
  rw [below, List.filterMap_append, List.filterMap_eq_nil_iff.mpr h, List.append_nil]
  split
  · simp [Expr.divisor?, Expr.number?, Expr.number, Expr.ofShape, Option.filter, m.coefficient.den_ne_zero]
  · rename_i hq
    simp [not_ne_iff.mp hq]

theorem filter_above (h : ∀ e ∈ m.numerator, e.number? = none) :
    (m.above.filter fun e => e.number?.isNone) = m.numerator := by
  have hn : (m.numerator.filter fun e => e.number?.isNone) = m.numerator :=
    List.filter_eq_self.mpr fun e he => by rw [h e he]; rfl
  rw [above, List.filter_append, hn]
  split <;> rfl

theorem filter_below (h : ∀ e ∈ m.denominator, e.divisor? = none) :
    (m.below.filter fun e => e.divisor?.isNone) = m.denominator := by
  have hn : (m.denominator.filter fun e => e.divisor?.isNone) = m.denominator :=
    List.filter_eq_self.mpr fun e he => by rw [h e he]; rfl
  rw [below, List.filter_append, hn]
  split
  · simp [Expr.divisor?, Expr.number?, Expr.number, Expr.ofShape, Option.filter, m.coefficient.den_ne_zero]
  · rfl

theorem sign_below (h : m.IsUnsigned) : ∀ e ∈ m.below, e.sign = .pos := by
  intro e he
  rcases List.mem_append.mp he with he | he
  · split at he
    · rw [List.mem_singleton.mp he]; rfl
    · cases he
  · exact h e (List.mem_append_right _ he)

/-- A monomial without signs and numbers is split off the ratio it is written as. -/
theorem split_toRatio_of (hunsigned : m.IsUnsigned) (hnumbers : ∀ e ∈ m.numerator, e.number? = none)
    (hdivisors : ∀ e ∈ m.denominator, e.divisor? = none) (h0 : m.coefficient ≠ 0) : m.toRatio.split = m := by
  have habove := sign_above hunsigned
  have hnum : m.numerator.map Expr.abs = m.numerator :=
    Expr.map_abs_of_pos fun e he => hunsigned e (List.mem_append_left _ he)
  have hden : m.denominator.map Expr.abs = m.denominator :=
    Expr.map_abs_of_pos fun e he => hunsigned e (List.mem_append_right _ he)
  have hbelow := signOf_eq_pos (sign_below hunsigned)
  rw [toRatio_of_ne_zero h0, Ratio.split]
  simp only [Ratio.sign_eq, Ratio.magnitude_eq, hbelow, product_divisors_below hdivisors, filter_below hdivisors, hden]
  by_cases hneg : m.coefficient < 0
  · simp only [if_pos hneg, signOf_negateFirst above_ne_nil habove, filterMap_negateFirst, filter_negateFirst,
      product_numbers_above hnumbers, filter_above hnumbers, hnum]
    have hc : -((m.coefficient.num.natAbs : Int) / m.coefficient.den : Rat) = m.coefficient := by
      rw [Int.ofNat_natAbs_of_nonpos (Rat.num_neg.mpr hneg).le, Int.cast_neg, neg_div, neg_neg, Rat.num_div_den]
    simp only [Sign.neg_mul, Sign.flip, Sign.apply, hc]
  · simp only [if_neg hneg, signOf_eq_pos habove, product_numbers_above hnumbers, filter_above hnumbers, hnum]
    have hc : ((m.coefficient.num.natAbs : Int) / m.coefficient.den : Rat) = m.coefficient := by
      rw [Int.natAbs_of_nonneg (Rat.num_nonneg.mpr (not_lt.mp hneg)), Rat.num_div_den]
    simp only [Sign.pos_mul, Sign.apply, hc]

/-- **A reduced monomial is split off the ratio it is written as.** -/
theorem split_toRatio (h : m.IsReduced) (h0 : m.coefficient ≠ 0) : m.toRatio.split = m :=
  split_toRatio_of h.unsigned h.numbers h.divisors h0

/-- What is split off a reduced ratio is reduced. -/
theorem isReduced_split_reduce (t : Ratio Expr) : t.reduce.split.IsReduced := by
  rw [Ratio.reduce]
  by_cases h0 : t.split.reduce.coefficient = 0
  · rw [toRatio_of_eq_zero h0]
    have hz : (⟨[.number 0], []⟩ : Ratio Expr).split.rest = ⟨[], []⟩ := rfl
    have hempty : IsReduced ⟨0, [], []⟩ :=
      ⟨fun e he => by simp [rest, Ratio.factors] at he, fun e he => by simp at he, fun e he => by simp at he, rfl⟩
    exact hempty.congr hz
  · rw [split_toRatio (isReduced_reduce t) h0]
    exact isReduced_reduce t

/-! ## Collecting twice -/

/-- No monomial is like one before it. -/
def Unlike (ms : List Monomial) : Prop := ms.Pairwise fun m n => m.isLike n = false

theorem isLike_congr {m m' n n' : Monomial} (hm : m.rest = m'.rest) (hn : n.rest = n'.rest) :
    m.isLike n = m'.isLike n' := by
  obtain ⟨h1, h2⟩ := rest_eq_iff.mp hm
  obtain ⟨h3, h4⟩ := rest_eq_iff.mp hn
  rw [isLike, isLike, h1, h2, h3, h4]

theorem unlike_addTo (m : Monomial) {ns : List Monomial} (h : Unlike ns) : Unlike (m.addTo ns) := by
  induction ns with
  | nil => exact List.pairwise_singleton _ _
  | cons n ns ih =>
    obtain ⟨hn, hns⟩ := List.pairwise_cons.mp h
    unfold addTo
    split
    · exact List.pairwise_cons.mpr ⟨fun k hk => (isLike_congr rfl rfl).trans (hn k hk), hns⟩
    · rename_i hm
      refine List.pairwise_cons.mpr ⟨fun k hk => ?_, ih hns⟩
      rcases rest_of_mem_addTo hk with hr | ⟨a, ha, hr⟩
      · rw [isLike_congr rfl hr]
        exact Bool.eq_false_iff.mpr hm
      · rw [isLike_congr rfl hr]
        exact hn a ha

theorem unlike_addAll (ms : List Monomial) {acc : List Monomial} (h : Unlike acc) : Unlike (addAll ms acc) := by
  induction ms generalizing acc with
  | nil => exact h
  | cons m ms ih => exact ih (unlike_addTo m h)

theorem addTo_of_unlike {ns : List Monomial} (h : ∀ n ∈ ns, n.isLike m = false) : m.addTo ns = ns ++ [m] := by
  induction ns with
  | nil => rfl
  | cons n ns ih =>
    obtain ⟨hn, hns⟩ := List.forall_mem_cons.mp h
    rw [addTo, hn, if_neg Bool.false_ne_true, ih hns, List.cons_append]

/-- Monomials that are unlike each other are not changed when they are collected. -/
theorem addAll_of_unlike {ms acc : List Monomial} (h : Unlike (acc ++ ms)) : addAll ms acc = acc ++ ms := by
  induction ms generalizing acc with
  | nil => rw [List.append_nil]; rfl
  | cons m ms ih =>
    obtain ⟨-, -, hacc⟩ := List.pairwise_append.mp h
    rw [addAll, List.foldl_cons, ← addAll, addTo_of_unlike fun n hn => hacc n hn m List.mem_cons_self, ih,
      List.append_assoc, List.singleton_append]
    rwa [List.append_assoc, List.singleton_append]

end Monomial

/-- **A sum that has been reduced and has no zero term is not changed by reducing it again.** -/
theorem Ratio.collect_reduce_eq_self {ts us : List (Ratio Expr)} (hts : ts = collect (us.map reduce))
    (h : ∀ t ∈ ts, Expr.isZeroTerm t = false) : collect (ts.map reduce) = ts := by
  let ms := Monomial.addAll ((us.map reduce).map split) []
  have htsm : ts = ms.map Monomial.toRatio := hts
  have hsplit : ∀ m ∈ ms, m.toRatio.split = m ∧ m.IsReduced := by
    intro m hm
    obtain ⟨t, ht, hr⟩ := rest_of_mem_collect hm
    obtain ⟨u, -, rfl⟩ := List.mem_map.mp ht
    have hred := (Monomial.isReduced_split_reduce u).congr hr
    refine ⟨Monomial.split_toRatio hred fun h0 => ?_, hred⟩
    have hz := h m.toRatio (htsm ▸ List.mem_map_of_mem hm)
    rw [Monomial.toRatio_of_eq_zero h0] at hz
    exact absurd hz (by decide)
  have hreduce : ts.map reduce = ts := by
    rw [htsm, List.map_map]
    refine List.map_congr_left fun m hm => ?_
    obtain ⟨hs, hr⟩ := hsplit m hm
    show m.toRatio.split.reduce.toRatio = m.toRatio
    rw [hs, hr.reduce_eq]
  have hms : ts.map split = ms := by
    rw [htsm, List.map_map]
    exact (List.map_congr_left fun m hm => (hsplit m hm).1).trans (List.map_id ms)
  have hunlike : Monomial.Unlike ([] ++ ms) := Monomial.unlike_addAll _ List.Pairwise.nil
  rw [hreduce, collect_eq, hms, Monomial.addAll_of_unlike hunlike, htsm, List.nil_append]

/-! ## Where factors come from -/

namespace Ratio

theorem shape_of_mem_split {t : Ratio Expr} {a : Expr} (h : a ∈ t.split.rest.factors) :
    ∃ b ∈ t.factors, a.shape = b.shape := by
  rcases List.mem_append.mp h with h | h
  · obtain ⟨b, hb, rfl⟩ := List.mem_map.mp h
    exact ⟨b, List.mem_append_left _ (List.mem_filter.mp hb).1, rfl⟩
  · obtain ⟨b, hb, rfl⟩ := List.mem_map.mp h
    exact ⟨b, List.mem_append_right _ (List.mem_filter.mp hb).1, rfl⟩

theorem shape_of_mem_reduce {t : Ratio Expr} {a : Expr} (h : a ∈ t.reduce.factors) :
    (∃ q, a.shape = .number q) ∨ ∃ b ∈ t.factors, a.shape = b.shape := by
  refine (Monomial.mem_toRatio h).imp_right fun ⟨b, hb, hab⟩ => ?_
  have hsplit : b ∈ t.split.rest.factors := by
    obtain ⟨hn, hd⟩ := cancel_sublist t.split.numerator t.split.denominator
    rcases List.mem_append.mp hb with hb | hb
    · exact List.mem_append_left _ (hn.mem hb)
    · exact List.mem_append_right _ (hd.mem hb)
  obtain ⟨c, hc, hbc⟩ := shape_of_mem_split hsplit
  exact ⟨c, hc, hab.trans hbc⟩

theorem shape_of_mem_collect {ts : List (Ratio Expr)} {u : Ratio Expr} {a : Expr} (hu : u ∈ collect ts)
    (h : a ∈ u.factors) : (∃ q, a.shape = .number q) ∨ ∃ t ∈ ts, ∃ b ∈ t.factors, a.shape = b.shape := by
  obtain ⟨m, hm, rfl⟩ := List.mem_map.mp hu
  refine (Monomial.mem_toRatio h).imp_right fun ⟨b, hb, hab⟩ => ?_
  obtain ⟨t, ht, hmt⟩ := rest_of_mem_collect hm
  rw [hmt] at hb
  obtain ⟨c, hc, hbc⟩ := shape_of_mem_split hb
  exact ⟨t, ht, c, hc, hab.trans hbc⟩

end Ratio

namespace Expr

/-- The operands of a reduced node are numbers, or operands it had before, signs apart. -/
theorem shape_of_mem_reduceStep {e a : Expr} (h : a ∈ (reduceStep e).children) :
    (∃ q, a.shape = .number q) ∨ ∃ b ∈ e.children, a.shape = b.shape := by
  obtain ⟨s, b, c⟩ := e
  cases b with
  | sum ts =>
    obtain ⟨u, hu, ha⟩ := List.mem_flatMap.mp h
    rcases Ratio.shape_of_mem_collect hu ha with hq | ⟨t, ht, b, hb, hab⟩
    · exact .inl hq
    · obtain ⟨t, hts, rfl⟩ := List.mem_map.mp ht
      refine (Ratio.shape_of_mem_reduce hb).imp (fun ⟨q, hq⟩ => ⟨q, hab.trans hq⟩) fun ⟨d, hd, hbd⟩ => ?_
      exact ⟨d, List.mem_flatMap.mpr ⟨t, hts, hd⟩, hab.trans hbd⟩
  | _ => exact .inr ⟨a, h, rfl⟩

/-! ## Stable trees -/

/-- No term of the node is zero. -/
def IsZeroFree (e : Expr) : Prop := ∀ ts, e.shape = .sum ts → ∀ t ∈ ts, isZeroTerm t = false

/-- Reducing the node changes nothing. -/
def IsCollected (e : Expr) : Prop := ∀ ts, e.shape = .sum ts → Ratio.collect (ts.map Ratio.reduce) = ts

theorem bare_reduceStep_of_isCollected {e : Expr} (h : e.IsCollected) : (reduceStep e).bare = e.bare := by
  obtain ⟨s, b, c⟩ := e
  cases b with
  | sum ts => simp only [reduceStep, h ts rfl, bare_mk]
  | _ => rfl

theorem isCollected_reduceStep {e : Expr} (h : (reduceStep e).IsZeroFree) : (reduceStep e).IsCollected := by
  obtain ⟨s, b, c⟩ := e
  cases b with
  | sum us =>
    intro ts hts
    obtain rfl : Ratio.collect (us.map Ratio.reduce) = ts := by simpa [reduceStep] using hts
    exact Ratio.collect_reduce_eq_self rfl (h _ rfl)
  | _ =>
    intro ts hts
    simp [reduceStep] at hts

/-- What holds at every reduced node, by its shape, holds everywhere once the tree is reduced: the operands of a reduced
node are numbers or have the shapes of operands that were reduced before. -/
theorem everywhere_reduceUp {P : Expr → Prop} (hP : ∀ {a b : Expr}, a.shape = b.shape → P a → P b)
    (hstep : ∀ e, P (reduceStep e)) (e : Expr) : (e.editUp reduceStep .all).Everywhere P := by
  induction e using Expr.induction with
  | h e ih =>
    obtain ⟨c, hc⟩ := isBottomUp_editUp reduceStep e
    rw [hc]
    refine everywhere_iff.mpr ⟨hstep _, fun a ha => ?_⟩
    rcases shape_of_mem_reduceStep ha with ⟨q, hq⟩ | ⟨b, hb, hab⟩
    · refine everywhere_iff.mpr ⟨hP hq.symm (hstep (number q)), fun d hd => ?_⟩
      rw [children, hq] at hd
      cases hd
    · rw [children, Shape.children_map] at hb
      obtain ⟨d, hd, rfl⟩ := List.mem_map.mp hb
      exact everywhere_of_shape hP hab.symm (ih d hd)

/-- **A tree that has been reduced and is free of zero terms is collected at every node.** -/
theorem everywhere_isCollected {e : Expr} (h : (e.editUp reduceStep .all).Everywhere IsZeroFree) :
    (e.editUp reduceStep .all).Everywhere IsCollected := by
  have hcollected := everywhere_reduceUp (P := fun a => a.IsZeroFree → a.IsCollected)
    (fun hs ha hzero ts hts => ha (fun us hus => hzero us (hs ▸ hus)) ts (hs.trans hts))
    (fun _ => isCollected_reduceStep) e
  exact (hcollected.and h).imp fun _ ha => ha.1 ha.2

end Expr

end Isolate
