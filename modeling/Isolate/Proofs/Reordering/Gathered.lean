import Isolate.Proofs.Matching.Unambiguous
import Isolate.Proofs.Monomial
import Isolate.Proofs.Tree.Order

/-!
# Trees without order

Gathering takes from a tree what does not depend on the order its sums and products are written in
(`Expr.gathered`): the terms of a sum and the factors of a product are sorted, and the signs of the factors of a product
are multiplied into one sign in front of it. Two trees are *akin* if they gather to the same, signs in front apart
(`Expr.Akin`).

A product that vanishes because one of several factors is zero has no sign (`Ratio.front`): normalising makes a plain
zero of a difference that cancels, whatever stood in front of it.

* `Expr.akin_sum`: sums are akin just if their terms are in some order, and terms just if they have the same sign in
  front and akin factors in some order.
-/

namespace Isolate

open Monomial (sortFactors)

/-! ## Gathering -/

namespace Ratio

/-- One of several factors of the product is zero. -/
def Vanishes (t : Ratio Expr) : Prop := t.factors.length ≠ 1 ∧ ∃ e ∈ t.numerator, e.number? = some 0

instance : DecidablePred Vanishes := fun _ => inferInstanceAs (Decidable (_ ∧ _))

/-- The product of the signs of all factors; a product that vanishes has a plus. -/
def front (t : Ratio Expr) : Sign := if t.Vanishes then .pos else t.sign

/-- The product with its factors in order and without their signs, and one sign in front. -/
def gather (t : Ratio Expr) : Expr :=
  ⟨t.front, .sum [⟨sortFactors (t.numerator.map Expr.abs), sortFactors (t.denominator.map Expr.abs)⟩], none⟩

end Ratio

/-- A sum with its terms gathered and in order. -/
def Shape.gather : Shape Expr → Shape Expr
  | sum ts => sum ((sortFactors (ts.map Ratio.gather)).map .of)
  | b => b

namespace Expr

/-- The tree with all its sums and products in order, and one sign in front of each product. -/
def gathered (e : Expr) : Expr := e.fold fun e b => ⟨e.sign, b.gather, none⟩

theorem gathered_eq (e : Expr) : e.gathered = ⟨e.sign, (e.shape.map gathered).gather, none⟩ := fold_eq ..

/-- The trees are the same up to the order of terms and factors, the place of a minus among the factors of a product, and
the sign in front. -/
def Akin (a b : Expr) : Prop := a.gathered.shape = b.gathered.shape

/-- The gathered tree without the sign in front. -/
def core (e : Expr) : Expr := e.gathered.abs

end Expr

/-! ## Signs multiplied -/

instance : CommGroup Sign where
  one := .pos
  inv s := s
  mul_assoc := Sign.mul_assoc
  one_mul := Sign.pos_mul
  mul_one s := by cases s <;> rfl
  inv_mul_cancel := Sign.mul_self
  mul_comm := Sign.mul_comm

theorem Sign.flip_mul (s t : Sign) : s.flip * t = (s * t).flip := by cases s <;> cases t <;> rfl

theorem signOf_eq_prod (es : List Expr) : signOf es = (es.map Expr.sign).prod := by
  induction es with
  | nil => rfl
  | cons e es ih => rw [signOf_cons, ih, List.map_cons, List.prod_cons]

theorem Ratio.sign_eq_prod (t : Ratio Expr) : t.sign = (t.factors.map Expr.sign).prod := by
  rw [sign_eq, signOf_eq_prod, signOf_eq_prod, factors, List.map_append, List.prod_append]

/-! ## Correspondence by a key -/

theorem forall₂_and_mem {R : α → β → Prop} {as : List α} {bs : List β} (h : List.Forall₂ R as bs) :
    List.Forall₂ (fun a b => R a b ∧ a ∈ as ∧ b ∈ bs) as bs := by
  have hright : List.Forall₂ (fun a b => R a b ∧ b ∈ bs) as bs :=
    (forall₂_imp_of_mem (fun b hb a hab => And.intro hab hb) h.flip).flip
  exact forall₂_imp_of_mem (fun a ha b hab => ⟨hab.1, ha, hab.2⟩) hright

/-- Lists correspond by their keys just if the keys are the same in some order. -/
theorem corr_iff_perm {f : α → γ} {g : β → γ} {as : List α} {bs : List β} :
    Corr (fun a b => f a = g b) as bs ↔ (as.map f).Perm (bs.map g) := by
  constructor
  · rintro ⟨cs, hf, hp⟩
    refine List.Perm.trans (.of_eq ?_) (hp.map g)
    rw [← List.forall₂_eq_eq_eq, List.forall₂_map_left_iff, List.forall₂_map_right_iff]
    exact hf
  · intro h
    have hbs : List.Forall₂ (fun c b => c = g b) (bs.map g) bs := by
      rw [List.forall₂_map_left_iff, List.forall₂_same]
      exact fun _ _ => rfl
    obtain ⟨cs, hf, hp⟩ := List.perm_comp_forall₂ h hbs
    exact ⟨cs, List.forall₂_map_left_iff.mp hf, hp⟩

namespace Corr

variable {R : α → β → Prop} {as : List α} {bs : List β}

theorem perm_map (h : Corr R as bs) {f : α → γ} {g : β → γ} (hR : ∀ a ∈ as, ∀ b, R a b → f a = g b) :
    (as.map f).Perm (bs.map g) :=
  corr_iff_perm.mp (h.imp hR)

theorem imp_of_mem {S : α → β → Prop} (h : Corr R as bs) (hRS : ∀ a ∈ as, ∀ b ∈ bs, R a b → S a b) : Corr S as bs := by
  have hmem : Corr (fun a b => R a b ∧ b ∈ bs) as bs := (h.symm.imp fun _ hb _ hab => And.intro hab hb).symm
  exact hmem.imp fun a ha b hab => hRS a ha b hab.2 hab.1

theorem filter (h : Corr R as bs) {p : α → Bool} {q : β → Bool} (hR : ∀ a ∈ as, ∀ b, R a b → p a = q b) :
    Corr R (as.filter p) (bs.filter q) := by
  obtain ⟨cs, hf, hp⟩ := h
  refine ⟨cs.filter q, ?_, hp.filter q⟩
  clear hp
  induction hf with
  | nil => exact .nil
  | @cons a b as cs hab _ ih =>
    have hrest := ih fun a ha => hR a (List.mem_cons_of_mem _ ha)
    rw [List.filter_cons, List.filter_cons, hR a List.mem_cons_self b hab]
    split
    · exact .cons hab hrest
    · exact hrest

end Corr

namespace Expr

/-! ## What gathering keeps -/

@[simp] theorem sign_gathered (e : Expr) : e.gathered.sign = e.sign := by rw [gathered_eq]

theorem gathered_eq_iff {a b : Expr} : a.gathered = b.gathered ↔ a.sign = b.sign ∧ a.Akin b := by
  constructor
  · intro h
    exact ⟨by rw [← sign_gathered a, h, sign_gathered], congrArg shape h⟩
  · rintro ⟨hs, h⟩
    have hmk : ∀ e : Expr, e.gathered = ⟨e.sign, e.gathered.shape, none⟩ := fun e => by rw [gathered_eq]
    rw [hmk a, hmk b, hs, h]

theorem akin_iff_core {a b : Expr} : a.Akin b ↔ a.core = b.core := by
  have hcore : ∀ e : Expr, e.core = ⟨.pos, e.gathered.shape, none⟩ := fun e => by rw [core, gathered_eq]; rfl
  rw [hcore, hcore, mk.injEq]
  simp [Akin]

/-- Lists are akin in some order just if they have the same cores in some order. -/
theorem corr_akin_iff {as bs : List Expr} : Corr Akin as bs ↔ (as.map core).Perm (bs.map core) := by
  have hcore : Akin = fun a b => a.core = b.core := by
    funext a b
    exact propext akin_iff_core
  rw [hcore, corr_iff_perm]

theorem number?_of_shape {a b : Expr} (h : a.shape = b.shape) : a.number? = b.number? := by
  rw [number?, number?, h]

@[simp] theorem number?_gathered (e : Expr) : e.gathered.number? = e.number? := by
  rw [gathered_eq]
  obtain ⟨s, b, c⟩ := e
  cases b <;> rfl

@[simp] theorem gathered_bare (e : Expr) : e.bare.gathered = e.gathered := by
  induction e using Expr.induction with
  | h e ih =>
    rw [gathered_eq, gathered_eq e, shape_bare, Shape.map_map, sign_bare]
    exact congrArg (Expr.mk _ · none) (congrArg Shape.gather (Shape.map_congr ih))

end Expr

/-! ## Sorting what is bare -/

open Isolate.Expr (bare)

theorem map_bare_sortFactors {es : List Expr} (h : ∀ e ∈ es, e.bare = e) : (sortFactors es).map bare = sortFactors es := by
  rw [← Monomial.sortFactors_bare, List.map_congr_left h, List.map_id']

/-- Bare lists are the same once they are sorted just if they are the same up to order. -/
theorem sortFactors_eq_iff {as bs : List Expr} (ha : ∀ a ∈ as, a.bare = a) (hb : ∀ b ∈ bs, b.bare = b) :
    sortFactors as = sortFactors bs ↔ as.Perm bs := by
  constructor
  · intro h
    exact (List.mergeSort_perm as _).symm.trans (.trans (.of_eq h) (List.mergeSort_perm bs _))
  · intro h
    rw [← map_bare_sortFactors ha, ← map_bare_sortFactors hb]
    exact Monomial.sortFactors_congr (h.map bare)

theorem Ratio.bare_gather {t : Ratio Expr} (h : ∀ e ∈ t.factors, e.bare = e) : t.gather.bare = t.gather := by
  have habs : ∀ es : List Expr, (∀ e ∈ es, e ∈ t.factors) → ∀ a ∈ es.map Expr.abs, a.bare = a := by
    intro es hes a ha
    obtain ⟨e, he, rfl⟩ := List.mem_map.mp ha
    rw [← Expr.bare_abs, h e (hes e he)]
  rw [gather, Expr.bare_mk]
  simp only [Shape.map, map, List.map_cons, List.map_nil]
  rw [map_bare_sortFactors (habs _ fun e he => List.mem_append_left _ he),
    map_bare_sortFactors (habs _ fun e he => List.mem_append_right _ he)]

namespace Expr

/-- Nothing of an analysis is left. -/
theorem bare_gathered (e : Expr) : e.gathered.bare = e.gathered := by
  induction e using Expr.induction with
  | h e ih =>
    have hmap : (e.shape.map gathered).map bare = e.shape.map gathered := by
      rw [Shape.map_map]
      exact Shape.map_congr ih
    rw [gathered_eq, bare_mk]
    refine congrArg (Expr.mk _ · none) ?_
    cases hb : e.shape with
    | sum ts =>
      have hterm : ∀ a ∈ (ts.map (Ratio.map gathered)).map Ratio.gather, a.bare = a := by
        intro a ha
        rw [List.map_map] at ha
        obtain ⟨t, ht, rfl⟩ := List.mem_map.mp ha
        refine Ratio.bare_gather fun c hc => ?_
        rw [Ratio.factors_map] at hc
        obtain ⟨d, hd, rfl⟩ := List.mem_map.mp hc
        exact ih d (by rw [children, hb]; exact List.mem_flatMap.mpr ⟨t, ht, hd⟩)
      simp only [Shape.map, Shape.gather, List.map_map]
      rw [← map_bare_sortFactors (by rwa [List.map_map] at hterm), List.map_map]
      simp [Function.comp_def, Ratio.of, Ratio.map]
    | _ => rw [hb] at hmap; exact hmap

/-! ## Sums -/

theorem akin_eq_iff {a b : Expr} : a.Akin b ↔ (a.shape.map gathered).gather = (b.shape.map gathered).gather := by
  rw [Akin, gathered_eq, gathered_eq b]

end Expr

/-- The same sign in front, and factors that are akin in some order. -/
def Ratio.Akin (t u : Ratio Expr) : Prop := t.front = u.front ∧ t.Corr Expr.Akin u

/-! ## Products -/

namespace Ratio

variable {t u : Ratio Expr}

/-- What is done to the factors keeps the sign if it keeps theirs. -/
theorem sign_map {f : Expr → Expr} (h : ∀ e ∈ t.factors, (f e).sign = e.sign) : (t.map f).sign = t.sign := by
  rw [sign_eq_prod, sign_eq_prod, factors_map, List.map_map]
  exact congrArg List.prod (List.map_congr_left h)

theorem sign_eq_of_corr (h : t.Corr (fun x y => x.sign = y.sign) u) : t.sign = u.sign := by
  rw [sign_eq_prod, sign_eq_prod]
  exact (h.factors.perm_map fun _ _ _ hxy => hxy).prod_eq

theorem vanishes_map_gathered : (t.map Expr.gathered).Vanishes ↔ t.Vanishes := by
  simp [Vanishes, map, factors]

theorem front_map_gathered (t : Ratio Expr) : (t.map Expr.gathered).front = t.front := by
  simp only [front, vanishes_map_gathered, sign_map fun e _ => Expr.sign_gathered e]

/-- Terms gather to the same just if they are akin. -/
theorem gather_eq_iff : (t.map Expr.gathered).gather = (u.map Expr.gathered).gather ↔ t.Akin u := by
  have hbare : ∀ es : List Expr, ∀ a ∈ es.map Expr.core, a.bare = a := by
    intro es a ha
    obtain ⟨e, -, rfl⟩ := List.mem_map.mp ha
    rw [Expr.core, ← Expr.bare_abs, Expr.bare_gathered]
  have habs : Expr.abs ∘ Expr.gathered = Expr.core := rfl
  rw [gather, gather, front_map_gathered, front_map_gathered, Expr.mk.injEq, Shape.sum.injEq, Akin, Ratio.Corr,
    Expr.corr_akin_iff, Expr.corr_akin_iff]
  simp only [map, List.map_map, habs, List.cons.injEq, and_true, mk.injEq]
  rw [sortFactors_eq_iff (hbare _) (hbare _), sortFactors_eq_iff (hbare _) (hbare _)]

end Ratio

namespace Expr

variable {a b : Expr}

/-- **Sums are akin just if their terms are, in some order.** -/
theorem akin_sum {s s' : Sign} {ts us : List (Ratio Expr)} {c c' : Option Summary} :
    (⟨s, .sum ts, c⟩ : Expr).Akin ⟨s', .sum us, c'⟩ ↔ Corr Ratio.Akin ts us := by
  have hbare : ∀ ts : List (Ratio Expr), ∀ a ∈ ts.map fun t => (t.map gathered).gather, a.bare = a := by
    intro ts a ha
    obtain ⟨t, -, rfl⟩ := List.mem_map.mp ha
    refine Ratio.bare_gather fun e he => ?_
    rw [Ratio.factors_map] at he
    obtain ⟨d, -, rfl⟩ := List.mem_map.mp he
    exact bare_gathered d
  have hof : Function.Injective (List.map (Ratio.of (α := Expr))) :=
    List.map_injective_iff.mpr fun a b h => by simpa [Ratio.of] using h
  simp only [akin_eq_iff, Shape.map, Shape.gather, Shape.sum.injEq, hof.eq_iff, List.map_map, Function.comp_def]
  rw [sortFactors_eq_iff (hbare ts) (hbare us), ← corr_iff_perm]
  simp only [Ratio.gather_eq_iff]

/-- What is akin to a sum is a sum. -/
theorem Akin.sum (h : a.Akin b) {ts : List (Ratio Expr)} (ha : a.shape = .sum ts) :
    ∃ us, b.shape = .sum us ∧ Corr Ratio.Akin ts us := by
  obtain ⟨s, p, c⟩ := a
  obtain ⟨s', r, c'⟩ := b
  obtain rfl : p = .sum ts := ha
  cases r with
  | sum us => exact ⟨us, rfl, akin_sum.mp h⟩
  | _ => simp [akin_eq_iff, Shape.map, Shape.gather] at h

/-- Below nodes that are no sums, signs and order count. -/
theorem Akin.map_eq (h : a.Akin b) (ha : ∀ ts, a.shape ≠ .sum ts) : a.shape.map gathered = b.shape.map gathered := by
  rw [akin_eq_iff] at h
  obtain ⟨s, p, c⟩ := a
  obtain ⟨s', r, c'⟩ := b
  cases p with
  | sum ts => exact absurd rfl (ha ts)
  | _ => cases r <;> simp_all [Shape.map, Shape.gather]

theorem akin_of_map_eq (h : a.shape.map gathered = b.shape.map gathered) : a.Akin b := by rw [akin_eq_iff, h]

theorem akin_of_shape (h : a.shape = b.shape) : a.Akin b := akin_of_map_eq (congrArg _ h)

theorem akin_abs_iff : a.abs.Akin b.abs ↔ a.Akin b := by
  rw [akin_eq_iff, akin_eq_iff]
  rfl

theorem Akin.refl (a : Expr) : a.Akin a := rfl

theorem Akin.symm (h : a.Akin b) : b.Akin a := Eq.symm h

theorem corr_akin_refl (es : List Expr) : Corr Akin es es := corr_akin_iff.mpr (.refl _)

/-- The sign of a factor does not matter. -/
theorem corr_akin_cons {es : List Expr} (h : a.shape = b.shape) : Corr Akin (a :: es) (b :: es) := by
  rw [corr_akin_iff, List.map_cons, List.map_cons, akin_iff_core.mp (akin_of_shape h)]

theorem Akin.number? (h : a.Akin b) : a.number? = b.number? := by
  rw [← number?_gathered a, ← number?_gathered b]
  exact number?_of_shape h

theorem Akin.termCount? (h : a.Akin b) : a.termCount? = b.termCount? := by
  cases ha : a.termCount? with
  | some n =>
    obtain ⟨ts, hts, rfl⟩ := termCount?_eq_some.mp ha
    obtain ⟨us, hus, hc⟩ := h.sum hts
    exact (termCount?_eq_some.mpr ⟨us, hus, hc.length_eq.symm⟩).symm
  | none =>
    cases hb : b.termCount? with
    | none => rfl
    | some n =>
      obtain ⟨us, hus, -⟩ := termCount?_eq_some.mp hb
      obtain ⟨ts, hts, -⟩ := h.symm.sum hus
      rw [termCount?_eq_some.mpr ⟨ts, hts, rfl⟩] at ha
      cases ha

end Expr

/-! ## Signs in front -/

namespace Ratio

variable {t u : Ratio Expr}

theorem exists_zero_of_corr (h : t.Corr Expr.Akin u) :
    (∃ e ∈ t.numerator, e.number? = some 0) ↔ ∃ e ∈ u.numerator, e.number? = some 0 := by
  rw [← List.mem_map, ← List.mem_map]
  exact (h.1.perm_map fun a _ b hab => Expr.Akin.number? hab).mem_iff

theorem vanishes_of_corr (h : t.Corr Expr.Akin u) : t.Vanishes ↔ u.Vanishes := by
  rw [Vanishes, Vanishes, h.factors.length_eq, exists_zero_of_corr h]

theorem front_of_not_vanishes (h : ¬t.Vanishes) : t.front = t.sign := if_neg h

/-- Products whose factors are akin are akin themselves if they vanish or have the same sign. -/
theorem akin_of_sign (h : t.Corr Expr.Akin u) (hs : ¬t.Vanishes → t.sign = u.sign) : t.Akin u := by
  refine ⟨?_, h⟩
  by_cases hv : t.Vanishes
  · rw [front, front, if_pos hv, if_pos ((vanishes_of_corr h).mp hv)]
  · rw [front_of_not_vanishes hv, front_of_not_vanishes (mt (vanishes_of_corr h).mpr hv), hs hv]

theorem Akin.sign_eq (h : t.Akin u) (hv : ¬t.Vanishes) : t.sign = u.sign := by
  rw [← front_of_not_vanishes hv, h.1, front_of_not_vanishes (mt (vanishes_of_corr h.2).mpr hv)]

theorem sign_of (e : Expr) : (of e).sign = e.sign := by simp [sign_eq_prod, of, factors]

theorem not_vanishes_of (e : Expr) : ¬(of e).Vanishes := fun h => h.1 rfl

theorem akin_of {a b : Expr} : (of a).Akin (of b) ↔ a.sign = b.sign ∧ a.Akin b := by
  have hcorr : (of a).Corr Expr.Akin (of b) ↔ a.Akin b := by simp [Ratio.Corr, of, Corr.singleton_iff, Corr.nil_iff]
  rw [Ratio.Akin, hcorr, front_of_not_vanishes (not_vanishes_of a), front_of_not_vanishes (not_vanishes_of b), sign_of,
    sign_of]

end Ratio

/-! ## Passes -/

theorem map_eq_of_map_eq {f : α → γ} {f' : β → γ} {g : α → δ} {g' : β → δ} {as : List α} {bs : List β}
    (h : as.map f = bs.map f') (hg : ∀ a ∈ as, ∀ b ∈ bs, f a = f' b → g a = g' b) : as.map g = bs.map g' := by
  induction as generalizing bs with
  | nil => rw [List.map_eq_nil_iff.mp h.symm]; rfl
  | cons a as ih =>
    obtain ⟨b, bs, rfl, hab, hbs⟩ := List.map_eq_cons_iff.mp h.symm
    rw [List.map_cons, List.map_cons, hg a List.mem_cons_self b List.mem_cons_self hab.symm,
      ih hbs.symm fun c hc d hd => hg c (List.mem_cons_of_mem _ hc) d (List.mem_cons_of_mem _ hd)]

/-- Shapes that are the same by one key of their operands are so by any key that this one decides. -/
theorem Shape.map_eq_of_map_eq {f : α → γ} {f' : β → γ} {g : α → δ} {g' : β → δ} {b : Shape α} {c : Shape β}
    (h : b.map f = c.map f') (hg : ∀ x ∈ b.children, ∀ y ∈ c.children, f x = f' y → g x = g' y) :
    b.map g = c.map g' := by
  unfold children at hg
  cases b <;> cases c <;> simp only [map, reduceCtorEq] at h ⊢
  case number.number => exact congrArg number (number.inj h)
  case var.var => exact congrArg var (var.inj h)
  case power.power =>
    obtain ⟨h1, h2⟩ := power.inj h
    rw [hg _ (by simp) _ (by simp) h1, hg _ (by simp) _ (by simp) h2]
  case modulo.modulo =>
    obtain ⟨h1, h2⟩ := modulo.inj h
    rw [hg _ (by simp) _ (by simp) h1, hg _ (by simp) _ (by simp) h2]
  case factorial.factorial => rw [hg _ (by simp) _ (by simp) (factorial.inj h)]
  case call.call =>
    obtain ⟨hn, has⟩ := call.inj h
    rw [hn, Isolate.map_eq_of_map_eq has hg]
  case sum.sum ts us =>
    refine congrArg sum (Isolate.map_eq_of_map_eq (sum.inj h) fun t ht u hu htu => ?_)
    obtain ⟨hn, hd⟩ := Ratio.mk.inj htu
    have hfactor : ∀ x ∈ t.factors, ∀ y ∈ u.factors, f x = f' y → g x = g' y := fun x hx y hy =>
      hg x (List.mem_flatMap.mpr ⟨t, ht, hx⟩) y (List.mem_flatMap.mpr ⟨u, hu, hy⟩)
    rw [Ratio.map, Ratio.map,
      Isolate.map_eq_of_map_eq hn fun x hx y hy => hfactor x (List.mem_append_left _ hx) y (List.mem_append_left _ hy),
      Isolate.map_eq_of_map_eq hd fun x hx y hy => hfactor x (List.mem_append_right _ hx) y (List.mem_append_right _ hy)]

namespace Expr

variable {f g : Expr → Expr} {a b : Expr}

/-- The step leaves every node that is no sum. -/
def IsOfSums (f : Expr → Expr) : Prop := ∀ e : Expr, (∀ ts, e.shape ≠ .sum ts) → f e = e

theorem IsBottomUp.eq_of_not_sum (hg : IsBottomUp f g) (hf : IsOfSums f) (ha : ∀ ts, a.shape ≠ .sum ts) :
    ∃ c, g a = ⟨a.sign, a.shape.map g, c⟩ := by
  obtain ⟨c, hc⟩ := hg a
  refine ⟨c, hc.trans (hf _ fun ts hts => ?_)⟩
  obtain ⟨s, b, c⟩ := a
  cases b with
  | sum us => exact ha us rfl
  | _ => cases hts

/-- A step that looks at sums only leaves the sign and the operator of any other node. -/
theorem IsBottomUp.akin_of_map_eq (hg : IsBottomUp f g) (hf : IsOfSums f) (ha : ∀ ts, a.shape ≠ .sum ts)
    (hb : ∀ ts, b.shape ≠ .sum ts) (h : (a.shape.map g).map gathered = (b.shape.map g).map gathered) :
    (g a).Akin (g b) ∧ (g a).sign = a.sign ∧ (g b).sign = b.sign := by
  obtain ⟨c, hga⟩ := hg.eq_of_not_sum hf ha
  obtain ⟨d, hgb⟩ := hg.eq_of_not_sum hf hb
  rw [hga, hgb]
  exact ⟨Expr.akin_of_map_eq h, rfl, rfl⟩

theorem Akin.not_sum (h : a.Akin b) (ha : ∀ ts, a.shape ≠ .sum ts) : ∀ ts, b.shape ≠ .sum ts := fun ts hts => by
  obtain ⟨us, hus, -⟩ := h.symm.sum hts
  exact ha us hus

/-- Below akin nodes that are no sums, a pass need only make akin operands of akin ones, and keep equal signs equal. -/
theorem IsBottomUp.akin_of_not_sum (hg : IsBottomUp f g) (hf : IsOfSums f) (h : a.Akin b) (ha : ∀ ts, a.shape ≠ .sum ts)
    (hc : ∀ x ∈ a.children, ∀ y ∈ b.children, x.Akin y → x.sign = y.sign →
      (g x).Akin (g y) ∧ (g x).sign = (g y).sign) :
    (g a).Akin (g b) ∧ (g a).sign = a.sign ∧ (g b).sign = b.sign := by
  refine hg.akin_of_map_eq hf ha (h.not_sum ha) ?_
  rw [Shape.map_map, Shape.map_map]
  refine Shape.map_eq_of_map_eq (h.map_eq ha) fun x hx y hy hxy => ?_
  obtain ⟨hs, hakin⟩ := gathered_eq_iff.mp hxy
  obtain ⟨hakin, hs⟩ := hc x hx y hy hakin hs
  exact gathered_eq_iff.mpr ⟨hs, hakin⟩

end Expr

theorem Ratio.corr_imp_of_mem {R S : α → β → Prop} {t : Ratio α} {u : Ratio β} (h : t.Corr R u)
    (hRS : ∀ x ∈ t.factors, ∀ y ∈ u.factors, R x y → S x y) : t.Corr S u :=
  ⟨h.1.imp_of_mem fun x hx y hy => hRS x (List.mem_append_left _ hx) y (List.mem_append_left _ hy),
    h.2.imp_of_mem fun x hx y hy => hRS x (List.mem_append_right _ hx) y (List.mem_append_right _ hy)⟩

theorem Ratio.corr_map {R : γ → δ → Prop} {f : α → γ} {g : β → δ} {t : Ratio α} {u : Ratio β}
    (h : t.Corr (fun x y => R (f x) (g y)) u) : (t.map f).Corr R (u.map g) :=
  ⟨h.1.map fun _ _ h => h, h.2.map fun _ _ h => h⟩

end Isolate
