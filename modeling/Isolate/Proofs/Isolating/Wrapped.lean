import Isolate.Proofs.Isolating.Variables
import Isolate.Proofs.Meaning.Terms
import Isolate.Proofs.Settling.Flat
import Isolate.Proofs.Settling.Neutral
import Isolate.Proofs.Settling.Reduce

/-!
# Variables in wrappings

A tree *wraps* a variable if it is the variable, a call with one argument that wraps it, or a sum with one term that has
a wrapping among its factors, where all else is numbers, and no number but a term is zero (`Expr.Wraps`). The one item
of a list that is unlike the others is kept track of by `Lone`.

* `Expr.Wraps.tidy`: a round keeps the wrapping of a variable, whatever it does to signs, fractions and nested sums.
  Each of its four steps does; the term that holds the variable is never added up with numbers, as it has a factor more.
-/

namespace Isolate

/-! ## One item among others -/

/-- One item has the first property, and all others have the second one. -/
inductive Lone (P Q : α → Prop) : List α → Prop
  | here {a : α} {as : List α} (ha : P a) (has : ∀ b ∈ as, Q b) : Lone P Q (a :: as)
  | there {a : α} {as : List α} (ha : Q a) (has : Lone P Q as) : Lone P Q (a :: as)

namespace Lone

variable {P Q : α → Prop} {P' Q' : β → Prop} {as bs : List α} {a : α}

theorem singleton : Lone P Q [a] ↔ P a := by
  refine ⟨fun h => ?_, fun h => .here h (List.forall_mem_nil _)⟩
  cases h with
  | here ha => exact ha
  | there _ has => cases has

theorem or_of_mem (h : Lone P Q as) (ha : a ∈ as) : P a ∨ Q a := by
  induction h with
  | here hb hbs =>
    rcases List.mem_cons.mp ha with rfl | ha
    · exact .inl hb
    · exact .inr (hbs a ha)
  | there hb _ ih =>
    rcases List.mem_cons.mp ha with rfl | ha
    · exact .inr hb
    · exact ih ha

/-- What tells the one item from the others leaves nothing else. -/
theorem filter_eq {p : α → Bool} (hp : ∀ a, P a → p a = true) (hq : ∀ a, Q a → p a = false) (h : Lone P Q as) :
    ∃ a, as.filter p = [a] ∧ P a := by
  induction h with
  | @here a as ha has =>
    refine ⟨a, ?_, ha⟩
    rw [List.filter_cons_of_pos (hp a ha), List.filter_eq_nil_iff.mpr fun b hb => by simp [hq b (has b hb)]]
  | there ha _ ih =>
    rw [List.filter_cons_of_neg (by simp [hq _ ha])]
    exact ih

theorem ne_nil (h : Lone P Q as) : as ≠ [] := by
  cases h <;> exact List.cons_ne_nil _ _

theorem exists_eq (h : Lone P Q as) : ∃ a ∈ as, P a ∧ Lone (· = a) Q as := by
  induction h with
  | here ha has => exact ⟨_, List.mem_cons_self, ha, .here rfl has⟩
  | there ha _ ih =>
    obtain ⟨b, hb, hpb, hlone⟩ := ih
    exact ⟨b, List.mem_cons_of_mem _ hb, hpb, .there ha hlone⟩

/-- Besides the one item, a list of two items or more has another one. -/
theorem exists_other (h : Lone P Q as) (hlen : 2 ≤ as.length) : ∃ b ∈ as, Q b := by
  cases h with
  | @here a as ha has =>
    cases as with
    | nil => simp at hlen
    | cons b bs => exact ⟨b, by simp, has b List.mem_cons_self⟩
  | there ha => exact ⟨_, List.mem_cons_self, ha⟩

theorem map {f : α → β} (hP : ∀ a, P a → P' (f a)) (hQ : ∀ a, Q a → Q' (f a)) (h : Lone P Q as) :
    Lone P' Q' (as.map f) := by
  induction h with
  | here ha has => exact .here (hP _ ha) (List.forall_mem_map.mpr fun b hb => hQ b (has b hb))
  | there ha _ ih => exact .there (hQ _ ha) ih

theorem imp {P' Q' : α → Prop} (hP : ∀ a, P a → P' a) (hQ : ∀ a, Q a → Q' a) (h : Lone P Q as) : Lone P' Q' as := by
  have := h.map (f := id) hP hQ
  rwa [List.map_id] at this

theorem append_right (h : Lone P Q as) (hbs : ∀ b ∈ bs, Q b) : Lone P Q (as ++ bs) := by
  induction h with
  | here ha has => exact .here ha (List.forall_mem_append.mpr ⟨has, hbs⟩)
  | there ha _ ih => exact .there ha ih

theorem append_left (hbs : ∀ b ∈ bs, Q b) (h : Lone P Q as) : Lone P Q (bs ++ as) := by
  induction bs with
  | nil => exact h
  | cons b bs ih =>
    obtain ⟨hb, hbs⟩ := List.forall_mem_cons.mp hbs
    exact .there hb (ih hbs)

theorem flatMap {f : α → List β} (hP : ∀ a, P a → Lone P' Q' (f a)) (hQ : ∀ a, Q a → ∀ b ∈ f a, Q' b)
    (h : Lone P Q as) : Lone P' Q' (as.flatMap f) := by
  induction h with
  | here ha has =>
    refine (hP _ ha).append_right fun c hc => ?_
    obtain ⟨b, hb, hc⟩ := List.mem_flatMap.mp hc
    exact hQ b (has b hb) c hc
  | there ha _ ih => exact ih.append_left (hQ _ ha)

theorem filter {p : α → Bool} (hp : ∀ a, P a → p a = true) (h : Lone P Q as) : Lone P Q (as.filter p) := by
  induction h with
  | here ha has =>
    rw [List.filter_cons_of_pos (hp _ ha)]
    exact .here ha fun b hb => has b (List.mem_filter.mp hb).1
  | there ha _ ih =>
    rw [List.filter_cons]
    split
    · exact .there ha ih
    · exact ih

end Lone

/-! ## Wrappings -/

/-- The expression is a number. -/
def Expr.IsNumeral (e : Expr) : Prop := ∃ v, e.shape = .number v

/-- The expression is a number other than zero. -/
def Expr.IsNonzero (e : Expr) : Prop := ∃ v, e.shape = .number v ∧ v ≠ 0

namespace Expr

variable {a b : Expr}

theorem IsNonzero.isNumeral (h : a.IsNonzero) : a.IsNumeral := h.imp fun _ => And.left

theorem IsNumeral.of_shape (h : a.IsNumeral) (hs : a.shape = b.shape) : b.IsNumeral := by rwa [IsNumeral, ← hs]

theorem IsNonzero.of_shape (h : a.IsNonzero) (hs : a.shape = b.shape) : b.IsNonzero := by rwa [IsNonzero, ← hs]

theorem IsNonzero.divisor?_isNone (h : a.IsNonzero) : a.divisor?.isNone = false := by
  obtain ⟨v, hv, h0⟩ := h
  rw [divisor?, number?, hv]
  simp [h0]

theorem IsNumeral.termCount? (h : a.IsNumeral) : a.termCount? = none := by
  obtain ⟨v, hv⟩ := h
  rw [Expr.termCount?, hv]

end Expr

namespace Ratio

/-- A term of numbers, none of them zero below the bar. -/
structure IsConstant (t : Ratio Expr) : Prop where
  numerator : ∀ e ∈ t.numerator, e.IsNumeral
  denominator : ∀ e ∈ t.denominator, e.IsNonzero

theorem IsConstant.isNumeral {t : Ratio Expr} (h : t.IsConstant) : ∀ e ∈ t.factors, e.IsNumeral :=
  List.forall_mem_append.mpr ⟨h.numerator, fun e he => (h.denominator e he).isNumeral⟩

/-- One factor of the numerator has the property, and the other factors are numbers other than zero. -/
structure Carries (P : Expr → Prop) (t : Ratio Expr) : Prop where
  numerator : Lone P Expr.IsNonzero t.numerator
  denominator : ∀ e ∈ t.denominator, e.IsNonzero

end Ratio

namespace Expr

/-- The expression is the variable within operations that can be undone. The term of a sum and its factor that hold the
variable are named, so that an induction goes on at the factor. -/
inductive Wraps (x : String) : Expr → Prop
  | var {e : Expr} (hshape : e.shape = .var x) : Wraps x e
  | call {e a : Expr} {name : String} (hshape : e.shape = .call name [a]) (ha : Wraps x a) : Wraps x e
  | sum {e a : Expr} {t : Ratio Expr} {ts : List (Ratio Expr)} (hshape : e.shape = .sum ts)
      (hts : Lone (· = t) Ratio.IsConstant ts) (ht : t.Carries (· = a)) (ha : Wraps x a) : Wraps x e

variable {x : String} {e a b : Expr} {t : Ratio Expr} {ts : List (Ratio Expr)} {P : Expr → Prop}

theorem Wraps.of_shape (h : a.Wraps x) (hs : a.shape = b.shape) : b.Wraps x := by
  cases h with
  | var hshape => exact .var (hs ▸ hshape)
  | call hshape ha => exact .call (hs ▸ hshape) ha
  | sum hshape hts ht ha => exact .sum (hs ▸ hshape) hts ht ha

theorem Wraps.not_numeral (h : e.Wraps x) : ¬e.IsNumeral := by
  rintro ⟨v, hv⟩
  cases h with
  | var hshape => rw [hshape] at hv; cases hv
  | call hshape => rw [hshape] at hv; cases hv
  | sum hshape => rw [hshape] at hv; cases hv

theorem Wraps.number? (h : e.Wraps x) : e.number? = none := by
  unfold Expr.number?
  split
  · rename_i v hv
    exact absurd ⟨v, hv⟩ h.not_numeral
  · rfl

/-- A sum wraps the variable if one of its terms does and the others are constant. -/
theorem wraps_sum (hshape : e.shape = .sum ts) : e.Wraps x ↔ Lone (Ratio.Carries (Wraps x)) Ratio.IsConstant ts := by
  constructor
  · intro h
    cases h with
    | var hs => rw [hshape] at hs; cases hs
    | call hs => rw [hshape] at hs; cases hs
    | @sum e a t us hs hts ht ha =>
      rw [hshape] at hs
      cases hs
      refine hts.imp (fun u hu => ?_) fun _ => id
      subst hu
      exact ⟨ht.numerator.imp (fun b hb => by rw [hb]; exact ha) fun _ => id, ht.denominator⟩
  · intro h
    obtain ⟨t, -, ⟨hn, hd⟩, hts⟩ := h.exists_eq
    obtain ⟨a, -, ha, hlone⟩ := hn.exists_eq
    exact .sum hshape hts ⟨hlone, hd⟩ ha

/-- The other variables do not occur in a wrapping. -/
theorem Wraps.hasOnly (h : e.Wraps x) : e.HasOnly x := by
  intro n hn
  have hnumeral : ∀ {b : Expr}, b.IsNumeral → b.Avoids n := fun ⟨_, hv⟩ => avoids_of_number hv
  induction h with
  | var hshape =>
    refine avoids_iff.mpr ⟨by rw [hshape]; simpa using hn.symm, fun b hb => ?_⟩
    rw [children, hshape] at hb
    cases hb
  | call hshape ha ih =>
    refine avoids_iff.mpr ⟨by simp [hshape], fun b hb => ?_⟩
    rw [children, hshape] at hb
    rw [List.mem_singleton.mp hb]
    exact ih
  | @sum e a t ts hshape hts ht ha ih =>
    refine avoids_iff.mpr ⟨by simp [hshape], fun b hb => ?_⟩
    rw [children, hshape] at hb
    obtain ⟨u, hu, hb⟩ := List.mem_flatMap.mp hb
    rcases hts.or_of_mem hu with rfl | hu
    · rcases List.mem_append.mp hb with hb | hb
      · rcases ht.numerator.or_of_mem hb with rfl | hb
        · exact ih
        · exact hnumeral hb.isNumeral
      · exact hnumeral (ht.denominator b hb).isNumeral
    · exact hnumeral (hu.isNumeral b hb)

/-- The variable itself does occur. -/
theorem Wraps.not_avoids (h : e.Wraps x) : ¬e.Avoids x := by
  intro hno
  induction h with
  | var hshape => exact (avoids_iff.mp hno).1 hshape
  | call hshape ha ih => exact ih ((avoids_iff.mp hno).2 _ (by simp [children, hshape, Shape.children]))
  | sum hshape hts ht ha ih =>
    obtain ⟨u, hu, rfl, -⟩ := hts.exists_eq
    obtain ⟨b, hb, rfl, -⟩ := ht.numerator.exists_eq
    exact ih ((avoids_iff.mp hno).2 b (by
      rw [children, hshape]
      exact List.mem_flatMap.mpr ⟨u, hu, List.mem_append_left _ hb⟩))

/-! ## Passes -/

variable {f g : Expr → Expr}

theorem flattenStep_of_not_sum (e : Expr) (h : ∀ ts, e.shape ≠ .sum ts) : flattenStep e = e := by
  cases hb : e.shape <;> simp_all [flattenStep]

theorem reduceStep_of_not_sum (e : Expr) (h : ∀ ts, e.shape ≠ .sum ts) : reduceStep e = e := by
  cases hb : e.shape <;> simp_all [reduceStep]

theorem dropUnits_of_not_sum (e : Expr) (h : ∀ ts, e.shape ≠ .sum ts) : dropUnits e = e := by
  cases hb : e.shape <;> simp_all [dropUnits]

theorem neutralStep_of_not_sum (e : Expr) (h : ∀ ts, e.shape ≠ .sum ts) : neutralStep e = e := by
  cases hb : e.shape <;> simp_all [neutralStep]

/-- A pass keeps wrappings if its step keeps those of sums, and leaves all other nodes. -/
theorem IsBottomUp.wraps (hg : IsBottomUp f g) (hother : ∀ e : Expr, (∀ ts, e.shape ≠ .sum ts) → f e = e)
    (hsum : ∀ {s : Sign} {ts : List (Ratio Expr)} {c : Option Summary},
      Lone (Ratio.Carries (Wraps x)) Ratio.IsConstant ts → (f ⟨s, .sum ts, c⟩).Wraps x)
    (h : e.Wraps x) : (g e).Wraps x := by
  -- numbers are left by every pass, so all that does not hold the variable stays what it is
  have hnumber : ∀ {b : Expr} {v : Rat}, b.shape = .number v → (g b).shape = .number v := by
    intro b v hv
    obtain ⟨c, hc⟩ := hg b
    rw [hc, hv, hother _ (by simp [Shape.map])]
    rfl
  have hnumeral : ∀ b : Expr, b.IsNumeral → (g b).IsNumeral := fun b ⟨v, hv⟩ => ⟨v, hnumber hv⟩
  have hnonzero : ∀ b : Expr, b.IsNonzero → (g b).IsNonzero := fun b ⟨v, hv, h0⟩ => ⟨v, hnumber hv, h0⟩
  induction h with
  | @var e hshape =>
    obtain ⟨c, hc⟩ := hg e
    rw [hc, hshape, hother _ (by simp [Shape.map])]
    exact .var rfl
  | @call e a name hshape ha ih =>
    obtain ⟨c, hc⟩ := hg e
    rw [hc, hshape, hother _ (by simp [Shape.map])]
    exact .call rfl ih
  | @sum e a t ts hshape hts ht ha ih =>
    obtain ⟨c, hc⟩ := hg e
    rw [hc, hshape]
    refine hsum (hts.map (fun u hu => ?_) fun u hu => ?_)
    · rw [hu]
      exact ⟨ht.numerator.map (fun b hb => by rw [hb]; exact ih) hnonzero,
        List.forall_mem_map.mpr fun b hb => hnonzero b (ht.denominator b hb)⟩
    · exact ⟨List.forall_mem_map.mpr fun b hb => hnumeral b (hu.numerator b hb),
        List.forall_mem_map.mpr fun b hb => hnonzero b (hu.denominator b hb)⟩

theorem Wraps.analyze (h : e.Wraps x) : e.analyze.Wraps x :=
  IsBottomUp.wraps (f := id) (fun e => ⟨_, analyze_eq e⟩) (fun _ _ => rfl) (fun hts => (wraps_sum rfl).mpr hts) h

end Expr

/-! ## Flattening -/

namespace Ratio

variable {x : String} {t : Ratio Expr} {e : Expr}

theorem Carries.of (h : e.Wraps x) : (of e).Carries (Expr.Wraps x) :=
  ⟨.here h (List.forall_mem_nil _), List.forall_mem_nil _⟩

theorem Carries.neg (h : t.Carries (Expr.Wraps x)) : t.neg.Carries (Expr.Wraps x) := by
  obtain ⟨ns, ds⟩ := t
  obtain ⟨hn, hd⟩ := h
  cases hn with
  | here ha has => exact ⟨.here (ha.of_shape rfl) has, hd⟩
  | there ha has => exact ⟨.there (ha.of_shape rfl) has, hd⟩

theorem IsConstant.neg (h : t.IsConstant) : t.neg.IsConstant where
  numerator a ha := by
    rcases (shape_of_mem_neg t).1 a ha with hone | ⟨b, hb, hab⟩
    · exact ⟨1, hone⟩
    · exact (h.numerator b hb).of_shape hab.symm
  denominator a ha := by
    obtain ⟨b, hb, hab⟩ := (shape_of_mem_neg t).2 a ha
    exact (h.denominator b hb).of_shape hab.symm

theorem IsConstant.isFlat (h : t.IsConstant) : t.IsFlat := by
  have hnone : ∀ a ∈ t.factors, a.termCount? = none := fun a ha => (h.isNumeral a ha).termCount?
  refine ⟨fun a ha => by rw [hnone a ha]; simp, ?_⟩
  rintro a rfl
  exact hnone a List.mem_cons_self

theorem carries_asRatio (h : e.Wraps x) : e.asRatio.Carries (Expr.Wraps x) := by
  obtain ⟨s, b, c⟩ := e
  unfold Expr.asRatio
  split
  · rename_i t ht
    obtain rfl : b = .sum [t] := ht
    have ht := Lone.singleton.mp ((Expr.wraps_sum rfl).mp h)
    split
    · exact ht.neg
    · exact ht
  · exact .of h

theorem lone_asTerms (h : e.Wraps x) : Lone (Carries (Expr.Wraps x)) IsConstant e.asTerms := by
  obtain ⟨s, b, c⟩ := e
  unfold Expr.asTerms
  split
  · rename_i ts hts
    obtain rfl : b = .sum ts := hts
    have hts := (Expr.wraps_sum rfl).mp h
    split
    · exact hts.map (fun _ => Carries.neg) fun _ => IsConstant.neg
    · exact hts
  · exact Lone.singleton.mpr (.of h)

theorem Carries.spliceFactors (h : t.Carries (Expr.Wraps x)) : t.spliceFactors.Carries (Expr.Wraps x) := by
  have hnumber : ∀ a : Expr, a.IsNonzero → a.asRatio = .of a := fun a ha =>
    Expr.asRatio_of_termCount? (by rw [ha.isNumeral.termCount?]; simp)
  have hd : prod (t.denominator.map Expr.asRatio) = ⟨t.denominator, []⟩ :=
    prod_asRatio fun a ha => by rw [(h.denominator a ha).isNumeral.termCount?]; simp
  have hn : (prod (t.numerator.map Expr.asRatio)).Carries (Expr.Wraps x) := by
    refine ⟨?_, ?_⟩
    · simp only [prod, List.flatMap_map]
      refine h.numerator.flatMap (fun a ha => (carries_asRatio ha).numerator) fun a ha => ?_
      rw [hnumber a ha]
      exact List.forall_mem_singleton.mpr ha
    · intro b hb
      simp only [prod, List.flatMap_map, List.mem_flatMap] at hb
      obtain ⟨a, ha, hb⟩ := hb
      rcases h.numerator.or_of_mem ha with ha | ha
      · exact (carries_asRatio ha).denominator b hb
      · rw [hnumber a ha] at hb
        cases hb
  rw [Ratio.spliceFactors, hd]
  exact ⟨hn.numerator.append_right (List.forall_mem_nil _), List.forall_mem_append.mpr ⟨hn.denominator, h.denominator⟩⟩

/-- A term whose factors are spliced is as many terms as it has. -/
theorem lone_spliceTerm (h : t.spliceFactors.Carries (Expr.Wraps x)) :
    Lone (Carries (Expr.Wraps x)) IsConstant t.spliceTerm := by
  unfold Ratio.spliceTerm
  split
  · rename_i e he
    rw [he] at h
    exact lone_asTerms (Lone.singleton.mp h.numerator)
  · exact Lone.singleton.mpr h

theorem isConstant_spliceTerm (h : t.spliceFactors.IsConstant) : ∀ u ∈ t.spliceTerm, u.IsConstant := by
  unfold Ratio.spliceTerm
  split
  · rename_i e he
    rw [he] at h
    rw [Expr.asTerms_of_termCount? (h.numerator e List.mem_cons_self).termCount?]
    exact List.forall_mem_singleton.mpr h
  · exact List.forall_mem_singleton.mpr h

end Ratio

namespace Expr

variable {x : String} {e : Expr} {s : Sign} {ts : List (Ratio Expr)} {c : Option Summary}

/-- A sum wraps the variable when it is flattened, if its terms do once their factors are spliced. -/
theorem wraps_flattenStep_of_spliced (h : Lone (fun t : Ratio Expr => t.spliceFactors.Carries (Wraps x))
    (fun t : Ratio Expr => t.spliceFactors.IsConstant) ts) : (flattenStep ⟨s, .sum ts, c⟩).Wraps x := by
  have hspliced : Lone (Ratio.Carries (Wraps x)) Ratio.IsConstant (ts.flatMap Ratio.spliceTerm) :=
    h.flatMap (fun _ => Ratio.lone_spliceTerm) fun _ => Ratio.isConstant_spliceTerm
  simp only [flattenStep]
  split
  · rename_i only honly
    rw [honly] at hspliced
    exact (Lone.singleton.mp (Lone.singleton.mp hspliced).numerator).of_shape rfl
  · exact (wraps_sum rfl).mpr hspliced

theorem wraps_flattenStep (h : Lone (Ratio.Carries (Wraps x)) Ratio.IsConstant ts) :
    (flattenStep ⟨s, .sum ts, c⟩).Wraps x :=
  wraps_flattenStep_of_spliced (h.imp (fun _ => Ratio.Carries.spliceFactors) fun _ ht => by
    rwa [Ratio.spliceFactors_eq_self ht.isFlat.1])

end Expr

/-! ## Reducing -/

/-- A coefficient other than zero before one factor, which has the property. -/
structure Monomial.Carries (P : Expr → Prop) (m : Monomial) : Prop where
  coefficient_ne_zero : m.coefficient ≠ 0
  numerator : ∃ a, m.numerator = [a] ∧ P a
  denominator : m.denominator = []

/-- A coefficient alone. -/
structure Monomial.IsConstant (m : Monomial) : Prop where
  numerator : m.numerator = []
  denominator : m.denominator = []

namespace Ratio

variable {x : String} {t : Ratio Expr}

theorem carries_split (h : t.Carries (Expr.Wraps x)) : t.split.Carries (Expr.Wraps x) where
  coefficient_ne_zero := by
    have hn : product (t.numerator.filterMap Expr.number?) ≠ 0 := by
      refine product_ne_zero.mpr fun v hv => ?_
      obtain ⟨a, ha, hav⟩ := List.mem_filterMap.mp hv
      rcases h.numerator.or_of_mem ha with ha | ⟨w, hw, h0⟩
      · rw [ha.number?] at hav
        cases hav
      · rw [Expr.number?, hw] at hav
        rwa [← Option.some.inj hav]
    rw [split, magnitude_eq, ne_eq, Sign.apply_eq_zero]
    exact div_ne_zero hn (product_divisors_ne_zero t.denominator)
  numerator := by
    have hnumber : ∀ a : Expr, (∃ v, a.shape = .number v ∧ v ≠ 0) → a.number?.isNone = false := by
      rintro a ⟨v, hv, -⟩
      rw [Expr.number?, hv]
      rfl
    obtain ⟨a, ha, hwraps⟩ := h.numerator.filter_eq (p := fun e => e.number?.isNone)
      (fun a ha => by rw [ha.number?]; rfl) hnumber
    exact ⟨a.abs, by rw [split, ha]; rfl, hwraps.of_shape rfl⟩
  denominator := by
    rw [split, List.map_eq_nil_iff, List.filter_eq_nil_iff]
    intro d hd
    rw [(h.denominator d hd).divisor?_isNone]
    exact Bool.false_ne_true

theorem isConstant_split (h : t.IsConstant) : t.split.IsConstant where
  numerator := by
    rw [split, List.map_eq_nil_iff, List.filter_eq_nil_iff]
    intro a ha
    obtain ⟨v, hv⟩ := h.numerator a ha
    rw [Expr.number?, hv]
    exact Bool.false_ne_true
  denominator := by
    rw [split, List.map_eq_nil_iff, List.filter_eq_nil_iff]
    intro d hd
    rw [(h.denominator d hd).divisor?_isNone]
    exact Bool.false_ne_true

end Ratio

namespace Monomial

variable {x : String} {m n : Monomial} {ms ns : List Monomial} {P : Expr → Prop}

theorem reduce_of_denominator (h : m.denominator = []) : m.reduce = m := by
  obtain ⟨c, ns, ds⟩ := m
  obtain rfl : ds = [] := h
  rfl

theorem isNonzero_number {k : Nat} (h : k ≠ 0) : (Expr.number (k : Int)).IsNonzero := ⟨_, rfl, by simpa using h⟩

theorem isNonzero_of_mem_below (h : m.denominator = []) : ∀ e ∈ m.below, e.IsNonzero := by
  intro e he
  rw [below, h, List.append_nil] at he
  split at he
  · rw [List.mem_singleton.mp he]
    exact isNonzero_number m.coefficient.den_ne_zero
  · cases he

theorem lone_negateFirst {es : List Expr} (h : Lone (Expr.Wraps x) Expr.IsNonzero es) :
    Lone (Expr.Wraps x) Expr.IsNonzero (negateFirst es) := by
  cases h with
  | here ha has => exact .here (ha.of_shape rfl) has
  | there ha has => exact .there (ha.of_shape rfl) has

theorem carries_toRatio (h : m.Carries (Expr.Wraps x)) : m.toRatio.Carries (Expr.Wraps x) := by
  obtain ⟨h0, ⟨a, hn, ha⟩, hd⟩ := h
  have habove : Lone (Expr.Wraps x) Expr.IsNonzero m.above := by
    rw [above, hn]
    refine Lone.append_left (fun b hb => ?_) (.here ha (List.forall_mem_nil _))
    split at hb
    · rw [List.mem_singleton.mp hb]
      exact isNonzero_number (Int.natAbs_ne_zero.mpr (Rat.num_ne_zero.mpr h0))
    · cases hb
  rw [toRatio_of_ne_zero h0]
  refine ⟨?_, isNonzero_of_mem_below hd⟩
  split
  · exact lone_negateFirst habove
  · exact habove

theorem isConstant_toRatio (h : m.IsConstant) : m.toRatio.IsConstant := by
  have hnumeral : ∀ e ∈ m.toRatio.factors, e.IsNumeral := by
    intro e he
    rcases mem_toRatio he with hv | ⟨a, ha, -⟩
    · exact hv
    · rw [rest, h.numerator, h.denominator] at ha
      cases ha
  refine ⟨fun e he => hnumeral e (List.mem_append_left _ he), ?_⟩
  by_cases h0 : m.coefficient = 0
  · rw [toRatio_of_eq_zero h0]
    exact List.forall_mem_nil _
  · rw [toRatio_of_ne_zero h0]
    exact isNonzero_of_mem_below h.denominator

/-- A monomial with a factor is unlike one without. -/
theorem Carries.isLike_eq_false (hm : m.Carries P) (hn : n.IsConstant) : m.isLike n = false ∧ n.isLike m = false := by
  obtain ⟨a, ha, -⟩ := hm.numerator
  constructor <;>
  · rw [Bool.eq_false_iff]
    intro hlike
    have hlen := (perm_of_isLike hlike).1.length_eq
    simp [ha, hn.numerator] at hlen

theorem isConstant_addTo (hm : m.IsConstant) (hns : ∀ n ∈ ns, n.IsConstant) : ∀ k ∈ m.addTo ns, k.IsConstant := by
  have hrest : ∀ {j k : Monomial}, k.rest = j.rest → j.IsConstant → k.IsConstant := by
    intro j k hr hj
    obtain ⟨hn, hd⟩ := rest_eq_iff.mp hr
    exact ⟨hn.trans hj.numerator, hd.trans hj.denominator⟩
  intro k hk
  rcases rest_of_mem_addTo hk with hr | ⟨n, hn, hr⟩
  · exact hrest hr hm
  · exact hrest hr (hns n hn)

/-- A coefficient is not added to a monomial with a factor. -/
theorem lone_addTo_of_isConstant (hm : m.IsConstant) (hns : Lone (Carries P) IsConstant ns) :
    Lone (Carries P) IsConstant (m.addTo ns) := by
  induction hns with
  | here hn hns =>
    rw [addTo, (hn.isLike_eq_false hm).1, if_neg Bool.false_ne_true]
    exact .here hn (isConstant_addTo hm hns)
  | there hn hns ih =>
    rw [addTo]
    split
    · exact .there ⟨hn.numerator, hn.denominator⟩ hns
    · exact .there hn ih

/-- A monomial with a factor is not added to a coefficient. -/
theorem lone_addTo_of_carries (hm : m.Carries P) (hns : ∀ n ∈ ns, n.IsConstant) :
    Lone (Carries P) IsConstant (m.addTo ns) := by
  rw [addTo_of_unlike fun n hn => (hm.isLike_eq_false (hns n hn)).2]
  exact Lone.append_left hns (.here hm (List.forall_mem_nil _))

theorem lone_addAll_of_isConstant (hms : ∀ m ∈ ms, m.IsConstant) (hns : Lone (Carries P) IsConstant ns) :
    Lone (Carries P) IsConstant (addAll ms ns) := by
  induction ms generalizing ns with
  | nil => exact hns
  | cons m ms ih =>
    obtain ⟨hm, hms⟩ := List.forall_mem_cons.mp hms
    exact ih hms (lone_addTo_of_isConstant hm hns)

theorem lone_addAll (hms : Lone (Carries P) IsConstant ms) (hns : ∀ n ∈ ns, n.IsConstant) :
    Lone (Carries P) IsConstant (addAll ms ns) := by
  induction hms generalizing ns with
  | @here m ms hm hms =>
    have hadd := lone_addTo_of_carries hm hns
    rw [addAll, List.foldl_cons, ← addAll]
    exact lone_addAll_of_isConstant hms hadd
  | there hm _ ih => exact ih (isConstant_addTo hm hns)

end Monomial

namespace Expr

variable {x : String} {e : Expr} {s : Sign} {t : Ratio Expr} {ts : List (Ratio Expr)} {c : Option Summary}

theorem wraps_reduceStep (h : Lone (Ratio.Carries (Wraps x)) Ratio.IsConstant ts) :
    (reduceStep ⟨s, .sum ts, c⟩).Wraps x := by
  have hreduce : Lone (Ratio.Carries (Wraps x)) Ratio.IsConstant (ts.map Ratio.reduce) := by
    refine h.map (fun t ht => ?_) fun t ht => ?_
    · have hsplit := Ratio.carries_split ht
      rw [Ratio.reduce, Monomial.reduce_of_denominator hsplit.denominator]
      exact Monomial.carries_toRatio hsplit
    · have hsplit := Ratio.isConstant_split ht
      rw [Ratio.reduce, Monomial.reduce_of_denominator hsplit.denominator]
      exact Monomial.isConstant_toRatio hsplit
  have hsplit := hreduce.map (fun _ => Ratio.carries_split) fun _ => Ratio.isConstant_split
  refine (wraps_sum rfl).mpr ?_
  rw [Ratio.collect_eq]
  exact (Monomial.lone_addAll hsplit (List.forall_mem_nil _)).map (fun _ => Monomial.carries_toRatio)
    fun _ => Monomial.isConstant_toRatio

/-! ## Dropping what is neutral -/

theorem wraps_dropUnits (h : Lone (Ratio.Carries (Wraps x)) Ratio.IsConstant ts) :
    (dropUnits ⟨s, .sum ts, c⟩).Wraps x := by
  have hdrop : ∀ t : Ratio Expr, dropUnit t = t ∨ dropUnit t = ⟨t.numerator, []⟩ := by
    intro t
    unfold dropUnit
    split
    · split
      · exact .inr rfl
      · exact .inl rfl
    · exact .inl rfl
  refine (wraps_sum rfl).mpr (h.map (fun t ht => ?_) fun t ht => ?_)
  · rcases hdrop t with h | h
    · rwa [h]
    · rw [h]
      exact ⟨ht.numerator, List.forall_mem_nil _⟩
  · rcases hdrop t with h | h
    · rwa [h]
    · rw [h]
      exact ⟨ht.numerator, List.forall_mem_nil _⟩

theorem Wraps.isOne_eq_false (h : e.Wraps x) : e.isOne = false :=
  Bool.eq_false_iff.mpr fun hone => h.not_numeral ⟨1, shape_of_isOne hone⟩

theorem carries_dropOnes (h : t.Carries (Wraps x)) : (dropOnes t).Carries (Wraps x) := by
  refine ⟨?_, fun d hd => h.denominator d (mem_of_mem_withoutOnes hd)⟩
  rw [dropOnes]
  unfold withoutOnes
  split
  · rename_i a ha
    rw [← ha]
    exact h.numerator
  · exact h.numerator.filter fun a ha => by rw [ha.isOne_eq_false]; rfl

theorem isConstant_dropOnes (h : t.IsConstant) : (dropOnes t).IsConstant :=
  ⟨fun e he => h.numerator e (mem_of_mem_withoutOnes he), fun e he => h.denominator e (mem_of_mem_withoutOnes he)⟩

theorem not_isZeroTerm (h : t.Carries (Wraps x)) : isZeroTerm t = false := by
  unfold isZeroTerm
  split
  · rw [(Lone.singleton.mp h.numerator).number?]
    rfl
  · rfl

theorem wraps_neutralStep (h : Lone (Ratio.Carries (Wraps x)) Ratio.IsConstant ts) :
    (neutralStep ⟨s, .sum ts, c⟩).Wraps x := by
  have hfilter := h.filter (p := fun t => !isZeroTerm t) fun t ht => by rw [not_isZeroTerm ht]; rfl
  rw [neutralStep_sum]
  split
  · rename_i hnil
    exact absurd hnil hfilter.ne_nil
  · exact (wraps_sum rfl).mpr (hfilter.map (fun _ => carries_dropOnes) fun _ => isConstant_dropOnes)

/-- A round leaves a wrapping of what flattening leaves as one. -/
theorem wraps_tidy (h : e.flatten.Wraps x) : e.tidy.Wraps x := by
  have h2 := (isBottomUp_editUp reduceStep).wraps reduceStep_of_not_sum wraps_reduceStep h.analyze
  have h3 : e.flatten.analyze.reduced.Wraps x :=
    (isBottomUp_editUp dropUnits).wraps dropUnits_of_not_sum wraps_dropUnits h2.analyze
  exact ((isBottomUp_rebuildUp neutralStep).wraps neutralStep_of_not_sum wraps_neutralStep h3).analyze.analyze

/-- **A round keeps the wrapping of a variable.** -/
theorem Wraps.tidy (h : e.Wraps x) : e.tidy.Wraps x :=
  wraps_tidy ((isBottomUp_rebuildUp flattenStep).wraps flattenStep_of_not_sum wraps_flattenStep h)

end Expr

end Isolate
