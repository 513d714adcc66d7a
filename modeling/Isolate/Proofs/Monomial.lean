import Isolate.Expr.Meaning
import Isolate.Normal.Reduce
import Mathlib.Algebra.Field.Rat
import Mathlib.Algebra.Field.Basic

/-!
# Monomials and the ratios they are written as

The coefficient of a ratio is a quotient of products (`Ratio.magnitude_eq`) with the signs of all factors
(`Ratio.sign_eq`). A monomial that is split off a ratio has no signs (`Ratio.isUnsigned_split`), and cancelling takes
factors away only (`cancel_sublist`). Written as a ratio, it has its coefficient in front: `Monomial.above` and
`Monomial.below` are the two sides of the fraction bar (`toRatio_of_ne_zero`), so every factor is a number or one of its
own (`mem_toRatio`). Like monomials have the same factors up to order (`Monomial.perm_of_isLike`), and collecting brings
no factors but those of the terms (`Ratio.rest_of_mem_collect`).
-/

namespace Isolate

/-! ## Coefficients -/

theorem foldl_mul_eq (q : Rat) (qs : List Rat) : qs.foldl (· * ·) q = q * product qs := by
  induction qs generalizing q with
  | nil => simp
  | cons r qs ih => rw [List.foldl_cons, ih, product_cons, mul_assoc]

theorem foldl_div_eq (q : Rat) (qs : List Rat) : qs.foldl (· / ·) q = q / product qs := by
  induction qs generalizing q with
  | nil => simp
  | cons r qs ih => rw [List.foldl_cons, ih, product_cons, div_div]

/-- The product of the signs of a list of factors. -/
def signOf (es : List Expr) : Sign := es.foldl (fun s e => s * e.sign) .pos

theorem foldl_sign_eq (s : Sign) (es : List Expr) : es.foldl (fun s e => s * e.sign) s = s * signOf es := by
  induction es generalizing s with
  | nil => cases s <;> rfl
  | cons e es ih =>
    rw [signOf, List.foldl_cons, List.foldl_cons, ih, ih (.pos * e.sign), Sign.pos_mul, Sign.mul_assoc]

theorem signOf_cons (e : Expr) (es : List Expr) : signOf (e :: es) = e.sign * signOf es := by
  rw [signOf, List.foldl_cons, foldl_sign_eq, Sign.pos_mul]

theorem Ratio.sign_eq (t : Ratio Expr) : t.sign = signOf t.numerator * signOf t.denominator := by
  rw [Ratio.sign, factors, List.foldl_append, foldl_sign_eq, foldl_sign_eq, Sign.pos_mul]

theorem Ratio.magnitude_eq (t : Ratio Expr) : t.magnitude =
    product (t.numerator.filterMap Expr.number?) / product (t.denominator.filterMap Expr.divisor?) := by
  rw [magnitude, foldl_div_eq, foldl_mul_eq, one_mul]

/-! ## Factors -/

theorem beq_symm {a b : Expr} (h : (a == b) = true) : (b == a) = true :=
  (Expr.beq_iff b a).mpr ((Expr.beq_iff a b).mp h).symm

/-- A factor found in a list stands there in form, and taking it out leaves the others. -/
theorem exists_perm_erase {es : List Expr} {d : Expr} (h : es.contains d = true) :
    ∃ e, e.bare = d.bare ∧ es.Perm (e :: es.erase d) := by
  induction es with
  | nil => simp at h
  | cons e es ih =>
    rw [List.erase_cons]
    split
    · rename_i he
      exact ⟨e, (Expr.beq_iff e d).mp he, .refl _⟩
    · rename_i he
      rw [List.contains_cons, Bool.or_eq_true] at h
      obtain ⟨a, ha, hes⟩ := ih (h.resolve_left fun hd => he (beq_symm hd))
      exact ⟨a, ha, (hes.cons e).trans (.swap ..)⟩

theorem cancel_sublist (ns ds : List Expr) : (cancel ns ds).1.Sublist ns ∧ (cancel ns ds).2.Sublist ds := by
  induction ds generalizing ns with
  | nil => exact ⟨List.Sublist.refl _, List.Sublist.refl _⟩
  | cons d ds ih =>
    unfold cancel
    split
    · exact ⟨(ih _).1.trans List.erase_sublist, (ih _).2.cons d⟩
    · exact ⟨(ih _).1, (ih _).2.cons_cons d⟩

namespace Monomial

/-- The factors of a monomial as a ratio. -/
def rest (m : Monomial) : Ratio Expr := ⟨m.numerator, m.denominator⟩

/-- No factor has a minus in front. -/
def IsUnsigned (m : Monomial) : Prop := ∀ e ∈ m.rest.factors, e.sign = .pos

end Monomial

theorem Ratio.isUnsigned_split (t : Ratio Expr) : t.split.IsUnsigned := by
  intro e he
  simp only [split, Monomial.rest, factors, List.mem_append, List.mem_map] at he
  obtain ⟨a, -, rfl⟩ | ⟨a, -, rfl⟩ := he <;> rfl

namespace Monomial

variable {m : Monomial}

theorem isUnsigned_reduce (h : m.IsUnsigned) : m.reduce.IsUnsigned := by
  obtain ⟨hn, hd⟩ := cancel_sublist m.numerator m.denominator
  intro e he
  rcases List.mem_append.mp he with he | he
  · exact h e (List.mem_append_left _ (hn.mem he))
  · exact h e (List.mem_append_right _ (hd.mem he))

/-! ## Writing a monomial -/

/-- The coefficient in front of the factors of a numerator. -/
def above (m : Monomial) : List Expr :=
  (if m.coefficient.num.natAbs ≠ 1 ∨ m.numerator.isEmpty then [.number (m.coefficient.num.natAbs : Int)] else []) ++
    m.numerator

/-- The coefficient in front of the factors of a denominator. -/
def below (m : Monomial) : List Expr :=
  (if m.coefficient.den ≠ 1 then [.number (m.coefficient.den : Int)] else []) ++ m.denominator

theorem toRatio_of_eq_zero (h : m.coefficient = 0) : m.toRatio = ⟨[.number 0], []⟩ := by rw [toRatio, if_pos h]

theorem toRatio_of_ne_zero (h : m.coefficient ≠ 0) :
    m.toRatio = ⟨if m.coefficient < 0 then negateFirst m.above else m.above, m.below⟩ := by
  rw [toRatio, if_neg h]
  rfl

theorem above_ne_nil : m.above ≠ [] := by
  cases h : m.numerator <;> simp [above, h]

theorem sign_above (h : m.IsUnsigned) : ∀ e ∈ m.above, e.sign = .pos := by
  intro e he
  rcases List.mem_append.mp he with he | he
  · split at he
    · rw [List.mem_singleton.mp he]; rfl
    · cases he
  · exact h e (List.mem_append_left _ he)

/-- What a monomial is written with: numbers and its own factors, a minus put at some of them. -/
theorem mem_toRatio {e : Expr} (h : e ∈ m.toRatio.factors) :
    (∃ q, e.shape = .number q) ∨ ∃ a ∈ m.rest.factors, e.shape = a.shape := by
  by_cases h0 : m.coefficient = 0
  · rw [toRatio_of_eq_zero h0] at h
    rw [List.mem_singleton.mp h]
    exact .inl ⟨0, rfl⟩
  · have hsigned : ∀ es : List Expr, e ∈ negateFirst es → ∃ a ∈ es, e.shape = a.shape := by
      intro es he
      cases es with
      | nil => cases he
      | cons a es =>
        rcases List.mem_cons.mp he with rfl | he
        · exact ⟨a, List.mem_cons_self, rfl⟩
        · exact ⟨e, List.mem_cons_of_mem _ he, rfl⟩
    have habove : ∀ a ∈ m.above, (∃ q, a.shape = .number q) ∨ ∃ b ∈ m.rest.factors, a.shape = b.shape := by
      intro a ha
      rcases List.mem_append.mp ha with ha | ha
      · split at ha
        · rw [List.mem_singleton.mp ha]; exact .inl ⟨_, rfl⟩
        · cases ha
      · exact .inr ⟨a, List.mem_append_left _ ha, rfl⟩
    rw [toRatio_of_ne_zero h0, Ratio.factors, List.mem_append] at h
    rcases h with h | h
    · simp only at h
      split at h
      · obtain ⟨a, ha, hea⟩ := hsigned _ h
        rw [hea]
        exact habove a ha
      · exact habove e h
    · rcases List.mem_append.mp h with h | h
      · split at h
        · rw [List.mem_singleton.mp h]; exact .inl ⟨_, rfl⟩
        · cases h
      · exact .inr ⟨e, List.mem_append_right _ h, rfl⟩

/-! ## Like monomials -/

theorem map_bare_of_beq {as bs : List Expr} (h : (as == bs) = true) : as.map Expr.bare = bs.map Expr.bare := by
  induction as generalizing bs with
  | nil => cases bs with
    | nil => rfl
    | cons b bs => cases h
  | cons a as ih => cases bs with
    | nil => cases h
    | cons b bs =>
      obtain ⟨hab, has⟩ := Bool.and_eq_true_iff.mp h
      rw [List.map_cons, List.map_cons, (Expr.beq_iff a b).mp hab, ih has]

/-- Like monomials have the same factors up to order, analyses apart. -/
theorem perm_of_isLike {n : Monomial} (h : n.isLike m = true) :
    (n.numerator.map Expr.bare).Perm (m.numerator.map Expr.bare) ∧
      (n.denominator.map Expr.bare).Perm (m.denominator.map Expr.bare) := by
  have hsort : ∀ as bs : List Expr, (sortFactors as == sortFactors bs) = true →
      (as.map Expr.bare).Perm (bs.map Expr.bare) := by
    intro as bs hb
    have ha := (List.mergeSort_perm as Expr.le).map Expr.bare
    rw [← sortFactors, map_bare_of_beq hb] at ha
    exact ha.symm.trans ((List.mergeSort_perm bs Expr.le).map Expr.bare)
  obtain ⟨hn, hd⟩ := Bool.and_eq_true_iff.mp h
  exact ⟨hsort _ _ hn, hsort _ _ hd⟩

/-! ## Collecting monomials -/

/-- What is added brings no factors but its own. -/
theorem rest_of_mem_addTo {k : Monomial} {ms : List Monomial} (h : k ∈ m.addTo ms) :
    k.rest = m.rest ∨ ∃ n ∈ ms, k.rest = n.rest := by
  induction ms with
  | nil => exact .inl (List.mem_singleton.mp h ▸ rfl)
  | cons n ns ih =>
    unfold addTo at h
    split at h
    · rcases List.mem_cons.mp h with rfl | h
      · exact .inr ⟨n, List.mem_cons_self, rfl⟩
      · exact .inr ⟨k, List.mem_cons_of_mem _ h, rfl⟩
    · rcases List.mem_cons.mp h with rfl | h
      · exact .inr ⟨k, List.mem_cons_self, rfl⟩
      · rcases ih h with h | ⟨a, ha, h⟩
        · exact .inl h
        · exact .inr ⟨a, List.mem_cons_of_mem _ ha, h⟩

/-- One monomial for each kind, the coefficients added up. -/
def addAll (ms acc : List Monomial) : List Monomial := ms.foldl (fun ns m => m.addTo ns) acc

theorem rest_of_mem_addAll {k : Monomial} {ms acc : List Monomial} (h : k ∈ addAll ms acc) :
    ∃ n ∈ acc ++ ms, k.rest = n.rest := by
  induction ms generalizing acc with
  | nil => exact ⟨k, by simpa [addAll] using h, rfl⟩
  | cons m ms ih =>
    rw [addAll, List.foldl_cons, ← addAll] at h
    obtain ⟨n, hn, hkn⟩ := ih h
    rcases List.mem_append.mp hn with hn | hn
    · rcases rest_of_mem_addTo hn with hnm | ⟨a, ha, hna⟩
      · exact ⟨m, by simp, hkn.trans hnm⟩
      · exact ⟨a, List.mem_append_left _ ha, hkn.trans hna⟩
    · exact ⟨n, by simp [hn], hkn⟩

end Monomial

namespace Ratio

theorem collect_eq (ts : List (Ratio Expr)) :
    collect ts = (Monomial.addAll (ts.map split) []).map Monomial.toRatio := rfl

/-- A collected monomial has the factors of one that was split off some term. -/
theorem rest_of_mem_collect {m : Monomial} {ts : List (Ratio Expr)} (h : m ∈ Monomial.addAll (ts.map split) []) :
    ∃ t ∈ ts, m.rest = t.split.rest := by
  obtain ⟨n, hn, hm⟩ := Monomial.rest_of_mem_addAll h
  rw [List.nil_append] at hn
  obtain ⟨t, ht, rfl⟩ := List.mem_map.mp hn
  exact ⟨t, ht, hm⟩

end Ratio

end Isolate
