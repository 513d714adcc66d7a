import Isolate.Proofs.Meaning.Collect
import Isolate.Proofs.Reordering.Collected

/-!
# Like terms

Terms are of one kind if their factors agree up to order, numbers and signs apart (`Ratio.IsLike`). Collecting goes
through the terms with one monomial for each kind met so far: a term of a new kind puts its monomial at the end, and any
other leaves the factors and adds its coefficient. So the monomials have the factors of the first terms of each kind
(`Ratio.kinds`) in their order (`Ratio.rest_addAll_split`).

* `Ratio.collect_kinds`: there is one collected term for each kind, with the factors of the first one and the
  coefficients of all added up.
-/

namespace Isolate

namespace Ratio

variable {t u v : Ratio Expr} {ts : List (Ratio Expr)}

/-! ## Kinds of terms -/

theorem isLike_split_iff : t.split.isLike u.split = true ↔ t.IsLike u := by
  rw [Monomial.isLike_iff, IsLike, others_eq, others_eq]
  rfl

instance (t u : Ratio Expr) : Decidable (t.IsLike u) := decidable_of_iff _ isLike_split_iff

theorem IsLike.refl (t : Ratio Expr) : t.IsLike t := ⟨.refl _, .refl _⟩

theorem IsLike.symm (h : t.IsLike u) : u.IsLike t := ⟨h.1.symm, h.2.symm⟩

theorem IsLike.trans (h : t.IsLike u) (h' : u.IsLike v) : t.IsLike v := ⟨h.1.trans h'.1, h.2.trans h'.2⟩

/-- The first term of each kind, in order. -/
def kinds : List (Ratio Expr) → List (Ratio Expr)
  | [] => []
  | t :: ts => t :: (kinds ts).filter fun u => ¬t.IsLike u

/-- The coefficients of all terms of a kind, added up. -/
def amount (k : Ratio Expr) (ts : List (Ratio Expr)) : Rat := ((ts.filter (k.IsLike ·)).map coefficient).sum

theorem kinds_sublist (ts : List (Ratio Expr)) : (kinds ts).Sublist ts := by
  induction ts with
  | nil => exact .slnil
  | cons t ts ih => exact (List.filter_sublist.trans ih).cons_cons t

theorem kinds_unlike (ts : List (Ratio Expr)) : (kinds ts).Pairwise fun t u => ¬t.IsLike u := by
  induction ts with
  | nil => exact .nil
  | cons t ts ih =>
    refine List.pairwise_cons.mpr ⟨fun u hu => ?_, ih.sublist List.filter_sublist⟩
    simpa using (List.mem_filter.mp hu).2

/-- Every term is of some kind. -/
theorem exists_kind (h : t ∈ ts) : ∃ k ∈ kinds ts, k.IsLike t := by
  induction ts with
  | nil => cases h
  | cons u ts ih =>
    by_cases hut : u.IsLike t
    · exact ⟨u, List.mem_cons_self, hut⟩
    · have hne : t ≠ u := fun htu => hut (htu ▸ .refl t)
      obtain ⟨k, hk, hkt⟩ := ih ((List.mem_cons.mp h).resolve_left hne)
      have huk : ¬u.IsLike k := fun huk => hut (huk.trans hkt)
      exact ⟨k, List.mem_cons_of_mem _ (List.mem_filter.mpr ⟨hk, decide_eq_true huk⟩), hkt⟩

/-- What stands for a kind is the first term of it. -/
theorem find?_of_mem_kinds {k : Ratio Expr} (h : k ∈ kinds ts) : ts.find? (k.IsLike ·) = some k := by
  induction ts with
  | nil => cases h
  | cons t ts ih =>
    rcases List.mem_cons.mp h with rfl | h
    · exact List.find?_cons_of_pos (decide_eq_true (.refl k))
    · obtain ⟨hk, htk⟩ := List.mem_filter.mp h
      have hkt : ¬k.IsLike t := fun hkt => of_decide_eq_true htk hkt.symm
      rw [List.find?_cons_of_neg (by simpa using hkt), ih hk]

end Ratio

/-! ## The factors that are collected -/

namespace Monomial

variable {m : Monomial} {ns : List Monomial}

/-- A monomial like one in the list changes no factors there. -/
theorem rest_addTo_of_isLike (h : ∃ n ∈ ns, n.isLike m = true) : (m.addTo ns).map rest = ns.map rest := by
  induction ns with
  | nil => simp at h
  | cons n ns ih =>
    unfold addTo
    split
    · rfl
    · rename_i hn
      obtain ⟨k, hk, hkm⟩ := h
      have hne : k ≠ n := fun hkn => hn (hkn ▸ hkm)
      rw [List.map_cons, List.map_cons, ih ⟨k, (List.mem_cons.mp hk).resolve_left hne, hkm⟩]

end Monomial

namespace Ratio

variable {ts : List (Ratio Expr)} {ns : List Monomial}

/-- The first terms of the kinds that are not in a list of monomials yet. -/
def newKinds (ns : List Monomial) (ts : List (Ratio Expr)) : List (Ratio Expr) :=
  (kinds ts).filter fun t => ns.all fun n => !n.isLike t.split

/-- Only the factors of the monomials matter. -/
theorem newKinds_congr {ms : List Monomial} (h : ms.map Monomial.rest = ns.map Monomial.rest) :
    newKinds ms ts = newKinds ns ts := by
  have hall : ∀ (t : Ratio Expr) (ls : List Monomial), (ls.all fun n => !n.isLike t.split) =
      (ls.map Monomial.rest).all fun r => !Monomial.isLike ⟨0, r.numerator, r.denominator⟩ t.split := fun t ls => by
    rw [List.all_map]
    rfl
  exact List.filter_congr fun t _ => by rw [hall, h, hall]

/-- A term of a kind that is there already brings nothing new. -/
theorem newKinds_cons_of_isLike {t : Ratio Expr} (h : ∃ n ∈ ns, n.isLike t.split = true) :
    newKinds ns (t :: ts) = newKinds ns ts := by
  obtain ⟨n, hn, hnt⟩ := h
  rw [newKinds, kinds, List.filter_cons_of_neg, List.filter_filter, newKinds]
  · refine List.filter_congr fun u _ => ?_
    rw [Bool.and_eq_left_iff_imp, List.all_eq_true]
    refine fun hu => decide_eq_true fun htu => ?_
    have hnu := hu n hn
    rw [← Monomial.isLike_of_isLike (isLike_split_iff.mpr htu), hnt] at hnu
    cases hnu
  · rw [List.all_eq_true]
    intro hall
    have hunlike := hall n hn
    rw [hnt] at hunlike
    cases hunlike

/-- A term of a new kind comes first, and then the kinds that are new with it. -/
theorem newKinds_cons_of_unlike {t : Ratio Expr} (h : ∀ n ∈ ns, n.isLike t.split = false) :
    newKinds ns (t :: ts) = t :: newKinds (ns ++ [t.split]) ts := by
  rw [newKinds, kinds, List.filter_cons_of_pos, List.filter_filter, newKinds]
  · refine congrArg (t :: ·) (List.filter_congr fun u _ => ?_)
    rw [List.all_append, List.all_cons, List.all_nil, Bool.and_true]
    refine congrArg _ ?_
    rw [Bool.eq_iff_iff, decide_eq_true_iff, Bool.not_eq_true', ← Bool.not_eq_true, isLike_split_iff]
  · exact List.all_eq_true.mpr fun n hn => by rw [h n hn]; rfl

/-- **The factors of what is collected are those of the first terms of each kind**, in order, behind those that were
collected before. -/
theorem rest_addAll_split (ts : List (Ratio Expr)) (ns : List Monomial) :
    (Monomial.addAll (ts.map split) ns).map Monomial.rest =
      ns.map Monomial.rest ++ (newKinds ns ts).map fun k => k.split.rest := by
  -- what has been collected so far grows along the way, so the induction is for all lists of monomials
  induction ts generalizing ns with
  | nil => simp [Monomial.addAll, newKinds, kinds]
  | cons t ts ih =>
    rw [List.map_cons, Monomial.addAll, List.foldl_cons, ← Monomial.addAll, ih]
    by_cases hold : ∃ n ∈ ns, n.isLike t.split = true
    · have hrest := Monomial.rest_addTo_of_isLike hold
      rw [newKinds_cons_of_isLike hold, newKinds_congr hrest, hrest]
    · have hnew : ∀ n ∈ ns, n.isLike t.split = false := fun n hn =>
        Bool.eq_false_iff.mpr fun hnt => hold ⟨n, hn, hnt⟩
      rw [newKinds_cons_of_unlike hnew, Monomial.addTo_of_unlike hnew, List.map_append, List.append_assoc]
      rfl

/-! ## The terms that are collected -/

/-- The coefficient of a collected monomial is the amount of its kind. -/
theorem coefficient_of_rest {n : Monomial} {k : Ratio Expr} (hn : n ∈ Monomial.addAll (ts.map split) [])
    (hk : n.rest = k.split.rest) : n.coefficient = k.amount ts := by
  have hlike : (n.isLike ∘ split) = fun t => decide (k.IsLike t) := funext fun t => by
    rw [Function.comp_apply, Monomial.isLike_congr hk rfl, Bool.eq_iff_iff, isLike_split_iff, decide_eq_true_iff]
  rw [Monomial.coefficient_addAll hn, Monomial.amount, List.filter_map, hlike, List.map_map, amount]
  exact congrArg List.sum (List.map_congr_left fun t _ => t.split_coefficient)

/-- What a monomial with the factors of a term is written as. -/
theorem toRatio_of_rest {n : Monomial} {k : Ratio Expr} (hk : n.rest = k.split.rest) (h0 : n.coefficient ≠ 0) :
    n.toRatio.coefficient = n.coefficient ∧ n.toRatio.others = k.others := by
  obtain ⟨hnum, hden⟩ := Monomial.rest_eq_iff.mp hk
  have hunsigned : n.IsUnsigned := by
    rw [Monomial.IsUnsigned, hk]
    exact k.isUnsigned_split
  have hsplit : n.toRatio.split = n := Monomial.split_toRatio_of hunsigned
    (fun e he => number?_of_mem_split (hnum ▸ he)) (fun e he => divisor?_of_mem_split (hden ▸ he)) h0
  exact ⟨by rw [← split_coefficient, hsplit], by rw [others_eq, hsplit, hk, others_eq]⟩

/-- **One collected term for each kind of like terms**, in the order of the first ones: it has the factors of the first
one and the coefficients of all added up, and it is zero if they cancel out. So the total stays the same wherever no
divisor is zero. -/
theorem collect_kinds (ts : List (Ratio Expr)) :
    (kinds ts).Sublist ts ∧ (∀ k ∈ kinds ts, ts.find? (k.IsLike ·) = some k) ∧
    ((kinds ts).Pairwise fun k l => ¬k.IsLike l) ∧ (∀ t ∈ ts, ∃ k ∈ kinds ts, k.IsLike t) ∧
    List.Forall₂ (fun k u => (k.amount ts = 0 → u = ⟨[.number 0], []⟩) ∧
      (k.amount ts ≠ 0 → u.coefficient = k.amount ts ∧ u.others = k.others)) (kinds ts) (collect ts) ∧
    ∀ I, (Expr.sum ts).IsDefined I →
      (Expr.sum (collect ts)).IsDefined I ∧ (Expr.sum (collect ts)).value I = (Expr.sum ts).value I := by
  refine ⟨kinds_sublist ts, fun _ => find?_of_mem_kinds, kinds_unlike ts, fun _ => exists_kind, ?_, fun I =>
    Expr.keeps_sum isDefined_collect⟩
  have hkinds : newKinds [] ts = kinds ts := List.filter_eq_self.mpr fun _ _ => rfl
  have hrest : (kinds ts).map (fun k => k.split.rest) = (Monomial.addAll (ts.map split) []).map Monomial.rest := by
    rw [rest_addAll_split, hkinds]
    rfl
  have hpairs : List.Forall₂ (fun n k => Monomial.rest n = k.split.rest) (Monomial.addAll (ts.map split) [])
      (kinds ts) := by
    rw [← List.forall₂_map_right_iff, ← List.forall₂_map_left_iff, hrest]
    exact List.forall₂_same.mpr fun _ _ => rfl
  rw [collect_eq, List.forall₂_map_right_iff]
  refine (forall₂_imp_of_mem (fun n hn k hk => ?_) hpairs).flip
  have hamount := coefficient_of_rest hn hk
  refine ⟨fun h0 => Monomial.toRatio_of_eq_zero (hamount.trans h0), fun h0 => ?_⟩
  rw [← hamount] at h0 ⊢
  exact toRatio_of_rest hk h0

/-- In `2*x*y + 7 + y*x/3 - 7` there are two kinds, and the numbers cancel out. -/
example : collect [⟨[.number 2, .var "x", .var "y"], []⟩, .of (.number 7), ⟨[.var "y", .var "x"], [.number 3]⟩,
    .of (Expr.number 7).neg] = [⟨[.number 7, .var "x", .var "y"], [.number 3]⟩, .of (.number 0)] := by cbv

end Ratio

end Isolate
