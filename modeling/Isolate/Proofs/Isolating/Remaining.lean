import Isolate.Proofs.Isolating.Descent

/-!
# The variable remains

What a step leaves of a side in canonical shape is nearly in canonical shape: some of the factors of a ratio, or some of
the terms of a sum, need flattening at most (`Expr.Peels.retains`). Nothing is folded or cancelled when it is
normalised, so no variable gets lost.

* `Expr.IsNormalOf.eq_analyze`: the normal form of what is canonical once it is flattened.
* `Expr.Peels.isVarying`: the normal form of what a step leaves holds a variable, if the side did.
-/

namespace Isolate

/-! ## Parts in canonical shape -/

theorem Ratio.neg_neg {t : Ratio Expr} (hne : t.numerator ≠ []) : t.neg.neg = t := by
  obtain ⟨ns, ds⟩ := t
  obtain ⟨⟨s, b, c⟩, as, rfl⟩ := List.exists_cons_of_ne_nil hne
  simp [neg, Expr.neg]

namespace Expr

variable {a b e p r x : Expr} {ts : List (Ratio Expr)} {t : Ratio Expr} {name template : String} {step : Step}

theorem IsCanonical.of_shape (h : a.IsCanonical) (hs : a.shape = b.shape) : b.IsCanonical := fun ts hts =>
  h ts (hs.trans hts)

theorem isByShape_isCanonical : IsByShape IsCanonical where
  congr hs ha := ha.of_shape hs
  number _ _ _ := nofun

/-- Some of the terms of a sum in canonical shape. -/
theorem AreCanonical.filter (h : AreCanonical ts) {p : Ratio Expr → Bool} (hne : ts.filter p ≠ [])
    (hfactor : ∀ a, ts.filter p ≠ [⟨[a], []⟩]) : AreCanonical (ts.filter p) where
  ne_nil := hne
  not_factor := hfactor
  flat t ht := h.flat t (List.mem_of_mem_filter ht)
  reduced t ht := h.reduced t (List.mem_of_mem_filter ht)
  unlike := h.unlike.filter p

/-- The opposites of the terms of a sum in canonical shape. -/
theorem AreCanonical.neg (h : AreCanonical ts) (hmany : ts.length ≠ 1) : AreCanonical (ts.map Ratio.neg) where
  ne_nil := by simpa using h.ne_nil
  not_factor a ha := hmany (by simpa using congrArg List.length ha)
  flat := List.forall_mem_map.mpr fun t ht => (h.flat t ht).neg
  reduced := List.forall_mem_map.mpr fun t ht => (h.reduced t ht).neg
  unlike := by
    refine List.pairwise_map.mpr (h.unlike.imp_of_mem fun {t u} ht hu htu => ?_)
    rwa [Ratio.IsLike, Ratio.others_neg (h.reduced t ht), Ratio.others_neg (h.reduced u hu)]

/-- Some of the factors of a sum with one term in canonical shape. -/
theorem AreCanonical.kept (h : AreCanonical [t]) (hne : t.kept.numerator ≠ [])
    (hfactor : ∀ a, [t.kept] ≠ [⟨[a], []⟩]) : AreCanonical [t.kept] where
  ne_nil := List.cons_ne_nil _ _
  not_factor := hfactor
  flat := by
    refine List.forall_mem_singleton.mpr ⟨fun e he => ?_, fun e he => absurd (congrArg ([·]) he) (hfactor e)⟩
    refine (h.flat t List.mem_cons_self).1 e ?_
    rcases List.mem_append.mp he with he | he
    · exact List.mem_append_left _ (List.mem_of_mem_filter he)
    · exact List.mem_append_right _ (List.mem_of_mem_filter he)
  reduced := List.forall_mem_singleton.mpr ((h.reduced t List.mem_cons_self).filter hne)
  unlike := List.pairwise_singleton _ _

/-! ## Flattening -/

/-- The normal form of a tree that is in canonical shape once it is flattened. -/
theorem IsNormalOf.eq_analyze (hr : r.IsNormalOf p) (hx : x.Everywhere IsCanonical) (hp : p.flatten.bare = x.bare) :
    r = x.analyze := by
  have hleft := hx.imp fun _ => IsCanonical.isLeft
  have hflat : x.flatten.bare = x.bare := bare_flatten_of_isFlat (hleft.imp fun _ hl => hl.flat)
  have htidy : p.tidy = x.analyze := by
    rw [← tidy_of_everywhere_isLeft hleft, tidy_analyze, tidy, tidy, analyze_congr (hp.trans hflat.symm)]
  rw [← htidy]
  refine hr.eq_tidy ?_
  rw [htidy, tidy_of_everywhere_isLeft hleft]

/-- Flattening a sum whose operands are in canonical shape flattens one node. -/
theorem bare_flatten_sum (h : ∀ t ∈ ts, ∀ a ∈ t.factors, a.Everywhere IsCanonical) :
    (sum ts).flatten.bare = (flattenStep (sum ts)).bare := by
  refine (isBottomUp_rebuildUp flattenStep).bare_of_children ignoresAnalysis_flattenStep fun a ha => ?_
  obtain ⟨t, ht, ha⟩ := List.mem_flatMap.mp ha
  exact (h t ht a ha).imp fun _ hc => flattenStep_of_isFlat hc.isLeft.flat

/-- Once it is flattened, the tree `p` is in canonical shape, and it holds all variables of the tree `e`. -/
def Retains (e p : Expr) : Prop :=
  ∃ x : Expr, x.Everywhere IsCanonical ∧ p.flatten.bare = x.bare ∧ ∀ name, x.Avoids name → e.Avoids name

theorem retains_of_canonical (hp : p.Everywhere IsCanonical) (hnames : ∀ name, p.Avoids name → e.Avoids name) :
    Retains e p :=
  ⟨p, hp, bare_flatten_of_isFlat (hp.imp fun _ hc => hc.isLeft.flat), hnames⟩

/-- A single factor stands for itself; its minus goes to the terms if it is a sum. -/
theorem retains_factor (ha : a.Everywhere IsCanonical) (hcount : a.termCount? ≠ some 1) : Retains a (sum [.of a]) := by
  rw [Retains]
  have hfactors : ∀ b ∈ (Ratio.of a).factors, b.Everywhere IsCanonical := List.forall_mem_singleton.mpr ha
  rw [bare_flatten_sum (List.forall_mem_singleton.mpr hfactors)]
  have hspliced : [Ratio.of a].flatMap Ratio.spliceTerm = a.asTerms := by
    have hfactors : (Ratio.of a).spliceFactors = .of a :=
      Ratio.spliceFactors_eq_self (List.forall_mem_singleton.mpr hcount)
    rw [List.flatMap_singleton, Ratio.spliceTerm, hfactors]
    rfl
  obtain ⟨s, b, c⟩ := a
  cases b with
  | sum ts =>
    obtain ⟨hnode, hchildren⟩ := everywhere_iff.mp ha
    have hts := hnode ts rfl
    have hmany : ts.length ≠ 1 := fun hlen => hcount (termCount?_eq_some.mpr ⟨ts, rfl, hlen⟩)
    have hflatten : ∀ us : List (Ratio Expr), (⟨s, .sum ts, c⟩ : Expr).asTerms = us → us.length ≠ 1 →
        flattenStep (sum [.of ⟨s, .sum ts, c⟩]) = ⟨.pos, .sum us, none⟩ := by
      intro us hus hlen
      simp only [flattenStep, sum, ofShape, hspliced, hus]
      split
      · exact absurd rfl hlen
      · rfl
    cases s with
    | pos => exact ⟨⟨.pos, .sum ts, c⟩, ha, by rw [hflatten ts rfl hmany, bare_mk, bare_mk], fun _ => id⟩
    | neg =>
      refine ⟨⟨.pos, .sum (ts.map Ratio.neg), none⟩, everywhere_iff.mpr ⟨?_, ?_⟩, ?_, ?_⟩
      · rintro us ⟨⟩
        exact hts.neg hmany
      · intro d hd
        obtain ⟨u, hu, hd⟩ := List.mem_flatMap.mp hd
        obtain ⟨t, ht, rfl⟩ := List.mem_map.mp hu
        have hold : t.Everywhere IsCanonical := fun b hb => hchildren b (List.mem_flatMap.mpr ⟨t, ht, hb⟩)
        exact hold.neg isByShape_isCanonical d hd
      · rw [hflatten (ts.map Ratio.neg) rfl (by simpa using hmany)]
      · intro name hname
        refine avoids_sum.mpr fun t ht => ?_
        have hneg := avoids_sum.mp hname _ (List.mem_map_of_mem ht)
        rw [← Ratio.neg_neg (hts.reduced t ht).numerator_ne_nil]
        exact hneg.neg
  | _ =>
    refine ⟨_, ha, ?_, fun _ => id⟩
    cases s <;> rfl

/-- A sum in canonical shape, or of a single factor. -/
theorem retains_sum (hchildren : ∀ t ∈ ts, ∀ a ∈ t.factors, a.Everywhere IsCanonical)
    (hts : AreCanonical ts ∨ ∃ a : Expr, ts = [.of a] ∧ a.termCount? ≠ some 1)
    (hnames : ∀ name, (∀ t ∈ ts, t.Avoids name) → e.Avoids name) : Retains e (sum ts) := by
  rcases hts with hts | ⟨a, rfl, hcount⟩
  · refine retains_of_canonical (everywhere_iff.mpr ⟨?_, fun a ha => ?_⟩) fun name hname => hnames name (avoids_sum.mp hname)
    · rintro us ⟨⟩
      exact hts
    · obtain ⟨t, ht, ha⟩ := List.mem_flatMap.mp ha
      exact hchildren t ht a ha
  · obtain ⟨x, hx, hflatten, hold⟩ := retains_factor (hchildren (.of a) List.mem_cons_self a List.mem_cons_self) hcount
    refine ⟨x, hx, hflatten, fun name hname => hnames name ?_⟩
    exact List.forall_mem_singleton.mpr (Ratio.avoids_of.mpr (hold name hname))

/-! ## Taking a step -/

theorem mem_factors_of_kept (h : a ∈ t.kept.factors) : a ∈ t.factors := by
  rcases List.mem_append.mp h with h | h
  · exact List.mem_append_left _ (List.mem_of_mem_filter h)
  · exact List.mem_append_right _ (List.mem_of_mem_filter h)

/-- A variable of a sum with one term occurs in a factor that is kept. -/
theorem avoids_of_kept (hshape : e.shape = .sum [t]) (h : t.kept.Avoids name) : e.Avoids name := by
  refine Avoids.of_shape (a := ⟨.pos, .sum [t], none⟩) (avoids_sum.mpr (List.forall_mem_singleton.mpr fun a ha => ?_))
    hshape.symm
  cases hv : a.isVarying with
  | false => exact avoids_of_not_isVarying hv name
  | true =>
    refine h a ?_
    rcases List.mem_append.mp ha with ha | ha
    · exact List.mem_append_left _ (List.mem_filter.mpr ⟨ha, hv⟩)
    · exact List.mem_append_right _ (List.mem_filter.mpr ⟨ha, hv⟩)

/-- A variable of a sum occurs in a varying term. -/
theorem avoids_of_varying (hshape : e.shape = .sum ts) (h : ∀ t ∈ ts.filter Ratio.isVarying, t.Avoids name) :
    e.Avoids name := by
  refine Avoids.of_shape (a := ⟨.pos, .sum ts, none⟩) (avoids_sum.mpr fun t ht => ?_) hshape.symm
  cases hv : t.isVarying with
  | false => exact Ratio.avoids_of_not_isVarying hv name
  | true => exact h t (List.mem_filter.mpr ⟨ht, hv⟩)

/-- The factors that are kept, if one of them is above the bar. -/
theorem retains_kept (he : e.Everywhere IsCanonical) (hshape : e.shape = .sum [t]) (hne : t.kept.numerator ≠ []) :
    Retains e (sum [t.kept]) := by
  obtain ⟨hnode, hchildren⟩ := everywhere_iff.mp he
  have hts := hnode [t] hshape
  have hkept : AreCanonical [t.kept] ∨ ∃ a : Expr, [t.kept] = [.of a] ∧ a.termCount? ≠ some 1 := by
    by_cases hone : ∃ a, t.kept = .of a
    · obtain ⟨a, ha⟩ := hone
      have hmem : a ∈ t.kept.factors := by
        rw [ha]
        exact List.mem_cons_self
      exact .inr ⟨a, by rw [ha], (hts.flat t List.mem_cons_self).1 a (mem_factors_of_kept hmem)⟩
    · exact .inl (hts.kept hne fun a ha => hone ⟨a, (List.cons.inj ha).1⟩)
  refine retains_sum (List.forall_mem_singleton.mpr fun a ha => ?_) hkept fun name hname =>
    avoids_of_kept hshape (hname _ List.mem_cons_self)
  exact hchildren a (mem_children_of_mem_factors hshape List.mem_cons_self (mem_factors_of_kept ha))

/-- The terms that are kept. -/
theorem retains_varying (he : e.Everywhere IsCanonical) (hvary : e.isVarying = true) (hshape : e.shape = .sum ts) :
    Retains e (sum (ts.filter Ratio.isVarying)) := by
  obtain ⟨hnode, hchildren⟩ := everywhere_iff.mp he
  have hts := hnode ts hshape
  have hsome : ts.filter Ratio.isVarying ≠ [] := by
    intro hnil
    obtain ⟨name, hocc⟩ := isVarying_iff.mp hvary
    exact hocc (avoids_of_varying hshape (by rw [hnil]; exact List.forall_mem_nil _))
  have hkept : AreCanonical (ts.filter Ratio.isVarying) ∨
      ∃ a : Expr, ts.filter Ratio.isVarying = [.of a] ∧ a.termCount? ≠ some 1 := by
    by_cases hone : ∃ a, ts.filter Ratio.isVarying = [.of a]
    · obtain ⟨a, ha⟩ := hone
      have hmem : Ratio.of a ∈ ts := by
        refine List.mem_of_mem_filter (p := Ratio.isVarying) ?_
        rw [ha]
        exact List.mem_cons_self
      exact .inr ⟨a, ha, (hts.flat _ hmem).1 a List.mem_cons_self⟩
    · exact .inl (hts.filter hsome fun a ha => hone ⟨a, ha⟩)
  refine retains_sum (fun t ht a ha => ?_) hkept fun name hname => avoids_of_varying hshape hname
  exact hchildren a (mem_children_of_mem_factors hshape (List.mem_of_mem_filter ht) ha)

/-- **What a step leaves is in canonical shape once it is flattened**, and holds all variables of the side, or it is
nothing over factors. -/
theorem Peels.retains (h : Peels template e step p) (he : e.Everywhere IsCanonical) (hvary : e.isVarying = true) :
    Retains e p ∨ ∃ t : Ratio Expr, e.shape = .sum [t] ∧ p = sum [t.kept] ∧ t.kept.numerator = [] := by
  cases h with
  | call hshape =>
    refine .inl (retains_of_canonical ((everywhere_iff.mp he).2 p ?_) fun n hn => avoids_iff.mpr ⟨?_, fun b hb => ?_⟩)
    · simp [children, hshape, Shape.children]
    · simp [hshape]
    · obtain rfl : b = p := by simpa [children, hshape, Shape.children] using hb
      exact hn
  | @ratio t hshape hmoved =>
    by_cases hnone : t.kept.numerator = []
    · exact .inr ⟨t, hshape, rfl, hnone⟩
    · exact .inl (retains_kept he hshape hnone)
  | terms hshape hmoved => exact .inl (retains_varying he hvary hshape)
  | minus hsign hstuck =>
    have habs : e.abs.Everywhere IsCanonical := isByShape_isCanonical.of_shape he rfl
    exact .inl (retains_of_canonical habs fun name hname => hname.of_shape rfl)

/-- **The normal form of what a step leaves holds a variable**, if the side did. -/
theorem Peels.isVarying (h : Peels template e step p) (he : e.tidy = e) (hvary : e.isVarying = true)
    (hr : r.IsNormalOf p) : r.isVarying = true := by
  obtain ⟨name, hocc⟩ := isVarying_iff.mp hvary
  rcases h.retains ((tidy_eq_self_iff (analyze_of_tidy he)).mp he) hvary with ⟨x, hx, hp, hnames⟩ | ⟨t, hshape, rfl, hnone⟩
  · rw [hr.eq_analyze hx hp]
    exact isVarying_iff.mpr ⟨name, fun hname => hocc (hnames name (avoids_analyze.mp hname))⟩
  · rw [hr.eq_inverted he hvary hshape hnone]
    refine isVarying_iff.mpr ⟨name, fun hname => hocc (avoids_of_kept hshape fun a ha => ?_)⟩
    refine avoids_sum.mp (avoids_analyze.mp hname) _ List.mem_cons_self a ?_
    rw [Ratio.factors, hnone] at ha
    exact List.mem_append_right _ ha

end Expr

end Isolate
