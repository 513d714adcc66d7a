import Isolate.Proofs.Matching.Exchange
import Isolate.Proofs.Matching.Renaming
import Isolate.Proofs.Matching.Unambiguous

/-!
# Finding a renaming

A comparison goes by the first renaming with which a part can be matched, and does not come back to it when another part
fails. If every part fixes the names that it shares with the parts beside it, there is nothing to come back to: whichever
renaming a part is matched by, it is as good for the others (`Matcher.Finds.exchange`), and the match is found.

* `Matcher.run_pairUp_of_corr`: in a list, the right partner of an item is found, or another one that is as good.
* `Expr.searches_matcher`: the matcher of an unambiguous tree finds a renaming if there is one.
-/

namespace Isolate

open Isolate.Expr (together AreUnambiguous)

namespace Matcher

variable {β : Type} {T : Kind → String → Prop} {ρ : Renaming} {names : Names} {x y : StateM Names Bool}
  {a b c d e : Expr}

/-! ## One part after the other -/

/-- The run finds the trees to be the same if a renaming that fits says so, and leaves names that pass the check. -/
def Finds (x : StateM Names Bool) (e b : Expr) : Prop :=
  ∀ (T : Kind → String → Prop) (ρ : Renaming) (names : Names), names.Fits T ρ → (∀ k n, e.Mentions k n → T k n) →
    e.LikeBy ρ b → (x.run names).1 = true ∧ (x.run names).2.check = true

/-- **However a part is matched, it is as good for the others.** -/
theorem Finds.exchange (hf : Finds x e b) (hx : Compares x e b) (h : names.Fits T ρ)
    (hT : ∀ k n, e.Mentions k n → T k n) (hlike : e.LikeBy ρ b) :
    (x.run names).1 = true ∧ ∃ ρ', (x.run names).2.Fits T ρ' ∧
      ∀ d c, e.FixesShared d → d.LikeBy ρ c → d.LikeBy ρ' c := by
  obtain ⟨hrun, hcheck⟩ := hf T ρ names h hT hlike
  obtain ⟨ρ', hfits, hlike', hother⟩ := h.exchange hx hT hlike hrun hcheck
  have hinjective : ∀ σ : Renaming, σ.InjectiveOn T → σ.InjectiveOn e.Mentions := fun σ hσ k m n hm hn =>
    hσ k m n (hT k m hm) (hT k n hn)
  refine ⟨hrun, ρ', hfits, fun d c hfix hd => hd.congr fun k m hm => ?_⟩
  by_cases he : e.Mentions k m
  · exact hfix k m he hm ρ' ρ b (hinjective ρ' hfits.injective) (hinjective ρ h.injective) hlike' hlike
  · exact hother k m he

/-- A run that matches one part and then another. -/
theorem run_and (hx : Compares x e b) (hfx : Finds x e b) (hfy : Finds y d c) (hfix : e.FixesShared d)
    (h : names.Fits T ρ) (he : ∀ k n, e.Mentions k n → T k n) (hd : ∀ k n, d.Mentions k n → T k n)
    (hlike : e.LikeBy ρ b) (hlike' : d.LikeBy ρ c) :
    ((do if ← x then y else return false : StateM Names Bool).run names).1 = true ∧
      ((do if ← x then y else return false : StateM Names Bool).run names).2.check = true := by
  obtain ⟨hrun, ρ', hfits, hothers⟩ := hfx.exchange hx h he hlike
  rw [run_bind, hrun, if_pos rfl]
  exact hfy T ρ' _ hfits hd (hothers d c hfix hlike')

/-! ## Lists -/

theorem exists_pick {b : β} {bs cs : List β} (h : (b :: cs).Perm bs) : ∃ rest, (b, rest) ∈ picks bs ∧ cs.Perm rest := by
  obtain ⟨pre, post, rfl⟩ := List.append_of_mem (h.mem_iff.mp List.mem_cons_self)
  refine ⟨pre ++ post, ?_, (List.perm_cons b).mp (h.trans List.perm_middle)⟩
  clear h
  induction pre with
  | nil => exact List.mem_cons_self
  | cons d pre ih => exact List.mem_cons_of_mem _ (List.mem_map.mpr ⟨_, ih, rfl⟩)

/-- Pairing leaves names that pass the check if they did before. -/
theorem check_of_pairUp {ms : List (Matcher β)} {bs : List β} (h : names.check = true) :
    ((pairUp ms bs).run names).2.check = true := by
  induction ms generalizing bs names with
  | nil => exact h
  | cons m ms ih =>
    rw [run_pairUp_cons]
    cases hfind : (picks bs).findSome? _ with
    | none => exact h
    | some result =>
      obtain ⟨p, -, hpick⟩ := List.exists_of_findSome?_eq_some hfind
      split at hpick
      · rename_i hfirst
        split at hpick
        · obtain rfl := Option.some.inj hpick
          exact ih hfirst.2
        · cases hpick
      · cases hpick

/-- The matcher compares with a tree whatever it is given, and finds what is the same. -/
def Searches (tree : β → Expr) (m : Matcher β) (e : Expr) : Prop :=
  ∀ b, Compares (m b) e (tree b) ∧ Finds (m b) e (tree b)

/-- **A list is paired if a renaming that fits says how.** -/
theorem run_pairUp_of_corr {tree : β → Expr} {ms : List (Matcher β)} {es : List Expr} {bs : List β}
    (hms : List.Forall₂ (Searches tree) ms es) (hes : AreUnambiguous es) (h : names.Fits T ρ)
    (hT : ∀ e ∈ es, ∀ k n, e.Mentions k n → T k n) (hlike : Corr (fun e b => e.LikeBy ρ (tree b)) es bs) :
    ((pairUp ms bs).run names).1 = true := by
  induction hms generalizing bs ρ names with
  | nil => rfl
  | @cons m e ms es hm _ ih =>
    obtain ⟨hfix, hes⟩ := List.pairwise_cons.mp hes
    obtain ⟨he, hT⟩ := List.forall_mem_cons.mp hT
    obtain ⟨_, hf, hp⟩ := hlike
    cases hf with
    | @cons _ b _ cs hb hrest =>
      obtain ⟨rest, hpick, hperm⟩ := exists_pick hp
      obtain ⟨hcompares, hfinds⟩ := hm b
      obtain ⟨hrun, ρ', hfits, hothers⟩ := hfinds.exchange hcompares h he hb
      have hrest' : List.Forall₂ (fun e b => e.LikeBy ρ' (tree b)) es cs :=
        forall₂_imp_of_mem (fun d hd _ => hothers d _ (hfix d hd).1) hrest
      have htail := ih hes hfits hT ⟨cs, hrest', hperm⟩
      rw [run_pairUp_cons]
      cases hfind : (picks bs).findSome? _ with
      | none =>
        have hnone := List.findSome?_eq_none_iff.mp hfind _ hpick
        rw [if_pos ⟨hrun, hfits.check⟩, if_pos htail] at hnone
        cases hnone
      | some result =>
        obtain ⟨p, -, hsome⟩ := List.exists_of_findSome?_eq_some hfind
        split at hsome
        · split at hsome
          · rw [← Option.some.inj hsome]
            rfl
          · cases hsome
        · cases hsome

theorem run_list_of_corr {tree : β → Expr} {ms : List (Matcher β)} {es : List Expr} {bs : List β}
    (hms : List.Forall₂ (Searches tree) ms es) (hes : AreUnambiguous es) (h : names.Fits T ρ)
    (hT : ∀ e ∈ es, ∀ k n, e.Mentions k n → T k n) (hlike : Corr (fun e b => e.LikeBy ρ (tree b)) es bs) :
    ((list .bijective ms bs).run names).1 = true ∧ ((list .bijective ms bs).run names).2.check = true := by
  rw [list_bijective (hms.length_eq.trans hlike.length_eq)]
  exact ⟨run_pairUp_of_corr hms hes h hT hlike, check_of_pairUp h.check⟩

/-! ## Nodes -/

theorem compares_exprs (as bs : List Expr) :
    Compares (list .bijective (as.map (Expr.matcher .bijective)) bs) (together as) (together bs) := by
  refine ⟨fun R => ?_, fun P hrecord => keeps_list (fun m hm => ?_) bs⟩
  · exact (tells_list_map (fun a _ => a.tells_matcher) bs).imp Expr.alikeBy_together.mpr
  · obtain ⟨a, ha, rfl⟩ := List.mem_map.mp hm
    exact fun b => a.keeps_of_record b fun k m hm => hrecord k m (Expr.mentions_together.mpr ⟨a, ha, hm⟩)

theorem compares_ratio (t u : Ratio Expr) : Compares (t.matcher .bijective u) (.sum [t]) (.sum [u]) := by
  refine ⟨fun R => (t.tells_matcher u).imp Expr.alikeBy_sum_singleton.mpr, fun P hrecord => ?_⟩
  refine keeps_ratio (fun m hm => ?_) u
  rw [Ratio.factors_map] at hm
  obtain ⟨a, ha, rfl⟩ := List.mem_map.mp hm
  exact fun b => a.keeps_of_record b fun k m hm =>
    hrecord k m (Expr.mentions_sum.mpr ⟨t, List.mem_cons_self, a, ha, hm⟩)

theorem forall₂_searches {α : Type} {tree : β → Expr} {f : α → Matcher β} {g : α → Expr} {as : List α}
    (h : ∀ a ∈ as, Searches tree (f a) (g a)) : List.Forall₂ (Searches tree) (as.map f) (as.map g) := by
  rw [List.forall₂_map_left_iff, List.forall₂_map_right_iff, List.forall₂_same]
  exact h

theorem finds_exprs {as : List Expr} (h : ∀ a ∈ as, Searches id (a.matcher .bijective) a) (has : AreUnambiguous as)
    (bs : List Expr) : Finds (list .bijective (as.map (Expr.matcher .bijective)) bs) (together as) (together bs) := by
  intro T ρ names hfits hT hlike
  have hms := forall₂_searches (g := id) h
  rw [List.map_id] at hms
  refine run_list_of_corr hms has hfits (fun e he k n hn => hT k n (Expr.mentions_together.mpr ⟨e, he, hn⟩)) ?_
  exact Expr.alikeBy_together.mp hlike

theorem finds_ratio {t : Ratio Expr} (h : ∀ a ∈ t.factors, Searches id (a.matcher .bijective) a)
    (hnumerator : AreUnambiguous t.numerator) (hdenominator : AreUnambiguous t.denominator)
    (hfix : (together t.numerator).FixesShared (together t.denominator)) (u : Ratio Expr) :
    Finds (t.matcher .bijective u) (.sum [t]) (.sum [u]) := by
  intro T ρ names hfits hT hlike
  obtain ⟨hnum, hden⟩ := Expr.alikeBy_sum_singleton.mp hlike
  have hmem : ∀ es, (∀ e ∈ es, e ∈ t.factors) → ∀ k n, (together es).Mentions k n → T k n := by
    intro es hes k n hn
    obtain ⟨e, he, hn⟩ := Expr.mentions_together.mp hn
    exact hT k n (Expr.mentions_sum.mpr ⟨t, List.mem_cons_self, e, hes e he, hn⟩)
  exact run_and (compares_exprs _ _) (finds_exprs (fun a ha => h a (List.mem_append_left _ ha)) hnumerator _)
    (finds_exprs (fun a ha => h a (List.mem_append_right _ ha)) hdenominator _) hfix hfits
    (hmem _ fun _ => List.mem_append_left _) (hmem _ fun _ => List.mem_append_right _)
    (Expr.alikeBy_together.mpr hnum) (Expr.alikeBy_together.mpr hden)

theorem searches_ratio {t : Ratio Expr} (h : ∀ a ∈ t.factors, Searches id (a.matcher .bijective) a)
    (ht : AreUnambiguous t.numerator ∧ AreUnambiguous t.denominator ∧
      (together t.numerator).FixesShared (together t.denominator)) :
    Searches (fun u => .sum [u]) (t.matcher .bijective) (.sum [t]) :=
  fun u => ⟨compares_ratio t u, finds_ratio h ht.1 ht.2.1 ht.2.2 u⟩

theorem finds_ratios {ts : List (Ratio Expr)}
    (h : ∀ t ∈ ts, Searches (fun u => .sum [u]) (t.matcher .bijective) (.sum [t]))
    (hts : AreUnambiguous (ts.map fun t => .sum [t])) (us : List (Ratio Expr)) :
    Finds (list .bijective (ts.map (Ratio.matcher .bijective)) us) (.sum ts) (.sum us) := by
  intro T ρ names hfits hT hlike
  refine run_list_of_corr (forall₂_searches h) hts hfits (fun e he k n hn => ?_) ?_
  · obtain ⟨t, ht, rfl⟩ := List.mem_map.mp he
    obtain ⟨u, hu, e, he, hn⟩ := Expr.mentions_sum.mp hn
    rw [List.mem_singleton.mp hu] at he
    exact hT k n (Expr.mentions_sum.mpr ⟨t, ht, e, he, hn⟩)
  · refine Corr.map_left.mpr ((Expr.alikeBy_sum.mp hlike).imp fun t _ u htu => ?_)
    exact Expr.alikeBy_sum_singleton.mpr htu

theorem finds_recordFunction (m n : String) :
    Finds (do modify (Names.recordFunction m n); return true) (.call m []) (.call n []) := by
  intro T ρ names hfits hT hlike
  obtain rfl : ρ .call m = n := (Expr.alikeBy_iff.mp hlike).2.1
  have hm : T .call m := hT .call m (Expr.mentions_iff.mpr (.inl ⟨rfl, rfl⟩))
  exact ⟨rfl, (hfits.record hm).check⟩

/-- A node is found if its operands are. -/
theorem run_shape {p r : Shape Expr} (hp : p.IsUnambiguous)
    (hsearches : ∀ d ∈ p.children, Searches id (d.matcher .bijective) d) (h : names.Fits T ρ)
    (hname : ∀ k n, p.Has k n → T k n) (hT : ∀ d ∈ p.children, ∀ k n, d.Mentions k n → T k n)
    (hcorr : Shape.Corr (ρ .var · = ·) (ρ .call · = ·) (Expr.LikeBy ρ) p r) :
    ((shape .bijective (p.map (Expr.matcher .bijective)) r).run names).1 = true ∧
      ((shape .bijective (p.map (Expr.matcher .bijective)) r).run names).2.check = true := by
  cases p <;> cases r <;> simp only [Shape.Corr] at hcorr <;> simp only [Shape.children] at hsearches hT
  case number.number v w => exact ⟨decide_eq_true hcorr, h.check⟩
  case var.var m n =>
    obtain rfl := hcorr
    exact ⟨rfl, (h.record (hname .var m ⟨rfl, rfl⟩)).check⟩
  case power.power d e d' e' =>
    have hd := hsearches d (by simp) d'
    exact run_and hd.1 hd.2 (hsearches e (by simp) e').2 hp h (hT d (by simp)) (hT e (by simp)) hcorr.1 hcorr.2
  case modulo.modulo d e d' e' =>
    have hd := hsearches d (by simp) d'
    exact run_and hd.1 hd.2 (hsearches e (by simp) e').2 hp h (hT d (by simp)) (hT e (by simp)) hcorr.1 hcorr.2
  case factorial.factorial d d' => exact (hsearches d (by simp) d').2 T ρ names h (hT d (by simp)) hcorr
  case call.call m as n bs =>
    have harguments : ∀ k n, (together as).Mentions k n → T k n := by
      intro k n hn
      obtain ⟨e, he, hn⟩ := Expr.mentions_together.mp hn
      exact hT e he k n hn
    have hcall : ∀ k n, (Expr.call m []).Mentions k n → T k n := by
      intro k n hn
      rcases Expr.mentions_iff.mp hn with hhas | ⟨e, he, -⟩
      · exact hname k n hhas
      · cases he
    exact run_and (compares_exprs as bs) (finds_exprs hsearches hp.1 bs) (finds_recordFunction m n) hp.2 h harguments
      hcall (Expr.alikeBy_together.mpr hcorr.2) (Expr.alikeBy_iff.mpr ⟨rfl, hcorr.1, Corr.nil_iff.mpr rfl⟩)
  case sum.sum ts us =>
    have hratios : ∀ t ∈ ts, Searches (fun u => .sum [u]) (t.matcher .bijective) (.sum [t]) := fun t ht =>
      searches_ratio (fun e he => hsearches e (List.mem_flatMap.mpr ⟨t, ht, he⟩)) (hp.2 t ht)
    have hterms : ∀ k n, (Expr.sum ts).Mentions k n → T k n := by
      intro k n hn
      obtain ⟨t, ht, e, he, hn⟩ := Expr.mentions_sum.mp hn
      exact hT e (List.mem_flatMap.mpr ⟨t, ht, he⟩) k n hn
    have hfinds := finds_ratios hratios hp.1 us T ρ names h hterms (Expr.alikeBy_sum.mpr hcorr)
    rw [Shape.map, shape]
    rwa [List.map_map]

end Matcher

open Matcher (Searches) in
/-- **The matcher of an unambiguous tree finds a renaming if there is one.** -/
theorem Expr.searches_matcher {a : Expr} (ha : a.IsUnambiguous) : Searches id (a.matcher .bijective) a := by
  induction a using Expr.induction with
  | h a ih =>
    intro b
    refine ⟨⟨fun _ => a.tells_matcher b, fun _ hrecord => a.keeps_of_record b hrecord⟩, ?_⟩
    intro T ρ names hfits hT hlike
    obtain ⟨hshape, hchildren⟩ := isUnambiguous_iff.mp ha
    obtain ⟨hsign, hcorr⟩ := alikeBy_iff.mp hlike
    have hsign' : a.sign = b.sign := hsign
    rw [matcher_eq]
    simp only [if_pos hsign']
    refine Matcher.run_shape hshape (fun d hd => ih d hd (hchildren d hd)) hfits (fun k n hn => ?_)
      (fun d hd k n hn => ?_) hcorr
    · exact hT k n (mentions_iff.mpr (.inl hn))
    · exact hT k n (mentions_iff.mpr (.inr ⟨d, hd, hn⟩))

end Isolate
