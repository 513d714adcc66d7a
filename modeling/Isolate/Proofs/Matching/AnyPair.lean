import Isolate.Proofs.Matching.Exchange
import Isolate.Proofs.Matching.Meeting
import Isolate.Proofs.Matching.Renaming

/-!
# The mode `anyPair` is the weaker one

What the mode `bijective` finds to be alike, the mode `anyPair` finds too, whatever has been observed before
(`Expr.matches_anyPair`). But it also observes the names that meet in comparisons of items that are not partners, and
nothing else (`Expr.keeps_anyPair`). So the names pass the check if the left side keeps different names apart.

* `Equation.isLike_anyPair`: if an equation is like another one in the mode `bijective`, they match in the mode `anyPair`,
  and are like each other in it if the first one keeps names apart.
-/

namespace Isolate

namespace Matcher

variable {V F : String → String → Prop} {P : Names → Prop} {β : Type} {m : Matcher β} {ms : List (Matcher β)}
  {b : β} {bs : List β} {x y : StateM Names Bool}

/-! ## Answers -/

/-- The run ends with a match, whatever has been observed. -/
def Succeeds (x : StateM Names Bool) : Prop := ∀ names, (x.run names).1 = true

theorem succeeds_and (hx : Succeeds x) (hy : Succeeds y) : Succeeds (do if ← x then y else return false) := by
  intro names
  rw [run_bind, hx names, if_pos rfl]
  exact hy _

/-- Once a match has been found, it stays found. -/
theorem succeeds_seek_true (m : Matcher β) (bs : List β) : Succeeds (seek m true bs) := by
  intro names
  cases bs with
  | nil => rfl
  | cons b bs =>
    rw [seek, run_bind, Bool.or_true, if_pos rfl]
    rfl

theorem succeeds_seek (hb : b ∈ bs) (hm : Succeeds (m b)) (found : Bool) : Succeeds (seek m found bs) := by
  induction bs generalizing found with
  | nil => cases hb
  | cons c bs ih =>
    intro names
    rw [seek, run_bind]
    rcases List.mem_cons.mp hb with rfl | hb
    · rw [hm names, Bool.true_or, if_pos rfl]
      rfl
    · split
      · rfl
      · exact ih hb false _

theorem succeeds_anyPair_true (ms : List (Matcher β)) (bs : List β) : Succeeds (anyPair true ms bs) := by
  induction ms with
  | nil => exact fun _ => rfl
  | cons m ms ih =>
    intro names
    rw [anyPair, run_bind, succeeds_seek_true m bs names]
    exact ih _

/-- Lists that correspond have some items that match. -/
theorem succeeds_list_anyPair (h : Corr (fun m b => Succeeds (m b)) ms bs) : Succeeds (list .anyPair ms bs) := by
  unfold list
  rw [if_neg (not_not_intro h.length_eq)]
  cases ms with
  | nil => exact fun _ => rfl
  | cons m ms =>
    obtain ⟨b, hb, hm⟩ := h.exists_related List.mem_cons_self
    intro names
    rw [if_neg (by simp)]
    show ((anyPair false (m :: ms) bs).run names).1 = true
    rw [anyPair, run_bind, succeeds_seek hb hm false names]
    exact succeeds_anyPair_true ms bs _

theorem succeeds_ratio_anyPair {r : Ratio (Matcher Expr)} {t : Ratio Expr} (h : r.Corr (fun m b => Succeeds (m b)) t) :
    Succeeds (ratio .anyPair r t) := by
  intro names
  simp only [ratio]
  rw [run_bind, run_bind, succeeds_list_anyPair h.1 names]
  show ((list .anyPair r.denominator t.denominator).run _).1 = true
  exact succeeds_list_anyPair h.2 _

end Matcher

namespace Expr

open Matcher (Succeeds succeeds_and succeeds_list_anyPair succeeds_ratio_anyPair)

variable {V F : String → String → Prop} {a b : Expr}

/-- **What is alike matches in the mode `anyPair`**, whatever has been observed. -/
theorem matches_anyPair (h : a.Alike V F b) : Succeeds (a.matcher .anyPair b) := by
  induction a using Expr.induction generalizing b with
  | h a ih =>
    obtain ⟨hs, hc⟩ := alike_iff.mp h
    rw [matcher_eq]
    simp only [if_pos hs]
    have hoperand : ∀ d ∈ a.children, ∀ e, d.Alike V F e → Succeeds (d.matcher .anyPair e) := fun d hd e => ih d hd
    unfold children at hoperand
    cases ha : a.shape <;> cases hb : b.shape <;> rw [ha, hb] at hc <;> rw [ha] at hoperand <;>
      simp only [Shape.Corr] at hc
    case number.number v w =>
      subst hc
      exact fun _ => decide_eq_true rfl
    case var.var m n => exact fun _ => rfl
    case power.power =>
      exact succeeds_and (hoperand _ (by simp [Shape.children]) _ hc.1) (hoperand _ (by simp [Shape.children]) _ hc.2)
    case modulo.modulo =>
      exact succeeds_and (hoperand _ (by simp [Shape.children]) _ hc.1) (hoperand _ (by simp [Shape.children]) _ hc.2)
    case factorial.factorial => exact hoperand _ (by simp [Shape.children]) _ hc
    case call.call m as n bs =>
      exact succeeds_and (succeeds_list_anyPair (Corr.map_left.mpr (hc.2.imp hoperand))) fun _ => rfl
    case sum.sum ts us =>
      have hratio : ∀ t ∈ ts, ∀ u, t.Corr (Alike V F) u →
          Succeeds (Matcher.ratio .anyPair (t.map (matcher .anyPair)) u) := fun t ht u htu =>
        succeeds_ratio_anyPair (htu.map_left fun d hd e => hoperand d (List.mem_flatMap.mpr ⟨t, ht, hd⟩) e)
      have hterms : Corr (fun m u => Succeeds (m u)) (ts.map fun t => Matcher.ratio .anyPair (t.map (matcher .anyPair))) us :=
        Corr.map_left.mpr (hc.imp hratio)
      rw [Shape.map]
      show Succeeds (Matcher.list .anyPair ((ts.map (Ratio.map (matcher .anyPair))).map (Matcher.ratio .anyPair)) us)
      rw [List.map_map]
      exact succeeds_list_anyPair hterms

end Expr

theorem Comparable.matches_sides {V F : String → String → Prop} {as bs : List Expr}
    (h : List.Forall₂ (fun a b => a.arrange.Alike V F b.arrange) as bs) : Matcher.Succeeds (sides .anyPair as bs) := by
  induction h with
  | nil => exact fun _ => rfl
  | cons hab _ ih => exact Matcher.succeeds_and (Expr.matches_anyPair hab) ih

/-! ## Observations -/

namespace Matcher

variable {P : Names → Prop} {β : Type} {ms : List (Matcher β)} {bs : List β}

theorem keeps_bind {x : StateM Names α} {f : α → StateM Names Bool} (hx : ∀ names, P names → P (x.run names).2)
    (hf : ∀ a, Keeps P (f a)) : Keeps P (x >>= f) := fun names hn => hf _ _ (hx names hn)

theorem keeps_seek {m : Matcher β} (h : ∀ b ∈ bs, Keeps P (m b)) (found : Bool) : Keeps P (seek m found bs) := by
  induction bs generalizing found with
  | nil => exact keeps_pure found
  | cons b bs ih =>
    obtain ⟨hb, hbs⟩ := List.forall_mem_cons.mp h
    refine keeps_bind hb fun answer => ?_
    split
    · exact keeps_pure true
    · exact ih hbs false

theorem keeps_anyPair (h : ∀ m ∈ ms, ∀ b ∈ bs, Keeps P (m b)) (found : Bool) : Keeps P (anyPair found ms bs) := by
  induction ms generalizing found with
  | nil => exact keeps_pure found
  | cons m ms ih =>
    obtain ⟨hm, hms⟩ := List.forall_mem_cons.mp h
    exact keeps_bind (keeps_seek hm found) fun found => ih hms found

/-- Lists of one length are compared item by item, in some order. -/
theorem keeps_list_anyPair (h : ms.length = bs.length → ∀ m ∈ ms, ∀ b ∈ bs, Keeps P (m b)) :
    Keeps P (list .anyPair ms bs) := by
  unfold list
  split
  · exact keeps_pure false
  · rename_i hlen
    split
    · exact keeps_pure true
    · exact keeps_anyPair (h (not_not.mp hlen)) false

theorem keeps_list_map {f : α → Matcher β} {as : List α}
    (h : as.length = bs.length → ∀ a ∈ as, ∀ b ∈ bs, Keeps P (f a b)) : Keeps P (list .anyPair (as.map f) bs) := by
  refine keeps_list_anyPair fun hlen m hm => ?_
  obtain ⟨a, ha, rfl⟩ := List.mem_map.mp hm
  exact h (by simpa using hlen) a ha

theorem keeps_ratio_map {f : Expr → Matcher Expr} {t u : Ratio Expr}
    (hn : t.numerator.length = u.numerator.length → ∀ a ∈ t.numerator, ∀ b ∈ u.numerator, Keeps P (f a b))
    (hd : t.denominator.length = u.denominator.length → ∀ a ∈ t.denominator, ∀ b ∈ u.denominator, Keeps P (f a b)) :
    Keeps P (ratio .anyPair (t.map f) u) :=
  keeps_bind (keeps_list_map hn) fun _ => keeps_bind (keeps_list_map hd) fun _ => keeps_pure _

end Matcher

/-- **A comparison in the mode `anyPair` keeps what is kept when names that meet are noted.** -/
theorem Expr.keeps_anyPair {P : Names → Prop} (a b : Expr)
    (hrecord : ∀ k m n, a.Meets k m n b → ∀ names, P names → P (names.record k m n)) :
    Matcher.Keeps P (a.matcher .anyPair b) := by
  induction a using Expr.induction generalizing b with
  | h a ih =>
    rw [matcher_eq]
    by_cases hs : a.sign = b.sign
    · simp only [if_pos hs]
      have hnode : ∀ k m n, a.shape.Meets k m n (Meets k m n) b.shape → ∀ names, P names → P (names.record k m n) :=
        fun k m n h => hrecord k m n (meets_iff.mpr ⟨hs, h⟩)
      unfold children at ih
      cases ha : a.shape <;> cases hb : b.shape <;> rw [ha, hb] at hnode <;> rw [ha] at ih
      case number.number v w => exact Matcher.keeps_pure _
      case var.var m n => exact hnode .var m n ⟨rfl, rfl, rfl⟩
      case power.power a d a' d' =>
        exact Matcher.keeps_and (ih a (by simp [Shape.children]) a' fun k m n h => hnode k m n (.inl h))
          (ih d (by simp [Shape.children]) d' fun k m n h => hnode k m n (.inr h))
      case modulo.modulo a d a' d' =>
        exact Matcher.keeps_and (ih a (by simp [Shape.children]) a' fun k m n h => hnode k m n (.inl h))
          (ih d (by simp [Shape.children]) d' fun k m n h => hnode k m n (.inr h))
      case factorial.factorial a a' => exact ih a (by simp [Shape.children]) a' hnode
      case call.call m as n bs =>
        by_cases hlen : as.length = bs.length
        · refine Matcher.keeps_and (Matcher.keeps_list_map fun _ d hd e he => ih d hd e fun k m n h => ?_)
            (hnode .call m n (.inl ⟨hlen, rfl, rfl, rfl⟩))
          exact hnode k m n (.inr ⟨hlen, d, hd, e, he, h⟩)
        · have hfalse : Matcher.list .anyPair (as.map (matcher .anyPair)) bs = pure false := by
            rw [Matcher.list, if_pos (by simpa using hlen)]
          simp only [Shape.map, Matcher.shape, hfalse]
          exact Matcher.keeps_pure false
      case sum.sum ts us =>
        have hoperand : ∀ t ∈ ts, ∀ a ∈ t.factors, a ∈ (Shape.sum ts).children := fun t ht a ha =>
          List.mem_flatMap.mpr ⟨t, ht, ha⟩
        simp only [Shape.map, Matcher.shape, List.map_map]
        refine Matcher.keeps_list_map fun hlen t ht u hu => Matcher.keeps_ratio_map ?_ ?_
        · exact fun hn d hd e he => ih d (hoperand t ht d (List.mem_append_left _ hd)) e fun k m n h =>
            hnode k m n ⟨hlen, t, ht, u, hu, .inl ⟨hn, d, hd, e, he, h⟩⟩
        · exact fun hn d hd e he => ih d (hoperand t ht d (List.mem_append_right _ hd)) e fun k m n h =>
            hnode k m n ⟨hlen, t, ht, u, hu, .inr ⟨hn, d, hd, e, he, h⟩⟩
      all_goals exact Matcher.keeps_pure false
    · simp only [if_neg hs]
      exact Matcher.keeps_pure false

/-! ## Both modes -/

namespace Expr

variable {k : Kind} {m n : String} {a b : Expr}

/-- Names that meet in arranged trees meet in the trees. -/
theorem Meets.of_arrange (h : a.arrange.Meets k m n b.arrange) : a.Meets k m n b := by
  obtain ⟨_, rfl, hright⟩ := h.of_alikeBy (R := fun _ => Eq) b.rearranges_arrange
  obtain ⟨_, rfl, hleft⟩ := hright.symm.of_alikeBy (R := fun _ => Eq) a.rearranges_arrange
  exact hleft.symm

/-- A tree that keeps names apart, compared with one that is alike by a renaming, brings no names together that do not
belong together by it. -/
theorem KeepsApart.keeps_fits {T : Kind → String → Prop} {ρ : Renaming} (ha : a.KeepsApart)
    (hab : a.arrange.AlikeBy (fun k m n => T k m ∧ ρ k m = n) b.arrange) :
    Matcher.Keeps (Names.Fits T ρ) (a.arrange.matcher .anyPair b.arrange) := by
  refine a.arrange.keeps_anyPair b.arrange fun k m n hmeets names hfits => ?_
  obtain ⟨m', ⟨hnoted, rfl⟩, hself⟩ := hmeets.of_alikeBy hab
  obtain rfl : m = m' := ha.meetsSame k m m' hself.of_arrange
  exact hfits.record hnoted

end Expr

theorem Comparable.keeps_sides_anyPair {P : Names → Prop} {as bs : List Expr}
    (h : List.Forall₂ (fun a b => Matcher.Keeps P (a.arrange.matcher .anyPair b.arrange)) as bs) :
    Matcher.Keeps P (sides .anyPair as bs) := by
  induction h with
  | nil => exact Matcher.keeps_pure true
  | cons hab _ ih => exact Matcher.keeps_and hab ih

namespace Equation

variable {q r : Equation}

/-- Every side keeps names apart. -/
def KeepsApart (q : Equation) : Prop := ∀ e ∈ q.sides, e.KeepsApart

/-- The sides of equations that are like each other match in the mode `anyPair`, and the names that are observed then
pass the check if the first equation keeps names apart. -/
theorem run_anyPair_of_isLike (h : isLike .bijective q r = true) :
    ((Comparable.sides .anyPair q.sides r.sides).run {}).1 = true ∧
      (q.KeepsApart → ((Comparable.sides .anyPair q.sides r.sides).run {}).2.check = true) := by
  obtain ⟨-, hrun, hcheck⟩ := isLike_iff.mp h
  let names := ((Comparable.sides .bijective q.sides r.sides).run {}).2
  have hdistinct : names.IsDistinct := Comparable.keeps_sides q.sides r.sides {} ⟨List.nodup_nil, List.nodup_nil⟩
  have halike : List.Forall₂ (fun a b => a.arrange.AlikeBy (fun k m n => names.Notes k m ∧ names.observed k m = n) b.arrange)
      q.sides r.sides :=
    (Comparable.tells_sides q.sides r.sides {} hrun (Names.within_observed hdistinct hcheck)).2
  refine ⟨Comparable.matches_sides halike {}, fun hapart => ?_⟩
  have hkeeps := Comparable.keeps_sides_anyPair (forall₂_imp_of_mem (fun a ha b hab => (hapart a ha).keeps_fits hab) halike)
  have hempty : ({} : Names).Fits names.Notes names.observed := Names.fits_empty fun k m n hm hn heq =>
    Names.observed_injective hdistinct hcheck hm hn heq
  exact (hkeeps {} hempty).check

/-- **The mode `anyPair` is the weaker one.** If an equation is like another one in the mode `bijective`, the two match in
the mode `anyPair`. The names that are then observed pass the check too if no two items of a list of the first equation
bring different names together; so such an equation is like itself in either mode. -/
theorem isLike_anyPair (h : isLike .bijective q r = true) :
    ∃ x, Comparable.isSame .anyPair (.equation q) (.equation r) = .ok x ∧ (x.run {}).1 = true ∧
      (q.KeepsApart → (x.run {}).2.check = true ∧ ∀ mode, isLike mode q q = true) := by
  have hlen := (isLike_iff.mp h).1
  obtain ⟨hrun, hcheck⟩ := run_anyPair_of_isLike h
  refine ⟨_, by rw [Comparable.isSame, if_pos hlen], hrun, fun hapart => ⟨hcheck hapart, fun mode => ?_⟩⟩
  cases mode with
  | bijective => exact isLike_self q
  | anyPair =>
    obtain ⟨hself, hselfCheck⟩ := run_anyPair_of_isLike (isLike_self q)
    exact isLike_iff.mpr ⟨rfl, hself, hselfCheck hapart⟩

/-- The equation `2 * sin(x) + y ^ 2 = x + 1`. -/
def sineAndSquare : Equation :=
  ⟨[.sum [⟨[.number 2, .call "sin" [.var "x"]], []⟩, .of ((Expr.var "y").pow (.number 2))],
    (Expr.var "x").add (.number 1)]⟩

/-- The equation `v ^ 2 + sin(u) * 2 = 1 + u`. -/
def squareAndSine : Equation :=
  ⟨[.sum [.of ((Expr.var "v").pow (.number 2)), ⟨[.call "sin" [.var "u"], .number 2], []⟩],
    (Expr.number 1).add (.var "u")]⟩

theorem keepsApart_sineAndSquare : sineAndSquare.KeepsApart := by
  have hterms : Ratio.MeetsSame ⟨[.number 2, .call "sin" [.var "x"]], []⟩ ⟨[(Expr.var "y").pow (.number 2)], []⟩ := by
    simp [Ratio.MeetsSame, Ratio.Crosses, Crosses]
  have hother : Ratio.MeetsSame ⟨[.var "x"], []⟩ ⟨[.number 1], []⟩ := by
    rintro k m n (⟨-, h⟩ | ⟨-, h⟩)
    · simp only [List.mem_singleton, exists_eq_left] at h
      exact Expr.meetsSame_number_right _ _ k m n h
    · simp at h
  simp [sineAndSquare, KeepsApart, Expr.add, Ratio.factors, Shape.KeepsApart, hterms, hother, Ratio.of]

theorem isLike_anyPair_sineAndSquare : isLike .bijective sineAndSquare squareAndSine = true ∧ sineAndSquare.KeepsApart ∧
    ∃ x, Comparable.isSame .anyPair (.equation sineAndSquare) (.equation squareAndSine) = .ok x ∧ (x.run {}).1 = true ∧
      (x.run {}).2.check = true ∧ ∀ mode, isLike mode sineAndSquare sineAndSquare = true := by
  have hlike : isLike .bijective sineAndSquare squareAndSine = true := by cbv
  obtain ⟨x, hx, hrun, hapart⟩ := isLike_anyPair hlike
  exact ⟨hlike, keepsApart_sineAndSquare, x, hx, hrun, hapart keepsApart_sineAndSquare⟩

/-- The equation `a + b = 0`. -/
def twoVariables : Equation := ⟨[(Expr.var "a").add (.var "b"), .number 0]⟩

/-- In the mode `anyPair` both variables of `a + b` are compared with the first one, so the equation is not like itself. -/
theorem not_isLike_anyPair_twoVariables : isLike .bijective twoVariables twoVariables = true ∧
    ((Comparable.sides .anyPair twoVariables.sides twoVariables.sides).run {}).1 = true ∧
      isLike .anyPair twoVariables twoVariables = false := by
  refine ⟨by cbv, by cbv, by cbv⟩

end Equation

end Isolate
