import Isolate.Proofs.Matching.Mentions
import Mathlib.Data.List.Pairwise

/-!
# Names that may meet

A comparison in the mode `anyPair` goes on after it has found a match, so it brings together names of items that are not
partners. A name *meets* another one if some comparison of any item of a list with any item of the other list may bring
them together (`Expr.Meets`); the order of the items does not matter for that (`Expr.Meets.of_alikeBy`).

* `Expr.Meets.eq`: a tree whose lists have no two items with different names that meet (`Expr.KeepsApart`) brings no
  different names together when it is compared with itself.
-/

namespace Isolate

/-! ## What may meet -/

/-- Some item of one list is related to some item of another one, and the lists have one length. -/
def Crosses (R : α → β → Prop) (as : List α) (bs : List β) : Prop := as.length = bs.length ∧ ∃ a ∈ as, ∃ b ∈ bs, R a b

/-- Numerators cross, or denominators do. -/
def Ratio.Crosses (R : α → β → Prop) (t : Ratio α) (u : Ratio β) : Prop :=
  Isolate.Crosses R t.numerator u.numerator ∨ Isolate.Crosses R t.denominator u.denominator

/-- The name `m` of one node and the name `n` of another one of the same form, both of kind `k`, or names of operands
that are compared. -/
def Shape.Meets (k : Kind) (m n : String) (R : α → β → Prop) : Shape α → Shape β → Prop
  | var m', var n' => k = .var ∧ m' = m ∧ n' = n
  | power a b, power c d => R a c ∨ R b d
  | modulo a b, modulo c d => R a c ∨ R b d
  | factorial a, factorial c => R a c
  | call m' as, call n' bs => (as.length = bs.length ∧ k = .call ∧ m' = m ∧ n' = n) ∨ Crosses R as bs
  | sum ts, sum us => Crosses (Ratio.Crosses R) ts us
  | _, _ => False

theorem crosses_map_left {f : γ → α} {R : α → β → Prop} {cs : List γ} {bs : List β} :
    Crosses R (cs.map f) bs ↔ Crosses (fun c b => R (f c) b) cs bs := by
  simp [Crosses]

namespace Shape

variable {k : Kind} {m n : String} {R : α → β → Prop}

theorem meets_map_left {f : γ → α} {b : Shape γ} {c : Shape β} :
    (b.map f).Meets k m n R c ↔ b.Meets k m n (fun a d => R (f a) d) c := by
  cases b <;> cases c <;> simp [map, Meets, crosses_map_left, Ratio.Crosses, Ratio.map]
  rfl

end Shape

namespace Expr

/-- Comparing the first tree with the second in the mode `anyPair` may bring the names `m` and `n` together. -/
def Meets (k : Kind) (m n : String) (a b : Expr) : Prop :=
  a.fold (fun e p b => e.sign = b.sign ∧ p.Meets k m n (fun p b => p b) b.shape) b

variable {k : Kind} {m n : String} {a b c e : Expr}

theorem meets_iff : a.Meets k m n b ↔ a.sign = b.sign ∧ a.shape.Meets k m n (Meets k m n) b.shape := by
  rw [Meets, fold_eq]
  exact and_congr_right fun _ => Shape.meets_map_left

end Expr

/-! ## The other way round -/

theorem Crosses.symm {R : α → β → Prop} {R' : β → α → Prop} {as : List α} {bs : List β}
    (hR : ∀ a ∈ as, ∀ b, R a b → R' b a) (h : Crosses R as bs) : Crosses R' bs as := by
  obtain ⟨hlen, a, ha, b, hb, hab⟩ := h
  exact ⟨hlen.symm, b, hb, a, ha, hR a ha b hab⟩

theorem Ratio.Crosses.symm {R : α → β → Prop} {R' : β → α → Prop} {t : Ratio α} {u : Ratio β}
    (hR : ∀ a ∈ t.factors, ∀ b, R a b → R' b a) (h : t.Crosses R u) : u.Crosses R' t :=
  h.imp (fun h => h.symm fun a ha => hR a (List.mem_append_left _ ha))
    fun h => h.symm fun a ha => hR a (List.mem_append_right _ ha)

namespace Expr

variable {k : Kind} {m n : String} {a b c e : Expr}

theorem Meets.symm (h : a.Meets k m n b) : b.Meets k n m a := by
  induction a using Expr.induction generalizing b with
  | h a ih =>
    obtain ⟨hs, hshape⟩ := meets_iff.mp h
    refine meets_iff.mpr ⟨hs.symm, ?_⟩
    have hoperand : ∀ d ∈ a.children, ∀ e, d.Meets k m n e → e.Meets k n m d := fun d hd e => ih d hd
    unfold children at hoperand
    cases ha : a.shape <;> cases hb : b.shape <;> rw [ha, hb] at hshape <;> rw [ha] at hoperand <;>
      simp only [Shape.Meets] at hshape ⊢
    case var.var => exact ⟨hshape.1, hshape.2.2, hshape.2.1⟩
    case power.power => exact hshape.imp (hoperand _ (by simp [Shape.children]) _) (hoperand _ (by simp [Shape.children]) _)
    case modulo.modulo => exact hshape.imp (hoperand _ (by simp [Shape.children]) _) (hoperand _ (by simp [Shape.children]) _)
    case factorial.factorial => exact hoperand _ (by simp [Shape.children]) _ hshape
    case call.call =>
      refine hshape.imp ?_ fun h => h.symm fun d hd => hoperand d hd
      rintro ⟨hlen, hk, hm, hn⟩
      exact ⟨hlen.symm, hk, hn, hm⟩
    case sum.sum ts us =>
      exact hshape.symm fun t ht u htu => htu.symm fun d hd => hoperand d (List.mem_flatMap.mpr ⟨t, ht, hd⟩)

end Expr

/-! ## Trees that are alike -/

/-- What crosses a list, crosses a list that corresponds to it. -/
theorem Crosses.of_corr {Q : δ → Prop} {R : α → γ → Prop} {R' : δ → α → β → Prop} {S : β → γ → Prop} {as : List α}
    {bs : List β} {cs : List γ} (hS : Corr S bs cs) (hR : ∀ a ∈ as, ∀ b c, S b c → R a c → ∃ x, Q x ∧ R' x a b) (h : Crosses R as cs) :
    ∃ x, Q x ∧ Crosses (R' x) as bs := by
  obtain ⟨hlen, a, ha, c, hc, hac⟩ := h
  obtain ⟨b, hb, hbc⟩ := hS.symm.exists_related hc
  obtain ⟨x, hx, hab⟩ := hR a ha b c hbc hac
  exact ⟨x, hx, hlen.trans hS.length_eq.symm, a, ha, b, hb, hab⟩

theorem Ratio.Crosses.of_corr {Q : δ → Prop} {R : α → γ → Prop} {R' : δ → α → β → Prop} {S : β → γ → Prop} {t : Ratio α}
    {u : Ratio β} {v : Ratio γ} (hS : u.Corr S v) (hR : ∀ a ∈ t.factors, ∀ b c, S b c → R a c → ∃ x, Q x ∧ R' x a b)
    (h : t.Crosses R v) : ∃ x, Q x ∧ t.Crosses (R' x) u := by
  rcases h with h | h
  · obtain ⟨x, hx, h⟩ := h.of_corr hS.1 fun a ha => hR a (List.mem_append_left _ ha)
    exact ⟨x, hx, .inl h⟩
  · obtain ⟨x, hx, h⟩ := h.of_corr hS.2 fun a ha => hR a (List.mem_append_right _ ha)
    exact ⟨x, hx, .inr h⟩

namespace Expr

variable {k : Kind} {m n : String} {a b c e : Expr} {R : Kind → String → String → Prop}

/-- **What meets a name of a tree meets the name it comes from in a tree that is alike.** -/
theorem Meets.of_alikeBy (h : a.Meets k m n c) (hbc : b.AlikeBy R c) : ∃ n', R k n' n ∧ a.Meets k m n' b := by
  induction a using Expr.induction generalizing b c with
  | h a ih =>
    obtain ⟨hs, hshape⟩ := meets_iff.mp h
    obtain ⟨hs', hcorr⟩ := alikeBy_iff.mp hbc
    have hoperand : ∀ d ∈ a.children, ∀ e f, e.AlikeBy R f → d.Meets k m n f → ∃ n', R k n' n ∧ d.Meets k m n' e :=
      fun d hd e f hef hdf => ih d hd hdf hef
    unfold children at hoperand
    have hnode : ∃ n', R k n' n ∧ a.shape.Meets k m n' (Meets k m n') b.shape := by
      cases hb : b.shape <;> cases hc : c.shape <;> rw [hb, hc] at hcorr <;> simp only [Shape.Corr] at hcorr <;>
        cases ha : a.shape <;> rw [ha, hc] at hshape <;> rw [ha] at hoperand <;> simp only [Shape.Meets] at hshape ⊢
      case var.var.var =>
        obtain ⟨rfl, rfl, rfl⟩ := hshape
        exact ⟨_, hcorr, rfl, rfl, rfl⟩
      case power.power.power =>
        rcases hshape with h | h
        · obtain ⟨n', hn, h⟩ := hoperand _ (by simp [Shape.children]) _ _ hcorr.1 h
          exact ⟨n', hn, .inl h⟩
        · obtain ⟨n', hn, h⟩ := hoperand _ (by simp [Shape.children]) _ _ hcorr.2 h
          exact ⟨n', hn, .inr h⟩
      case modulo.modulo.modulo =>
        rcases hshape with h | h
        · obtain ⟨n', hn, h⟩ := hoperand _ (by simp [Shape.children]) _ _ hcorr.1 h
          exact ⟨n', hn, .inl h⟩
        · obtain ⟨n', hn, h⟩ := hoperand _ (by simp [Shape.children]) _ _ hcorr.2 h
          exact ⟨n', hn, .inr h⟩
      case factorial.factorial.factorial => exact hoperand _ (by simp [Shape.children]) _ _ hcorr hshape
      case call.call.call =>
        rcases hshape with ⟨hlen, rfl, rfl, rfl⟩ | h
        · exact ⟨_, hcorr.1, .inl ⟨hlen.trans hcorr.2.length_eq.symm, rfl, rfl, rfl⟩⟩
        · obtain ⟨n', hn, h⟩ := h.of_corr hcorr.2 hoperand
          exact ⟨n', hn, .inr h⟩
      case sum.sum.sum =>
        exact hshape.of_corr hcorr fun t ht u v huv htv =>
          htv.of_corr huv fun d hd => hoperand d (List.mem_flatMap.mpr ⟨t, ht, hd⟩)
    obtain ⟨n', hn, hmeets⟩ := hnode
    exact ⟨n', hn, meets_iff.mpr ⟨hs.trans hs'.symm, hmeets⟩⟩

end Expr

/-! ## Trees that keep names apart -/

/-- Whatever names of the two trees meet, they are the same. -/
def Expr.MeetsSame (a b : Expr) : Prop := ∀ k m n, a.Meets k m n b → m = n

/-- Whatever names of the two ratios meet, they are the same. -/
def Ratio.MeetsSame (t u : Ratio Expr) : Prop := ∀ k m n, t.Crosses (Expr.Meets k m n) u → m = n

/-- No two items of a list of the node bring different names together. -/
def Shape.KeepsApart : Shape Expr → Prop
  | call _ as => as.Pairwise Expr.MeetsSame
  | sum ts => ts.Pairwise Ratio.MeetsSame ∧
      ∀ t ∈ ts, t.numerator.Pairwise Expr.MeetsSame ∧ t.denominator.Pairwise Expr.MeetsSame
  | _ => True

/-- Nowhere in the tree do two items of a list bring different names together. -/
def Expr.KeepsApart (e : Expr) : Prop := e.Everywhere fun a => a.shape.KeepsApart

namespace Expr

variable {a b : Expr}

@[simp] theorem keepsApart_number {q : Rat} : (number q).KeepsApart := by
  rw [KeepsApart, everywhere_iff]
  simp [number, ofShape, Shape.KeepsApart, children, Shape.children]

@[simp] theorem keepsApart_var {name : String} : (var name).KeepsApart := by
  rw [KeepsApart, everywhere_iff]
  simp [var, ofShape, Shape.KeepsApart, children, Shape.children]

@[simp] theorem keepsApart_pow : (a.pow b).KeepsApart ↔ a.KeepsApart ∧ b.KeepsApart := by
  rw [KeepsApart, everywhere_iff]
  simp [pow, ofShape, Shape.KeepsApart, children, Shape.children, KeepsApart]

@[simp] theorem keepsApart_call {name : String} {as : List Expr} :
    (call name as).KeepsApart ↔ as.Pairwise MeetsSame ∧ ∀ a ∈ as, a.KeepsApart := by
  rw [KeepsApart, everywhere_iff]
  simp [call, ofShape, Shape.KeepsApart, children, Shape.children, KeepsApart]

@[simp] theorem keepsApart_sum {ts : List (Ratio Expr)} : (sum ts).KeepsApart ↔
    (Shape.sum ts).KeepsApart ∧ ∀ t ∈ ts, ∀ a ∈ t.factors, a.KeepsApart := by
  rw [KeepsApart, everywhere_iff]
  simp only [children, Shape.children, sum, ofShape, List.mem_flatMap, KeepsApart]
  refine and_congr_right fun _ => ⟨fun h t ht a ha => h a ⟨t, ht, ha⟩, ?_⟩
  rintro h a ⟨t, ht, ha⟩
  exact h t ht a ha

end Expr

instance : Std.Symm Expr.MeetsSame := ⟨fun _ _ h k m n hm => (h k n m hm.symm).symm⟩

instance : Std.Symm Ratio.MeetsSame := ⟨fun _ _ h k m n hm => (h k n m (hm.symm fun _ _ _ => Expr.Meets.symm)).symm⟩

/-- A number meets nothing. -/
@[simp] theorem Expr.meetsSame_number (q : Rat) (a : Expr) : (number q).MeetsSame a := by
  intro k m n h
  have hshape : (Shape.number q).Meets k m n (Meets k m n) a.shape := (meets_iff.mp h).2
  cases ha : a.shape <;> rw [ha] at hshape <;> cases hshape

@[simp] theorem Expr.meetsSame_number_right (a : Expr) (q : Rat) : a.MeetsSame (number q) :=
  Std.Symm.symm _ _ (meetsSame_number q a)

/-- Items of one list that have only the same names meet. -/
theorem Expr.eq_of_crosses {es : List Expr} (hpair : es.Pairwise Expr.MeetsSame) (hself : ∀ a ∈ es, a.MeetsSame a)
    {k : Kind} {m n : String} (h : Crosses (Expr.Meets k m n) es es) : m = n := by
  obtain ⟨-, a, ha, b, hb, hab⟩ := h
  exact List.Pairwise.forall_of_forall hself hpair ha hb k m n hab

/-- **A tree that keeps names apart brings only same names together when it is compared with itself.** -/
theorem Expr.KeepsApart.meetsSame {e : Expr} (h : e.KeepsApart) : e.MeetsSame e := by
  induction e using Expr.induction with
  | h e ih =>
    obtain ⟨hnode, hbelow⟩ := everywhere_iff.mp h
    have hself : ∀ a ∈ e.children, a.MeetsSame a := fun a ha => ih a ha (hbelow a ha)
    intro k m n hm
    obtain ⟨-, hshape⟩ := meets_iff.mp hm
    unfold children at hself
    cases he : e.shape <;> rw [he] at hnode hself hshape <;> simp only [Shape.Meets] at hshape
    case var name =>
      obtain ⟨-, rfl, rfl⟩ := hshape
      rfl
    case power a b =>
      exact hshape.elim (hself a (by simp [Shape.children]) k m n) (hself b (by simp [Shape.children]) k m n)
    case modulo a b =>
      exact hshape.elim (hself a (by simp [Shape.children]) k m n) (hself b (by simp [Shape.children]) k m n)
    case factorial a => exact hself a (by simp [Shape.children]) k m n hshape
    case call name as =>
      rcases hshape with ⟨-, -, rfl, rfl⟩ | hcross
      · rfl
      · exact eq_of_crosses hnode hself hcross
    case sum ts =>
      obtain ⟨hterms, hlists⟩ := hnode
      have hratio : ∀ t ∈ ts, t.MeetsSame t := by
        intro t ht k m n hcross
        have hfactor : ∀ a ∈ t.factors, a.MeetsSame a := fun a ha => hself a (List.mem_flatMap.mpr ⟨t, ht, ha⟩)
        rcases hcross with hcross | hcross
        · exact eq_of_crosses (hlists t ht).1 (fun a ha => hfactor a (List.mem_append_left _ ha)) hcross
        · exact eq_of_crosses (hlists t ht).2 (fun a ha => hfactor a (List.mem_append_right _ ha)) hcross
      obtain ⟨-, t, ht, u, hu, htu⟩ := hshape
      exact List.Pairwise.forall_of_forall hratio hterms ht hu k m n htu

end Isolate
