import Isolate.Proofs.Matching.Composition
import Isolate.Proofs.Matching.Distinct
import Mathlib

/-!
# A match gives a renaming

Whatever is compared is alike by the names that were observed (`Comparable.tells_isSame`). If these make an injective
map, that map renames the left side, and what comes out is the right side in another order.

* `Comparable.rename`: the same thing with its names replaced.
* `Comparable.Rearranges`: the same thing up to the order of terms, factors, arguments and the items of lists.
* `Comparable.rearranges_of_isSame`: what matches is, once renamed, the same up to that order.
-/

namespace Isolate

namespace Matcher

variable {V F : String → String → Prop} {β : Type}

theorem tells_list_map {f : α → Matcher β} {g : α → β → Prop} {as : List α} (h : ∀ a ∈ as, Tells V F (f a) (g a)) :
    Tells V F (list .bijective (as.map f)) (Corr g as) :=
  fun bs => (tells_list (forall₂_tells h) bs).imp Corr.map_left.mp

end Matcher

/-- The matcher of a ratio tells that the other ratio is alike. -/
theorem Ratio.tells_matcher {V F : String → String → Prop} (t : Ratio Expr) :
    Matcher.Tells V F (t.matcher .bijective) (t.Corr (Expr.Alike V F)) := fun u =>
  Matcher.runTells_and (Matcher.tells_list_map (fun a _ => a.tells_matcher) u.numerator)
    (Matcher.tells_list_map (fun a _ => a.tells_matcher) u.denominator)

/-! ## What can be compared -/

namespace Shape

/-- The same node with its name replaced, if it has one. -/
def rename (v f : String → String) : Shape α → Shape α
  | var n => var (v n)
  | call n as => call (f n) as
  | b => b

/-- The name of the node, if it has one, is among the given ones. -/
def Named (V F : String → Prop) : Shape α → Prop
  | var n => V n
  | call n _ => F n
  | _ => True

end Shape

/-- The same tree with its names replaced. -/
def Expr.rename (v f : String → String) (e : Expr) : Expr := e.fold fun e b => ⟨e.sign, b.rename v f, none⟩

theorem Expr.rename_eq (v f : String → String) (e : Expr) :
    e.rename v f = ⟨e.sign, (e.shape.map (rename v f)).rename v f, none⟩ := fold_eq ..

namespace Comparable

/-- The same thing with the names of its trees replaced. -/
def rename (v f : String → String) : Comparable → Comparable
  | expr e => expr (e.rename v f)
  | ratio t => ratio (t.map (Expr.rename v f))
  | terms ts => terms (ts.map (Ratio.map (Expr.rename v f)))
  | equation q => equation ⟨q.sides.map (Expr.rename v f)⟩
  | exprs es => exprs (es.map (Expr.rename v f))
  | ratios ts => ratios (ts.map (Ratio.map (Expr.rename v f)))
  | others n => others n
  | other kind => other kind

/-- The trees in a thing. -/
def trees : Comparable → List Expr
  | expr e => [e]
  | ratio t => t.factors
  | terms ts => ts.flatMap Ratio.factors
  | equation q => q.sides
  | exprs es => es
  | ratios ts => ts.flatMap Ratio.factors
  | others _ => []
  | other _ => []

/-- Things of one kind whose trees are alike, in any order but for the sides of equations. -/
def Alike (V F : String → String → Prop) : Comparable → Comparable → Prop
  | expr a, expr b => a.Alike V F b
  | ratio t, ratio u => t.Corr (Expr.Alike V F) u
  | terms ts, terms us => Corr (Ratio.Corr (Expr.Alike V F)) ts us
  | equation q, equation r => List.Forall₂ (Expr.Alike V F) q.sides r.sides
  | exprs as, exprs bs => Corr (Expr.Alike V F) as bs
  | ratios ts, ratios us => Corr (Ratio.Corr (Expr.Alike V F)) ts us
  | exprs as, ratios us => as = [] ∧ us = []
  | ratios ts, exprs bs => ts = [] ∧ bs = []
  | _, _ => False

/-- The same thing up to the order of terms, factors, arguments and the items of lists. -/
def Rearranges (l r : Comparable) : Prop := l.Alike Eq Eq r

end Comparable

/-! ## Renaming what is alike -/

section

variable {V F : String → String → Prop} {v f : String → String}

theorem Ratio.Corr.map_left {R : β → γ → Prop} {S : α → γ → Prop} {g : α → β} {t : Ratio α} {u : Ratio γ}
    (h : t.Corr S u) (hR : ∀ a ∈ t.factors, ∀ c, S a c → R (g a) c) : (t.map g).Corr R u := by
  have himp := h.imp hR
  exact ⟨Isolate.Corr.map_left.mpr himp.1, Isolate.Corr.map_left.mpr himp.2⟩

/-- Trees that are alike by the names that a map gives are the same when they are renamed by it. -/
theorem Expr.Alike.rename {a b : Expr} (h : a.Alike V F b) (hV : ∀ m n, V m n → v m = n) (hF : ∀ m n, F m n → f m = n) :
    (a.rename v f).Rearranges b := by
  induction a using Expr.induction generalizing b with
  | h a ih =>
    obtain ⟨hs, hc⟩ := alike_iff.mp h
    rw [rename_eq]
    refine alike_iff.mpr ⟨hs, ?_⟩
    have hmap : Shape.Corr V F (Expr.Alike Eq Eq) (a.shape.map (Expr.rename v f)) b.shape :=
      Shape.corr_map_left.mpr (hc.imp (fun _ _ => id) (fun _ _ => id) fun d hd e hde => ih d hd hde)
    cases hb : a.shape.map (Expr.rename v f) <;> cases hb' : b.shape <;> rw [hb, hb'] at hmap <;>
      simp only [Shape.Corr] at hmap
    case var.var m n => exact hV m n hmap
    case call.call m as n bs => exact ⟨hF m n hmap.1, hmap.2⟩
    all_goals exact hmap

/-- Every name in a tree that is alike another one is related to some name. -/
theorem Expr.Alike.everywhere_named {a b : Expr} (h : a.Alike V F b) :
    a.Everywhere fun e => e.shape.Named (fun m => ∃ n, V m n) (fun m => ∃ n, F m n) := by
  induction a using Expr.induction generalizing b with
  | h a ih =>
    refine everywhere_iff.mpr ⟨?_, fun d hd => ?_⟩
    · have hc := h.corr
      cases ha : a.shape <;> cases hb : b.shape <;> rw [ha, hb] at hc <;> simp only [Shape.Corr] at hc
      case var.var m n => exact ⟨n, hc⟩
      case call.call m as n bs => exact ⟨n, hc.1⟩
      all_goals trivial
    · obtain ⟨c, -, hdc⟩ := h.children.exists_related hd
      exact ih d hd hdc

end

namespace Comparable

variable {V F : String → String → Prop} {v f : String → String} {l r : Comparable} {m : StateM Names Bool}

theorem Alike.rename (h : l.Alike V F r) (hV : ∀ m n, V m n → v m = n) (hF : ∀ m n, F m n → f m = n) :
    (l.rename v f).Rearranges r := by
  have hexpr : ∀ (a b : Expr), a.Alike V F b → (a.rename v f).Rearranges b := fun a b hab => hab.rename hV hF
  have hratio : ∀ (t u : Ratio Expr), t.Corr (Expr.Alike V F) u → (t.map (Expr.rename v f)).Corr Expr.Rearranges u :=
    fun t u htu => htu.map_left fun a _ => hexpr a
  cases l <;> cases r <;> simp only [Alike] at h
  case expr.expr a b => exact hexpr a b h
  case ratio.ratio t u => exact hratio t u h
  case terms.terms ts us => exact Corr.map_left.mpr (h.imp fun t _ => hratio t)
  case equation.equation q r => exact List.forall₂_map_left_iff.mpr (h.imp hexpr)
  case exprs.exprs as bs => exact Corr.map_left.mpr (h.imp fun a _ => hexpr a)
  case ratios.ratios ts us => exact Corr.map_left.mpr (h.imp fun t _ => hratio t)
  case exprs.ratios as us =>
    obtain ⟨rfl, rfl⟩ := h
    exact ⟨rfl, rfl⟩
  case ratios.exprs ts bs =>
    obtain ⟨rfl, rfl⟩ := h
    exact ⟨rfl, rfl⟩

/-- The trees of things that are alike correspond. -/
theorem Alike.trees (h : l.Alike V F r) : Corr (Expr.Alike V F) l.trees r.trees := by
  cases l <;> cases r <;> simp only [Alike] at h
  case expr.expr a b => exact ⟨[b], .cons h .nil, .refl _⟩
  case ratio.ratio t u => exact h.factors
  case terms.terms ts us => exact h.flatMap fun _ _ _ ht => ht.factors
  case equation.equation q r => exact ⟨_, h, .refl _⟩
  case exprs.exprs as bs => exact h
  case ratios.ratios ts us => exact h.flatMap fun _ _ _ ht => ht.factors
  case exprs.ratios as us =>
    obtain ⟨rfl, rfl⟩ := h
    exact ⟨[], .nil, .refl _⟩
  case ratios.exprs ts bs =>
    obtain ⟨rfl, rfl⟩ := h
    exact ⟨[], .nil, .refl _⟩

theorem Alike.everywhere_named (h : l.Alike V F r) : ∀ e ∈ l.trees,
    e.Everywhere fun e => e.shape.Named (fun m => ∃ n, V m n) (fun m => ∃ n, F m n) := by
  intro e he
  obtain ⟨d, -, hed⟩ := h.trees.exists_related he
  exact hed.everywhere_named

/-! ## What a comparison tells -/

theorem keeps_sides (as bs : List Expr) : Matcher.KeepsDistinct (sides .bijective as bs) := by
  induction as generalizing bs with
  | nil => cases bs <;> exact Matcher.keeps_pure _
  | cons a as ih =>
    cases bs with
    | nil => exact Matcher.keeps_pure false
    | cons b bs => exact Matcher.keeps_and (a.arrange.keeps_matcher b.arrange) (ih bs)

theorem keeps_exprs (as bs : List Expr) :
    Matcher.KeepsDistinct (Matcher.list .bijective (as.map (Expr.matcher .bijective)) bs) := by
  refine Matcher.keeps_list (fun m hm => ?_) bs
  obtain ⟨a, -, rfl⟩ := List.mem_map.mp hm
  exact a.keeps_matcher

theorem keeps_ratios (ts us : List (Ratio Expr)) :
    Matcher.KeepsDistinct (Matcher.list .bijective (ts.map (Ratio.matcher .bijective)) us) := by
  refine Matcher.keeps_list (fun m hm => ?_) us
  obtain ⟨t, -, rfl⟩ := List.mem_map.mp hm
  exact t.keeps_matcher

/-- No comparison notes a name twice. -/
theorem keeps_isSame (h : isSame .bijective l r = .ok m) : Matcher.KeepsDistinct m := by
  cases l <;> cases r <;> simp only [isSame, unsorted_eq_ok, reduceCtorEq, Except.ok.injEq] at h <;>
    first | subst h | obtain ⟨-, rfl⟩ := h
  case expr.expr a b => exact a.arrange.keeps_matcher b.arrange
  case ratio.ratio t u => exact Ratio.keeps_matcher _ _
  case terms.terms ts us => exact keeps_ratios _ _
  case equation.equation q r =>
    split
    · exact keeps_sides _ _
    · exact Matcher.keeps_pure false
  case exprs.exprs as bs => exact keeps_exprs _ _
  case ratios.ratios ts us => exact keeps_ratios _ _
  all_goals exact Matcher.keeps_pure _

theorem corr_arrangeExprs (es : List Expr) : Corr Expr.Rearranges es (arrangeExprs es) :=
  .of_perm (fun e _ => e.rearranges_arrange) (sortAlong_perm (by simp)).symm

theorem rearranges_arrangeRatio (t : Ratio Expr) : t.Corr Expr.Rearranges (t.arrange (t.map Expr.arrange)) :=
  Ratio.corr_arrange fun a _ => a.rearranges_arrange

theorem corr_arrangeRatios (ts : List (Ratio Expr)) : Corr (Ratio.Corr Expr.Rearranges) ts (arrangeRatios ts) :=
  .of_perm (fun t _ => rearranges_arrangeRatio t) (sortAlong_perm (by simp)).symm

/-- A correspondence between two lists, given by one between lists that have their items rearranged. -/
theorem corr_of_rearranged {A R : α → α → Prop} {as as' bs bs' : List α} (hA : ∀ a b c d, A a b → R b c → A d c → R a d)
    (ha : Corr A as as') (h : Corr R as' bs') (hb : Corr A bs bs') : Corr R as bs :=
  ((ha.comp h).comp hb.symm).imp fun a _ d ⟨c, ⟨b, hab, hbc⟩, hcd⟩ => hA a b c d hab hbc hcd

theorem alike_of_rearranged (a b c d : Expr) (hab : a.Rearranges b) (hbc : b.Alike V F c) (hdc : d.Rearranges c) :
    a.Alike V F d := (hab.alike hbc).rearranges hdc.symm

theorem corr_of_rearrangedRatio (t u t' u' : Ratio Expr) (ht : t.Corr Expr.Rearranges u)
    (h : u.Corr (Expr.Alike V F) t') (hu : u'.Corr Expr.Rearranges t') : t.Corr (Expr.Alike V F) u' :=
  ⟨corr_of_rearranged alike_of_rearranged ht.1 h.1 hu.1, corr_of_rearranged alike_of_rearranged ht.2 h.2 hu.2⟩

theorem tells_exprs (as bs : List Expr) : Matcher.RunTells V F
    (Matcher.list .bijective ((arrangeExprs as).map (Expr.matcher .bijective)) (arrangeExprs bs))
    (Corr (Expr.Alike V F) as bs) :=
  (Matcher.tells_list_map (fun a _ => a.tells_matcher) _).imp fun h =>
    corr_of_rearranged alike_of_rearranged (corr_arrangeExprs as) h (corr_arrangeExprs bs)

theorem tells_ratios (ts us : List (Ratio Expr)) : Matcher.RunTells V F
    (Matcher.list .bijective ((arrangeRatios ts).map (Ratio.matcher .bijective)) (arrangeRatios us))
    (Corr (Ratio.Corr (Expr.Alike V F)) ts us) :=
  (Matcher.tells_list_map (fun t _ => t.tells_matcher) _).imp fun h =>
    corr_of_rearranged corr_of_rearrangedRatio (corr_arrangeRatios ts) h (corr_arrangeRatios us)

/-- **What a comparison finds to be the same is alike**, by names that are related if the observed ones are. -/
theorem tells_isSame (h : isSame .bijective l r = .ok m) : Matcher.RunTells V F m (l.Alike V F r) := by
  cases l <;> cases r <;> simp only [isSame, unsorted_eq_ok, reduceCtorEq, Except.ok.injEq] at h <;>
    first | subst h | obtain ⟨-, rfl⟩ := h
  case expr.expr a b => exact (a.arrange.tells_matcher b.arrange).imp Expr.alike_of_arrange
  case ratio.ratio t u =>
    refine (Ratio.tells_matcher _ _).imp fun h => ?_
    exact corr_of_rearrangedRatio _ _ _ _ (rearranges_arrangeRatio t) h (rearranges_arrangeRatio u)
  case terms.terms ts us => exact tells_ratios ts us
  case equation.equation q r =>
    split
    · exact (tells_sides q.sides r.sides).imp fun h => h.imp fun _ _ => Expr.alike_of_arrange
    · exact Matcher.runTells_false
  case exprs.exprs as bs => exact tells_exprs as bs
  case ratios.ratios ts us => exact tells_ratios ts us
  case exprs.ratios as us =>
    intro names hrun hw
    obtain ⟨ha, hu⟩ := Bool.and_eq_true_iff.mp (show bothEmpty as us = true from hrun)
    exact ⟨hw, List.isEmpty_iff.mp ha, List.isEmpty_iff.mp hu⟩
  case ratios.exprs ts bs =>
    intro names hrun hw
    obtain ⟨ht, hb⟩ := Bool.and_eq_true_iff.mp (show bothEmpty ts bs = true from hrun)
    exact ⟨hw, List.isEmpty_iff.mp ht, List.isEmpty_iff.mp hb⟩
  all_goals exact Matcher.runTells_false

end Comparable

/-! ## Matches -/

theorem Shape.Named.imp {V F V' F' : String → Prop} {b : Shape α} (hV : ∀ n, V n → V' n) (hF : ∀ n, F n → F' n)
    (h : b.Named V F) : b.Named V' F' := by
  cases b with
  | var n => exact hV n h
  | call n as => exact hF n h
  | _ => trivial

namespace Comparable

/-- **What matches is the same up to names and order.** If two trees, ratios, sums, equations or lists match and the
observed names pass the check, then the first partners of variables and of functions make injective maps, these cover
every name on the left, and the left side renamed by them is the right side up to the order of terms, factors, arguments
and the items of lists. -/
theorem rearranges_of_isSame {l r : Comparable} {m : StateM Names Bool} {names : Names}
    (hm : isSame .bijective l r = .ok m) (hrun : m.run {} = (true, names)) (hcheck : names.check = true) :
    names.vars.IsInjective ∧ names.functions.IsInjective ∧
      (∀ e ∈ l.trees, e.Everywhere fun a => a.shape.Named names.vars.Covers names.functions.Covers) ∧
        (l.rename names.vars.rename names.functions.rename).Rearranges r := by
  have hdistinct : names.IsDistinct := by
    have hempty : ({} : Names).IsDistinct := ⟨List.nodup_nil, List.nodup_nil⟩
    have hkeeps := keeps_isSame hm {} hempty
    rwa [hrun] at hkeeps
  obtain ⟨hv, hf⟩ := Bool.and_eq_true_iff.mp hcheck
  have hwithin : names.Within (fun n r => names.vars.Covers n ∧ names.vars.rename n = r)
      (fun n r => names.functions.Covers n ∧ names.functions.rename n = r) :=
    ⟨NameTable.within_rename hdistinct.1 hv, NameTable.within_rename hdistinct.2 hf⟩
  have halike := (tells_isSame hm {} (by rw [hrun]) (by rw [hrun]; exact hwithin)).2
  refine ⟨NameTable.isInjective_of_check hdistinct.1 hv, NameTable.isInjective_of_check hdistinct.2 hf, ?_, ?_⟩
  · intro e he
    refine (halike.everywhere_named e he).imp fun a ha => ?_
    exact ha.imp (fun _ ⟨_, h, _⟩ => h) (fun _ ⟨_, h, _⟩ => h)
  · exact halike.rename (fun _ _ h => h.2) (fun _ _ h => h.2)

/-- The list of `x * y` and `f(y, 2)`. -/
def productAndCall : Comparable := .exprs [(Expr.var "x").mul (.var "y"), .call "f" [.var "y", .number 2]]

/-- The list of `g(2, a)` and `a * b`. -/
def callAndProduct : Comparable := .exprs [.call "g" [.number 2, .var "a"], (Expr.var "a").mul (.var "b")]

/-- The names that are observed when the two lists are compared. -/
def observedNames : Names := ⟨[("y", ["a", "a"]), ("x", ["b"])], [("f", ["g"])]⟩

theorem rearranges_productAndCall : ∃ m, isSame .bijective productAndCall callAndProduct = .ok m ∧
    m.run {} = (true, observedNames) ∧ observedNames.check = true ∧ observedNames.vars.IsInjective ∧
      observedNames.functions.IsInjective ∧
        (∀ e ∈ productAndCall.trees,
          e.Everywhere fun a => a.shape.Named observedNames.vars.Covers observedNames.functions.Covers) ∧
          (productAndCall.rename observedNames.vars.rename observedNames.functions.rename).Rearranges
            callAndProduct := by
  obtain ⟨m, hm⟩ : ∃ m, isSame .bijective productAndCall callAndProduct = .ok m := ⟨_, rfl⟩
  have hrun : m.run {} = (true, observedNames) := by
    obtain rfl := Except.ok.inj hm
    cbv
  have hcheck : observedNames.check = true := by decide
  exact ⟨m, hm, hrun, hcheck, rearranges_of_isSame hm hrun hcheck⟩

end Comparable

end Isolate
