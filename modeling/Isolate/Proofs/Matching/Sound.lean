import Isolate.Proofs.Matching.Alike
import Isolate.Proofs.Matching.Run

/-!
# A match is sound

A matcher *tells* a property if it matches only what has it, provided that the names it leaves are related
(`Matcher.Tells`). Names only grow, so that the names before a comparison are related if those after it are; this carries
the proof through backtracking, where a pairing that is given up leaves nothing behind.

* `Expr.tells_matcher`: the matcher of a tree tells that the other tree is alike.
* `Equation.alike_of_isLike`: the sides of equations that are like each other are alike one by one.
-/

namespace Isolate

/-! ## Related names -/

/-- Every name is related to all its partners. -/
def NameTable.Within (R : String → String → Prop) (t : NameTable) : Prop := ∀ p ∈ t, ∀ r ∈ p.2, R p.1 r

theorem NameTable.within_cons {R : String → String → Prop} {name : String} {seen : List String} {t : NameTable} :
    NameTable.Within R ((name, seen) :: t) ↔ (∀ r ∈ seen, R name r) ∧ t.Within R := List.forall_mem_cons

theorem NameTable.within_record {R : String → String → Prop} {t : NameTable} {left right : String} :
    (t.record left right).Within R ↔ t.Within R ∧ R left right := by
  induction t with
  | nil => simp [record, Within]
  | cons p t ih =>
    obtain ⟨name, seen⟩ := p
    unfold record
    split
    · rename_i h
      subst h
      rw [within_cons, within_cons]
      simp only [List.mem_append, List.mem_singleton, or_imp, forall_and, forall_eq]
      exact and_right_comm
    · rw [within_cons, ih, within_cons, and_assoc]

/-- Variables are related by `V`, functions by `F`. -/
def Names.Within (V F : String → String → Prop) (names : Names) : Prop := names.vars.Within V ∧ names.functions.Within F

theorem Names.within_recordVariable {V F : String → String → Prop} {names : Names} {left right : String} :
    (names.recordVariable left right).Within V F ↔ names.Within V F ∧ V left right := by
  rw [Within, recordVariable, NameTable.within_record, Within]
  exact and_right_comm

theorem Names.within_recordFunction {V F : String → String → Prop} {names : Names} {left right : String} :
    (names.recordFunction left right).Within V F ↔ names.Within V F ∧ F left right := by
  rw [Within, recordFunction, NameTable.within_record, Within]
  exact and_assoc.symm

/-! ## What a match tells -/

namespace Matcher

variable {V F : String → String → Prop} {β : Type}

/-- A run that matches and leaves related names started from related names, and the property holds. -/
def RunTells (V F : String → String → Prop) (x : StateM Names Bool) (P : Prop) : Prop :=
  ∀ names, (x.run names).1 = true → (x.run names).2.Within V F → names.Within V F ∧ P

/-- What the matcher matches has the property. -/
def Tells (V F : String → String → Prop) (m : Matcher β) (P : β → Prop) : Prop := ∀ b, RunTells V F (m b) (P b)

theorem RunTells.imp {x : StateM Names Bool} {P Q : Prop} (h : RunTells V F x P) (hPQ : P → Q) : RunTells V F x Q :=
  fun names h1 hw => (h names h1 hw).imp_right hPQ

theorem runTells_and {x y : StateM Names Bool} {P Q : Prop} (hx : RunTells V F x P) (hy : RunTells V F y Q) :
    RunTells V F (do if ← x then y else return false) (P ∧ Q) := by
  intro names h hw
  rw [run_bind] at h hw
  split at h
  · rename_i hb
    rw [if_pos hb] at hw
    obtain ⟨hmid, hQ⟩ := hy _ h hw
    obtain ⟨hfirst, hP⟩ := hx _ hb hmid
    exact ⟨hfirst, hP, hQ⟩
  · cases h

theorem runTells_false {P : Prop} : RunTells V F (pure false) P := fun names h => by cases h

theorem mem_picks {bs rest : List β} {b : β} (h : (b, rest) ∈ picks bs) : (b :: rest).Perm bs := by
  induction bs generalizing rest with
  | nil => cases h
  | cons c bs ih =>
    rcases List.mem_cons.mp h with h | h
    · obtain ⟨rfl, rfl⟩ := Prod.mk.inj h
      exact .refl _
    · obtain ⟨⟨d, rest'⟩, hd, he⟩ := List.mem_map.mp h
      obtain ⟨rfl, rfl⟩ := Prod.mk.inj he
      exact (List.Perm.swap _ _ _).trans ((ih hd).cons c)

/-- Pairing one to one tells that the lists correspond. -/
theorem runTells_pairUp {ms : List (Matcher β)} {ps : List (β → Prop)} (h : List.Forall₂ (Tells V F) ms ps)
    {bs : List β} (hlen : ms.length = bs.length) : RunTells V F (pairUp ms bs) (Corr (fun p b => p b) ps bs) := by
  induction h generalizing bs with
  | nil =>
    obtain rfl := List.length_eq_zero_iff.mp hlen.symm
    exact fun names _ hw => ⟨hw, [], .nil, .refl _⟩
  | @cons m p ms ps hm _ ih =>
    intro names h hw
    rw [run_pairUp_cons] at h hw
    cases hfind : (picks bs).findSome? _ with
    | none =>
      rw [hfind] at h
      cases h
    | some result =>
      rw [hfind] at hw
      obtain ⟨⟨b, rest⟩, hmem, hpick⟩ := List.exists_of_findSome?_eq_some hfind
      split at hpick
      · rename_i hfirst
        split at hpick
        · rename_i hrest
          obtain rfl := Option.some.inj hpick
          have hperm := mem_picks hmem
          have hlen' : ms.length = rest.length := by
            have := hperm.length_eq
            rw [List.length_cons] at this hlen
            omega
          obtain ⟨hmid, cs, hf, hp⟩ := ih hlen' _ hrest hw
          obtain ⟨hnames, hb⟩ := hm b names hfirst.1 hmid
          exact ⟨hnames, b :: cs, .cons hb hf, (hp.cons b).trans hperm⟩
        · cases hpick
      · cases hpick

theorem tells_list {ms : List (Matcher β)} {ps : List (β → Prop)} (h : List.Forall₂ (Tells V F) ms ps) :
    Tells V F (list .bijective ms) (Corr (fun p b => p b) ps) := by
  intro bs
  by_cases hlen : ms.length = bs.length
  · rw [list_bijective hlen]
    exact runTells_pairUp h hlen
  · have hfalse : list .bijective ms bs = pure false := by rw [list, if_pos hlen]
    rw [hfalse]
    exact runTells_false

theorem tells_ratio {r : Ratio (Matcher Expr)} {p : Ratio (Expr → Prop)}
    (hn : List.Forall₂ (Tells V F) r.numerator p.numerator) (hd : List.Forall₂ (Tells V F) r.denominator p.denominator) :
    Tells V F (ratio .bijective r) (p.Corr fun p b => p b) :=
  fun t => runTells_and (tells_list hn t.numerator) (tells_list hd t.denominator)

theorem runTells_recordVariable (m n : String) :
    RunTells V F (do modify (Names.recordVariable m n); return true) (V m n) :=
  fun _ _ hw => Names.within_recordVariable.mp hw

theorem runTells_recordFunction (m n : String) :
    RunTells V F (do modify (Names.recordFunction m n); return true) (F m n) :=
  fun _ _ hw => Names.within_recordFunction.mp hw

theorem forall₂_tells {f : α → Matcher β} {g : α → β → Prop} {as : List α} (h : ∀ a ∈ as, Tells V F (f a) (g a)) :
    List.Forall₂ (Tells V F) (as.map f) (as.map g) := by
  rw [List.forall₂_map_left_iff, List.forall₂_map_right_iff, List.forall₂_same]
  exact h

/-- The matcher of a node tells that the other node has the same form, with operands that correspond. -/
theorem tells_shape {f : Expr → Matcher Expr} {g : Expr → Expr → Prop} {b : Shape Expr}
    (h : ∀ a ∈ b.children, Tells V F (f a) (g a)) :
    Tells V F (shape .bijective (b.map f)) (Shape.Corr V F (fun p b => p b) (b.map g)) := by
  intro c
  cases b <;> cases c
  case number.number v w =>
    intro names hr hw
    exact ⟨hw, show v = w from of_decide_eq_true hr⟩
  case var.var m n => exact runTells_recordVariable m n
  case power.power a d a' d' =>
    exact runTells_and (h a (by simp [Shape.children]) a') (h d (by simp [Shape.children]) d')
  case modulo.modulo a d a' d' =>
    exact runTells_and (h a (by simp [Shape.children]) a') (h d (by simp [Shape.children]) d')
  case factorial.factorial a a' => exact h a (by simp [Shape.children]) a'
  case call.call m as n bs =>
    exact (runTells_and (tells_list (forall₂_tells h) bs) (runTells_recordFunction m n)).imp And.symm
  case sum.sum ts us =>
    have hratio : ∀ t ∈ ts, Tells V F (ratio .bijective (t.map f)) ((t.map g).Corr fun p b => p b) := by
      intro t ht
      have hmem : ∀ a ∈ t.factors, a ∈ (Shape.sum ts).children := fun a ha => List.mem_flatMap.mpr ⟨t, ht, ha⟩
      exact tells_ratio (forall₂_tells fun a ha => h a (hmem a (List.mem_append_left _ ha)))
        (forall₂_tells fun a ha => h a (hmem a (List.mem_append_right _ ha)))
    have hlist := tells_list (forall₂_tells hratio) us
    rw [Shape.map, Shape.map]
    show RunTells V F (list .bijective ((ts.map (Ratio.map f)).map (ratio .bijective)) us)
      (Corr (Ratio.Corr fun p b => p b) (ts.map (Ratio.map g)) us)
    rw [List.map_map, Corr.map_left]
    rw [Corr.map_left] at hlist
    exact hlist
  all_goals exact runTells_false

end Matcher

/-- **The matcher of a tree tells that the other tree is alike.** -/
theorem Expr.tells_matcher {V F : String → String → Prop} (a : Expr) :
    Matcher.Tells V F (a.matcher .bijective) (a.Alike V F) := by
  induction a using Expr.induction with
  | h a ih =>
    intro b
    rw [matcher_eq]
    by_cases hs : a.sign = b.sign
    · simp only [if_pos hs]
      have := Matcher.tells_shape (f := matcher .bijective) (g := Alike V F) ih b.shape
      exact this.imp fun h => alike_iff.mpr ⟨hs, (Shape.corr_map_left (f := Alike V F)).mp h⟩
    · simp only [if_neg hs]
      exact Matcher.runTells_false

/-! ## Equations -/

theorem Comparable.tells_sides {V F : String → String → Prop} (as : List Expr) :
    Matcher.Tells V F (sides .bijective as) (List.Forall₂ (fun a b => a.arrange.Alike V F b.arrange) as) := by
  intro bs
  induction as generalizing bs with
  | nil =>
    cases bs with
    | nil => exact fun names _ hw => ⟨hw, .nil⟩
    | cons b bs => exact Matcher.runTells_false
  | cons a as ih =>
    cases bs with
    | nil => exact Matcher.runTells_false
    | cons b bs =>
      have hand := Matcher.runTells_and (Expr.tells_matcher (V := V) (F := F) a.arrange b.arrange) (ih bs)
      exact hand.imp fun h => .cons h.1 h.2

/-- **The sides of equations that are like each other are alike when they are arranged.** -/
theorem Equation.alike_of_isLike {q r : Equation} (h : isLike .bijective q r = true) :
    List.Forall₂ (fun a b => a.arrange.Alike (fun _ _ => True) (fun _ _ => True) b.arrange) q.sides r.sides := by
  obtain ⟨-, hrun, -⟩ := isLike_iff.mp h
  exact (Comparable.tells_sides q.sides r.sides {} hrun ⟨fun _ _ _ _ => trivial, fun _ _ _ _ => trivial⟩).2

end Isolate
