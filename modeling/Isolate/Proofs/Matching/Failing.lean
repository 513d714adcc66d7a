import Isolate.Proofs.Matching.Run
import Mathlib

/-!
# Comparisons that fail

Lists are compared by trying one pairing after the other, and nothing is noted if none works out. But what stands in
fixed places is compared place by place: the base before the exponent, the numerators before the denominators, one side
of an equation before the next. So a comparison falls into parts (`Comparable.parts`) that are compared in turn, and
each part that fails notes nothing (`Comparable.restores_parts`).

* `Comparable.isSame_failed`: a comparison that fails leaves the names as the parts left them that matched before the
  one that failed.
-/

namespace Isolate

namespace Matcher

variable {β : Type} {x y : StateM Names Bool} {xs ys : List (StateM Names Bool)} {names names' : Names}

/-! ## Runs that leave the names -/

/-- A run that does not match leaves the names as they were. -/
def Restores (x : StateM Names Bool) : Prop := ∀ names, (x.run names).1 = false → (x.run names).2 = names

theorem restores_pure (b : Bool) : Restores (pure b) := fun _ _ => rfl

/-- A pairing that is given up leaves nothing behind. -/
theorem restores_pairUp (ms : List (Matcher β)) (bs : List β) : Restores (pairUp ms bs) := by
  intro names h
  cases ms with
  | nil => rfl
  | cons m ms =>
    rw [run_pairUp_cons] at h ⊢
    cases hfind : (picks bs).findSome? _ with
    | none => rfl
    | some result =>
      obtain ⟨p, -, hp⟩ := List.exists_of_findSome?_eq_some hfind
      rw [hfind] at h
      split at hp
      · split at hp
        · rw [← Option.some.inj hp] at h
          cases h
        · cases hp
      · cases hp

theorem restores_list (ms : List (Matcher β)) (bs : List β) : Restores (list .bijective ms bs) := by
  by_cases hlen : ms.length = bs.length
  · rw [list_bijective hlen]
    exact restores_pairUp ms bs
  · rw [list, if_pos hlen]
    exact restores_pure false

/-- Noting a name afterwards does not fail. -/
theorem restores_note (hx : Restores x) (f : Names → Names) :
    Restores (do if ← x then modify f; return true else return false) := by
  intro names h
  rw [run_bind] at h ⊢
  split at h
  · cases h
  · rename_i hfalse
    rw [if_neg hfalse]
    exact hx names (Bool.eq_false_iff.mpr hfalse)

/-! ## Runs in turn -/

/-- One run after the other, up to the first that does not match. -/
def inTurn : List (StateM Names Bool) → StateM Names Bool
  | [] => return true
  | x :: xs => do if ← x then inTurn xs else return false

theorem inTurn_singleton (x : StateM Names Bool) : inTurn [x] = x := by
  funext names
  show (inTurn [x]).run names = x.run names
  rw [inTurn, run_bind]
  cases hx : (x.run names).1
  · exact Prod.ext hx.symm rfl
  · exact Prod.ext hx.symm rfl

theorem inTurn_append (xs ys : List (StateM Names Bool)) :
    inTurn (xs ++ ys) = do if ← inTurn xs then inTurn ys else return false := by
  induction xs with
  | nil => rfl
  | cons x xs ih =>
    funext names
    show (inTurn (x :: (xs ++ ys))).run names = _
    rw [inTurn, ih, run_bind]
    show _ = (do if ← inTurn (x :: xs) then inTurn ys else return false : StateM Names Bool).run names
    rw [run_bind, inTurn, run_bind]
    cases (x.run names).1 <;> rfl

theorem inTurn_flatMap {f : α → List (StateM Names Bool)} {g : α → StateM Names Bool} {as : List α}
    (h : ∀ a ∈ as, inTurn (f a) = g a) : inTurn (as.flatMap f) = inTurn (as.map g) := by
  induction as with
  | nil => rfl
  | cons a as ih =>
    obtain ⟨ha, has⟩ := List.forall_mem_cons.mp h
    rw [List.flatMap_cons, inTurn_append, ha, ih has]
    rfl

/-- **Where runs in turn fail, the one that failed left the names as the ones before had left them.** -/
theorem exists_failed {f : α → StateM Names Bool} {as : List α} (h : ∀ a ∈ as, Restores (f a))
    (hrun : (inTurn (as.map f)).run names = (false, names')) : ∃ done failed rest, as = done ++ failed :: rest ∧
      (inTurn (done.map f)).run names = (true, names') ∧ (f failed).run names' = (false, names') := by
  induction as generalizing names with
  | nil => cases hrun
  | cons a as ih =>
    obtain ⟨ha, has⟩ := List.forall_mem_cons.mp h
    rw [List.map_cons, inTurn, run_bind] at hrun
    split at hrun
    · rename_i hmatch
      obtain ⟨done, failed, rest, rfl, hdone, hfailed⟩ := ih has hrun
      refine ⟨a :: done, failed, rest, rfl, ?_, hfailed⟩
      rw [List.map_cons, inTurn, run_bind, if_pos hmatch, hdone]
    · rename_i hfalse
      have hfalse := Bool.eq_false_iff.mpr hfalse
      have hnames : ((f a).run names).2 = names := ha names hfalse
      obtain rfl : names = names' := hnames.symm.trans (congrArg Prod.snd hrun)
      exact ⟨[], a, as, rfl, rfl, Prod.ext hfalse hnames⟩

end Matcher

/-! ## Places -/

/-- The operands of two nodes that stand in the same places, if these are fixed. -/
def Shape.places : Shape α → Shape β → Option (List (α × β))
  | .power a b, .power c d => some [(a, c), (b, d)]
  | .modulo a b, .modulo c d => some [(a, c), (b, d)]
  | .factorial a, .factorial c => some [(a, c)]
  | _, _ => none

theorem Shape.places_map (f : α → α') (g : β → β') (b : Shape α) (c : Shape β) :
    (b.map f).places (c.map g) = (b.places c).map (List.map (Prod.map f g)) := by
  cases b <;> cases c <;> rfl

theorem Shape.mem_children_of_places {b : Shape α} {c : Shape β} {ps : List (α × β)} (h : b.places c = some ps) :
    ∀ p ∈ ps, p.1 ∈ b.children := by
  cases b <;> cases c <;> simp only [places, reduceCtorEq, Option.some.injEq] at h <;> subst h <;> simp [children]

/-- Operands in fixed places stay there when a node is arranged. -/
theorem Shape.places_arrange (b c : Shape Expr) :
    (b.arrange (b.map Expr.arrange)).places (c.arrange (c.map Expr.arrange)) =
      (b.places c).map (List.map (Prod.map Expr.arrange Expr.arrange)) := by
  cases b <;> cases c <;> rfl

namespace Matcher

/-- Operands in fixed places are compared in turn. -/
theorem shape_of_places {b : Shape (Matcher Expr)} {c : Shape Expr} {ps : List (Matcher Expr × Expr)}
    (h : b.places c = some ps) : shape .bijective b c = inTurn (ps.map fun p => p.1 p.2) := by
  cases b <;> cases c <;> simp only [Shape.places, reduceCtorEq, Option.some.injEq] at h <;> subst h <;>
    simp only [List.map_cons, List.map_nil, inTurn_singleton]
  case power.power => rw [inTurn, inTurn_singleton]; rfl
  case modulo.modulo => rw [inTurn, inTurn_singleton]; rfl
  case factorial.factorial => rfl

theorem restores_shape {b : Shape (Matcher Expr)} {c : Shape Expr} (h : b.places c = none) :
    Restores (shape .bijective b c) := by
  cases b <;> cases c <;> simp only [Shape.places, reduceCtorEq] at h
  case number.number v w => exact restores_pure _
  case var.var m n => exact fun _ hfalse => by cases hfalse
  case call.call m as n bs => exact restores_note (restores_list as bs) _
  case sum.sum ts us => exact restores_list _ us
  all_goals exact restores_pure false

end Matcher

/-! ## Parts of a comparison -/

namespace Comparable

/-- Compares a pair; what cannot be compared does not match. -/
def comparison (p : Comparable × Comparable) : StateM Names Bool :=
  match isSame .bijective p.1 p.2 with
  | .ok m => m
  | .error _ => return false

theorem comparison_of_isSame {l r : Comparable} {m : StateM Names Bool} (hm : isSame .bijective l r = .ok m) :
    comparison (l, r) = m := by
  rw [comparison, hm]

end Comparable

namespace Expr

open Matcher (Restores inTurn)
open Comparable (comparison)

/-- The operands that stand in the same fixed places of two trees with the same sign. -/
def places (a b : Expr) : Option (List (Expr × Expr)) := if a.sign = b.sign then a.shape.places b.shape else none

/-- The pairs of subtrees that are compared in turn when two trees are compared. -/
def parts (a : Expr) : Expr → List (Comparable × Comparable) := a.fold fun a s b =>
  match if a.sign = b.sign then s.places b.shape else none with
  | some ps => ps.flatMap fun p => p.1 p.2
  | none => [(.expr a, .expr b)]

variable {a b : Expr} {ps : List (Expr × Expr)}

theorem parts_eq (a b : Expr) : a.parts b =
    match a.places b with
    | some ps => ps.flatMap fun p => p.1.parts p.2
    | none => [(.expr a, .expr b)] := by
  have hfold : a.parts b = match if a.sign = b.sign then (a.shape.map parts).places b.shape else none with
    | some ps => ps.flatMap fun p => p.1 p.2
    | none => [(.expr a, .expr b)] := congrFun (fold_eq _ a) b
  have hplaces : (a.shape.map parts).places b.shape = (a.shape.places b.shape).map (List.map (Prod.map parts id)) := by
    rw [← Shape.places_map, Shape.map_id]
  rw [hfold, places, hplaces]
  by_cases hs : a.sign = b.sign
  · rw [if_pos hs, if_pos hs]
    cases a.shape.places b.shape with
    | none => rfl
    | some ps => exact List.flatMap_map ..
  · rw [if_neg hs, if_neg hs]

theorem mem_children_of_places (h : a.places b = some ps) : ∀ p ∈ ps, p.1 ∈ a.children := by
  rw [places] at h
  split at h
  · exact Shape.mem_children_of_places h
  · cases h

theorem matcher_arrange (a b : Expr) : a.arrange.matcher .bijective b.arrange =
    if a.sign = b.sign then Matcher.shape .bijective (a.arrange.shape.map (matcher .bijective)) b.arrange.shape
    else pure false := by
  rw [matcher_eq, arrange_eq, arrange_eq b]

/-- The matchers of operands in fixed places, once the trees are arranged. -/
theorem places_matchers (a b : Expr) : (a.arrange.shape.map (matcher .bijective)).places b.arrange.shape =
    (a.shape.places b.shape).map (List.map fun p => (p.1.arrange.matcher .bijective, p.2.arrange)) := by
  rw [← Shape.map_id b.arrange.shape, Shape.places_map, arrange_eq, arrange_eq b, Shape.places_arrange, Option.map_map]
  refine congrArg (Option.map · _) (funext fun ps => ?_)
  exact List.map_map ..

/-- Arranged trees are compared place by place, if there are any. -/
theorem matcher_of_places (h : a.places b = some ps) : a.arrange.matcher .bijective b.arrange =
    inTurn (ps.map fun p => p.1.arrange.matcher .bijective p.2.arrange) := by
  rw [places] at h
  split at h
  · rename_i hs
    have hplaces := places_matchers a b
    rw [h, Option.map_some] at hplaces
    rw [matcher_arrange, if_pos hs, Matcher.shape_of_places hplaces, List.map_map]
    rfl
  · cases h

/-- A comparison of trees that does not go place by place notes nothing if it fails. -/
theorem restores_of_places (h : a.places b = none) : Restores (a.arrange.matcher .bijective b.arrange) := by
  rw [matcher_arrange]
  split
  · rename_i hs
    rw [places, if_pos hs] at h
    exact Matcher.restores_shape (by rw [places_matchers, h]; rfl)
  · exact Matcher.restores_pure false

/-- Comparing two trees is comparing their parts in turn. -/
theorem inTurn_parts (a b : Expr) : inTurn ((a.parts b).map comparison) = a.arrange.matcher .bijective b.arrange := by
  induction a using Expr.induction generalizing b with
  | h a ih =>
    rw [parts_eq]
    cases h : a.places b with
    | none => exact Matcher.inTurn_singleton _
    | some ps =>
      rw [matcher_of_places h, List.map_flatMap]
      exact Matcher.inTurn_flatMap fun p hp => ih p.1 (mem_children_of_places h p hp) p.2

/-- A part that fails notes nothing. -/
theorem restores_parts (a b : Expr) : ∀ p ∈ a.parts b, Restores (comparison p) := by
  induction a using Expr.induction generalizing b with
  | h a ih =>
    rw [parts_eq]
    cases h : a.places b with
    | none => exact List.forall_mem_singleton.mpr (restores_of_places h)
    | some ps =>
      intro p hp
      obtain ⟨q, hq, hp⟩ := List.mem_flatMap.mp hp
      exact ih q.1 (mem_children_of_places h q hq) q.2 p hp

end Expr

namespace Comparable

open Matcher (Restores inTurn)

variable {l r : Comparable} {m : StateM Names Bool} {names names' : Names}

/-- The parts that are compared in turn when two things are compared: subtrees in fixed places, the numerators of ratios
and then their denominators, and the sides of equations. Lists and sums are compared as a whole. -/
def parts : Comparable → Comparable → List (Comparable × Comparable)
  | .expr a, .expr b => a.parts b
  | .ratio t, .ratio u => [(.exprs t.numerator, .exprs u.numerator), (.exprs t.denominator, .exprs u.denominator)]
  | .equation q, .equation r =>
    if q.sides.length = r.sides.length then (q.sides.zip r.sides).flatMap fun p => p.1.parts p.2
    else [(.equation q, .equation r)]
  | l, r => [(l, r)]

theorem inTurn_sides {as bs : List Expr} (h : as.length = bs.length) :
    inTurn ((as.zip bs).map fun p => p.1.arrange.matcher .bijective p.2.arrange) = sides .bijective as bs := by
  induction as generalizing bs with
  | nil =>
    obtain rfl := List.length_eq_zero_iff.mp h.symm
    rfl
  | cons a as ih =>
    obtain ⟨b, bs, rfl⟩ := List.exists_cons_of_length_eq_add_one h.symm
    rw [List.zip_cons_cons, List.map_cons, inTurn, ih (Nat.succ.inj h), sides]

/-- **Comparing two things is comparing their parts in turn.** -/
theorem inTurn_parts (hm : isSame .bijective l r = .ok m) : inTurn ((l.parts r).map comparison) = m := by
  have hself : inTurn ([(l, r)].map comparison) = m := by
    rw [List.map_singleton, Matcher.inTurn_singleton, comparison_of_isSame hm]
  cases l <;> cases r <;> simp only [isSame, reduceCtorEq, Except.ok.injEq] at hm
  case expr.expr a b => exact (Expr.inTurn_parts a b).trans hm
  case ratio.ratio t u =>
    subst hm
    show inTurn [_, _] = _
    rw [inTurn, Matcher.inTurn_singleton]
    rfl
  case equation.equation q r =>
    rw [parts]
    split
    · rename_i hlen
      rw [if_pos hlen] at hm
      rw [List.map_flatMap, Matcher.inTurn_flatMap fun p _ => Expr.inTurn_parts p.1 p.2, inTurn_sides hlen, hm]
    · exact hself
  all_goals exact hself

/-- **A part that fails notes nothing.** -/
theorem restores_parts (hm : isSame .bijective l r = .ok m) : ∀ p ∈ l.parts r, Restores (comparison p) := by
  have hself : Restores m → ∀ p ∈ [(l, r)], Restores (comparison p) := fun h =>
    List.forall_mem_singleton.mpr (comparison_of_isSame hm ▸ h)
  cases l <;> cases r <;> simp only [isSame, unsorted_eq_ok, reduceCtorEq, Except.ok.injEq] at hm <;>
    first | subst hm | obtain ⟨-, rfl⟩ := hm
  case expr.expr a b => exact Expr.restores_parts a b
  case ratio.ratio t u =>
    have hlists : ∀ as bs : List Expr, Restores (comparison (.exprs as, .exprs bs)) := fun _ _ =>
      Matcher.restores_list _ _
    exact List.forall_mem_cons.mpr ⟨hlists _ _, List.forall_mem_singleton.mpr (hlists _ _)⟩
  case equation.equation q r =>
    rw [parts]
    split
    · intro p hp
      obtain ⟨s, -, hp⟩ := List.mem_flatMap.mp hp
      exact Expr.restores_parts s.1 s.2 p hp
    · rename_i hlen
      rw [if_neg hlen] at hself
      exact hself (Matcher.restores_pure false)
  case terms.terms ts us => exact hself (Matcher.restores_list _ _)
  case exprs.exprs as bs => exact hself (Matcher.restores_list _ _)
  case ratios.ratios ts us => exact hself (Matcher.restores_list _ _)
  all_goals exact hself (Matcher.restores_pure _)

/-- **A comparison that fails leaves only what parts have noted that matched before.** The names are as these parts left
them, one after the other, and the part that failed noted nothing; so if there is only one part, the names are as they
were. -/
theorem isSame_failed (hm : isSame .bijective l r = .ok m) (hrun : m.run names = (false, names')) :
    (∃ done failed rest, l.parts r = done ++ failed :: rest ∧
      (inTurn (done.map comparison)).run names = (true, names') ∧ (comparison failed).run names' = (false, names')) ∧
    ((l.parts r).length = 1 → names' = names) := by
  rw [← inTurn_parts hm] at hrun
  obtain ⟨done, failed, rest, hparts, hdone, hfailed⟩ := Matcher.exists_failed (restores_parts hm) hrun
  refine ⟨⟨done, failed, rest, hparts, hdone, hfailed⟩, fun hlen => ?_⟩
  rw [hparts, List.length_append, List.length_cons] at hlen
  obtain rfl : done = [] := List.length_eq_zero_iff.mp (by omega)
  exact (congrArg Prod.snd hdone).symm

/-- The equation `x^2 = sin(y)^(u * v) = z`. -/
def productExponent : Comparable := .equation ⟨[(Expr.var "x").pow (.number 2),
  (Expr.call "sin" [.var "y"]).pow (.sum [⟨[.var "u", .var "v"], []⟩]), .var "z"]⟩

/-- The equation `a^2 = cos(b)^(c + d) = z`. -/
def sumExponent : Comparable := .equation ⟨[(Expr.var "a").pow (.number 2),
  (Expr.call "cos" [.var "b"]).pow (.sum [.of (.var "c"), .of (.var "d")]), .var "z"]⟩

/-- What is noted when the two equations are compared, before the exponents of their second sides. -/
def notedBeforeExponents : Names := ⟨[("x", ["a"]), ("y", ["b"])], [("sin", ["cos"])]⟩

theorem isSame_failed_exponents : ∃ m, isSame .bijective productExponent sumExponent = .ok m ∧
    m.run {} = (false, notedBeforeExponents) ∧
      (∃ done failed rest, productExponent.parts sumExponent = done ++ failed :: rest ∧
        (inTurn (done.map comparison)).run {} = (true, notedBeforeExponents) ∧
          (comparison failed).run notedBeforeExponents = (false, notedBeforeExponents)) ∧
      ((productExponent.parts sumExponent).length = 1 → notedBeforeExponents = {}) := by
  have hrun : ∀ m, isSame .bijective productExponent sumExponent = .ok m →
      m.run {} = (false, notedBeforeExponents) := by
    intro m hm
    obtain rfl := Except.ok.inj hm
    cbv
  exact ⟨_, rfl, hrun _ rfl, isSame_failed rfl (hrun _ rfl)⟩

/-- The bases of `x^2` and `y^3` match and stay noted, though the exponents do not match. -/
theorem isSame_failed_notes : ∃ m, isSame .bijective (.expr ((Expr.var "x").pow (.number 2)))
    (.expr ((Expr.var "y").pow (.number 3))) = .ok m ∧ m.run {} = (false, ⟨[("x", ["y"])], []⟩) ∧
      (⟨[("x", ["y"])], []⟩ : Names) ≠ {} := by
  refine ⟨_, rfl, ?_, by decide⟩
  cbv

end Comparable

end Isolate
