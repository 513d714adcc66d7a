import Isolate.Proofs.Tree.BottomUp
import Isolate.Proofs.Tree.Effects

/-!
# Changing in place and making anew

A change of the nodes (`Change`) may be made in place, where a node keeps its summary, or on a new node, which has none.
In both orders of visits and within any reach, the trees that come out are the same but for the summaries
(`Expr.bare_editUp` and `Expr.bare_editDown?`): the nodes that are visited at one place of both trees differ in their
summaries only, and the change does not read these.

From the top down, the number of levels that may be used does not matter once it suffices (`Expr.editDown?_unique`), and
it can suffice if there is a bound (`Expr.exists_editDown?_levels`).

* `Change.traversals_agree`: the traversals that change in place and those that make anew agree.
-/

namespace Isolate

/-- A change of a node, from sign and shape to sign and shape. It treats operands alike that differ in their summaries
only. Operands are values and no node is an operand of two others: what the changed node has twice is there in two copies,
and a later visit to one of them leaves the other as it is. -/
structure Change where
  change : Sign → Shape Expr → Sign × Shape Expr
  ignores : ∀ s {b c : Shape Expr}, b.map Expr.bare = c.map Expr.bare →
    (change s b).1 = (change s c).1 ∧ (change s b).2.map Expr.bare = (change s c).2.map Expr.bare

namespace Change

variable {g : Change} {a b e : Expr} {reach : Reach}

/-- The changed node with the summary that it has had. -/
def inPlace (g : Change) (e : Expr) : Expr := ⟨(g.change e.sign e.shape).1, (g.change e.sign e.shape).2, e.summary⟩

/-- A new node, without a summary. -/
def anew (g : Change) (e : Expr) : Expr := ⟨(g.change e.sign e.shape).1, (g.change e.sign e.shape).2, none⟩

/-- On nodes that differ in summaries only, both ways to make the change do the same. -/
theorem bare_inPlace (g : Change) (h : a.bare = b.bare) : (g.inPlace a).bare = (g.anew b).bare := by
  obtain ⟨s, x, c⟩ := a
  obtain ⟨t, y, d⟩ := b
  rw [Expr.bare_mk, Expr.bare_mk, Expr.mk.injEq] at h
  obtain ⟨rfl, hshape, -⟩ := h
  obtain ⟨hsign, hshape⟩ := g.ignores s hshape
  rw [inPlace, anew, Expr.bare_mk, Expr.bare_mk, hshape]
  simp only [hsign]

end Change

namespace Expr

variable {g : Change} {f : Expr → Expr} {a b e : Expr} {reach : Reach} {fuel : Nat}

/-! ## From the bottom up -/

theorem bare_editUp (g : Change) (reach : Reach) (e : Expr) :
    (e.editUp g.inPlace reach).bare = (e.rebuildUp g.anew reach).bare := by
  induction e using Expr.induction generalizing reach with
  | h e ih =>
    rw [editUp_eq, rebuildUp_eq, editStep, rebuildStep]
    cases reach.below? with
    | none => exact g.bare_inPlace rfl
    | some r =>
      refine g.bare_inPlace ?_
      rw [bare_mk, bare_mk, Shape.map_map, Shape.map_map, Shape.map_map, Shape.map_map]
      exact congrArg (Expr.mk _ · _) (Shape.map_congr fun a ha => ih a ha r)

/-! ## From the top down -/

/-- Nothing can be done to the operands, so there must not be any. -/
theorem mapM_none (b : Shape Expr) :
    b.mapM (fun _ => (none : Option Expr)) = if b.children.isEmpty then some b else none := by
  have hnone : IsGiven (b.mapM fun _ => (none : Option Expr)) (∀ a ∈ b.children, False) (b.map id) :=
    isTold_isGiven.mapShape fun _ _ => ⟨False.elim, fun _ => rfl⟩
  rw [Shape.map_id] at hnone
  cases hb : b.children with
  | nil => exact hnone.eq_some (by simp [hb])
  | cons a as => exact hnone.eq_none fun h => h a (by simp [hb])

/-- What is done to the operands, with one level less to use. -/
def editBelow? (f : Expr → Expr) (r : Reach) : Nat → Expr → Option Expr
  | 0, _ => none
  | fuel + 1, e => e.editDown? f fuel r

def rebuildBelow? (f : Expr → Expr) (r : Reach) : Nat → Expr → Option Expr
  | 0, _ => none
  | fuel + 1, e => e.rebuildDown? f fuel r

theorem editDown?_here (h : reach.below? = none) : e.editDown? f fuel reach = some (f e) := by
  unfold editDown?
  rw [h]

theorem editDown?_below {r : Reach} (h : reach.below? = some r) :
    e.editDown? f fuel reach = ((f e).shape.mapM (editBelow? f r fuel)).map fun b => { f e with shape := b } := by
  cases fuel with
  | zero =>
    have hnone : (f e).shape.mapM (editBelow? f r 0) = _ := mapM_none (f e).shape
    unfold editDown?
    rw [h, hnone]
    obtain ⟨s, b, c⟩ := f e
    rw [children]
    cases b.children.isEmpty <;> rfl
  | succ fuel =>
    unfold editDown?
    rw [h]
    exact bind_pure_comp (m := Option) ..

theorem rebuildDown?_here (h : reach.below? = none) : e.rebuildDown? f fuel reach = some (f e) := by
  unfold rebuildDown?
  rw [h]

theorem rebuildDown?_below {r : Reach} (h : reach.below? = some r) :
    e.rebuildDown? f fuel reach =
      ((f e).shape.mapM (rebuildBelow? f r fuel)).map fun b => ⟨(f e).sign, b, none⟩ := by
  cases fuel with
  | zero =>
    have hnone : (f e).shape.mapM (rebuildBelow? f r 0) = _ := mapM_none (f e).shape
    unfold rebuildDown?
    rw [h, hnone, ← children]
    cases (f e).children.isEmpty <;> rfl
  | succ fuel =>
    unfold rebuildDown?
    rw [h]
    exact bind_pure_comp (m := Option) ..

/-- Actions that do the same but for summaries do so on the operands of a node. -/
theorem bare_mapM {F G : Expr → Option Expr} (h : ∀ a b, a.bare = b.bare → (F a).map bare = (G b).map bare)
    {b c : Shape Expr} (hbc : b.map bare = c.map bare) :
    (b.mapM F).map (Shape.map bare) = (c.mapM G).map (Shape.map bare) := by
  have hF : (fun a => (F a).map bare) = (fun a => (G a).map bare) ∘ bare :=
    funext fun a => h a a.bare (bare_bare a).symm
  have hG : (fun a => (G a).map bare) = (fun a => (G a).map bare) ∘ bare := by
    rw [← hF]
    exact funext fun a => (h a a rfl).symm
  calc (b.mapM F).map (Shape.map bare)
      = b.mapM fun a => (F a).map bare := Shape.map_mapM bare F b
    _ = (b.map bare).mapM fun a => (G a).map bare := by rw [hF, Shape.mapM_map]
    _ = (c.map bare).mapM fun a => (G a).map bare := by rw [hbc]
    _ = c.mapM fun a => (G a).map bare := by rw [Shape.mapM_map, ← hG]
    _ = (c.mapM G).map (Shape.map bare) := (Shape.map_mapM bare G c).symm

/-- One level of both traversals, given that they do the same further down. -/
theorem bare_editDown?_node (h : a.bare = b.bare) (hbelow : ∀ r a b, a.bare = b.bare →
    (editBelow? g.inPlace r fuel a).map bare = (rebuildBelow? g.anew r fuel b).map bare) :
    (a.editDown? g.inPlace fuel reach).map bare = (b.rebuildDown? g.anew fuel reach).map bare := by
  have hnode := g.bare_inPlace h
  cases hreach : reach.below? with
  | none => rw [editDown?_here hreach, rebuildDown?_here hreach, Option.map_some, Option.map_some, hnode]
  | some r =>
    have hsign : (g.inPlace a).sign = (g.anew b).sign := by rw [← sign_bare, hnode, sign_bare]
    have hshape : (g.inPlace a).shape.map bare = (g.anew b).shape.map bare := by
      rw [← shape_bare, hnode, shape_bare]
    have hoperands := congrArg (Option.map fun c => (⟨(g.anew b).sign, c, none⟩ : Expr)) (bare_mapM (hbelow r) hshape)
    rw [editDown?_below hreach, rebuildDown?_below hreach, Option.map_map, Option.map_map]
    rw [Option.map_map, Option.map_map] at hoperands
    simpa [Function.comp_def, hsign] using hoperands

/-- **From the top down, the changes in place and on new nodes come to the same**, with as many levels to use. -/
theorem bare_editDown? (g : Change) (h : a.bare = b.bare) :
    (a.editDown? g.inPlace fuel reach).map bare = (b.rebuildDown? g.anew fuel reach).map bare := by
  induction fuel generalizing a b reach with
  | zero => exact bare_editDown?_node h fun _ _ _ _ => rfl
  | succ fuel ih => exact bare_editDown?_node h fun _ _ _ hab => ih hab

/-! ## The levels that may be used -/

/-- An action that gives all that another one gives does so on the operands of a node. -/
theorem mapM_mono {F G : Expr → Option Expr} (h : ∀ x y, F x = some y → G x = some y) {b c : Shape Expr}
    (hb : b.mapM F = some c) : b.mapM G = some c := by
  obtain ⟨hall, rfl⟩ := Shape.mapM_eq_some_iff.mp hb
  have hsame : ∀ a ∈ b.children, G a = F a := fun a ha => by
    obtain ⟨y, hy⟩ := Option.ne_none_iff_exists'.mp (hall a ha)
    rw [hy, h a y hy]
  refine Shape.mapM_eq_some_iff.mpr ⟨fun a ha => ?_, Shape.map_congr fun a ha => ?_⟩
  · rw [hsame a ha]
    exact hall a ha
  · rw [hsame a ha]

/-- One level of a traversal that may use one level more, given that it does no less further down. -/
theorem editDown?_mono_node (h : e.editDown? f fuel reach = some a)
    (hbelow : ∀ r x y, editBelow? f r fuel x = some y → editBelow? f r (fuel + 1) x = some y) :
    e.editDown? f (fuel + 1) reach = some a := by
  cases hreach : reach.below? with
  | none =>
    rw [editDown?_here hreach] at h ⊢
    exact h
  | some r =>
    rw [editDown?_below hreach, Option.map_eq_some_iff] at h ⊢
    obtain ⟨b, hb, ha⟩ := h
    exact ⟨b, mapM_mono (hbelow r) hb, ha⟩

theorem editDown?_succ (h : e.editDown? f fuel reach = some a) : e.editDown? f (fuel + 1) reach = some a := by
  induction fuel generalizing e a reach with
  | zero => exact editDown?_mono_node h fun _ _ _ hno => by cases hno
  | succ fuel ih => exact editDown?_mono_node h fun _ _ _ hx => ih hx

theorem editDown?_mono {fuel' : Nat} (hle : fuel ≤ fuel') (h : e.editDown? f fuel reach = some a) :
    e.editDown? f fuel' reach = some a := by
  induction hle with
  | refl => exact h
  | step _ ih => exact editDown?_succ ih

/-- What comes out does not depend on the number of levels that may be used. -/
theorem editDown?_unique {fuel' : Nat} (h : e.editDown? f fuel reach = some a)
    (h' : e.editDown? f fuel' reach = some b) : a = b := by
  have hmax := editDown?_mono (Nat.le_max_left fuel fuel') h
  rw [editDown?_mono (Nat.le_max_right fuel fuel') h', Option.some.injEq] at hmax
  exact hmax.symm

/-- A traversal that has a bound needs no more levels. -/
theorem exists_editDown?_levels (f : Expr → Expr) (d : Nat) (e : Expr) :
    ∃ a, e.editDown? f d (.levels d) = some a := by
  induction d generalizing e with
  | zero => exact ⟨f e, editDown?_here rfl⟩
  | succ d ih =>
    have hoperands : ∃ b, (f e).shape.mapM (editBelow? f (.levels d) (d + 1)) = some b :=
      ⟨_, Shape.mapM_eq_some_iff.mpr ⟨fun a _ => Option.ne_none_iff_exists'.mpr (ih a), rfl⟩⟩
    obtain ⟨b, hb⟩ := hoperands
    exact ⟨{ f e with shape := b }, by rw [editDown?_below rfl, hb, Option.map_some]⟩

end Expr

/-! ## Both traversals -/

namespace Change

variable {g : Change} {order : Visiting} {reach : Reach} {a b e : Expr}

/-- What comes out if the changes are made in place. -/
def EndsInPlace (g : Change) (order : Visiting) (reach : Reach) (e a : Expr) : Prop :=
  match order with
  | .bottomUp => e.editUp g.inPlace reach = a
  | .topDown => ∃ fuel, e.editDown? g.inPlace fuel reach = some a

/-- What comes out if the changes are made on new nodes. -/
def EndsAnew (g : Change) (order : Visiting) (reach : Reach) (e b : Expr) : Prop :=
  match order with
  | .bottomUp => e.rebuildUp g.anew reach = b
  | .topDown => ∃ fuel, e.rebuildDown? g.anew fuel reach = some b

/-- What comes out of one traversal has a counterpart in what comes out of the other. -/
theorem endsInPlace_iff_endsAnew (g : Change) (order : Visiting) (reach : Reach) (e : Expr) :
    (∃ a, g.EndsInPlace order reach e a) ↔ ∃ b, g.EndsAnew order reach e b := by
  cases order with
  | bottomUp => exact ⟨fun _ => ⟨_, rfl⟩, fun _ => ⟨_, rfl⟩⟩
  | topDown =>
    have hsome : ∀ fuel, (e.editDown? g.inPlace fuel reach).isSome = (e.rebuildDown? g.anew fuel reach).isSome := by
      intro fuel
      rw [← Option.isSome_map (f := Expr.bare), Expr.bare_editDown? g rfl, Option.isSome_map]
    constructor
    · rintro ⟨a, fuel, ha⟩
      obtain ⟨b, hb⟩ := Option.isSome_iff_exists.mp ((hsome fuel).symm.trans (by rw [ha]; rfl))
      exact ⟨b, fuel, hb⟩
    · rintro ⟨b, fuel, hb⟩
      obtain ⟨a, ha⟩ := Option.isSome_iff_exists.mp ((hsome fuel).trans (by rw [hb]; rfl))
      exact ⟨a, fuel, ha⟩

/-- With a bound, or from the bottom up, a traversal ends. -/
theorem exists_endsInPlace {limit : Option Int} (h : order = .bottomUp ∨ limit ≠ none) :
    ∃ a, g.EndsInPlace order (.ofLevels limit) e a := by
  cases order with
  | bottomUp => exact ⟨_, rfl⟩
  | topDown =>
    cases limit with
    | none => simp at h
    | some n =>
      obtain ⟨a, ha⟩ := Expr.exists_editDown?_levels g.inPlace n.toNat e
      exact ⟨a, n.toNat, ha⟩

theorem EndsInPlace.bare_eq (ha : g.EndsInPlace order reach e a) (hb : g.EndsAnew order reach e b) :
    a.bare = b.bare := by
  cases order with
  | bottomUp =>
    rw [← show e.editUp g.inPlace reach = a from ha, ← show e.rebuildUp g.anew reach = b from hb]
    exact Expr.bare_editUp g reach e
  | topDown =>
    obtain ⟨fuel, ha⟩ := ha
    obtain ⟨fuel', hb⟩ := hb
    have hsame : (e.editDown? g.inPlace fuel' reach).map Expr.bare = _ := Expr.bare_editDown? g rfl
    rw [hb, Option.map_some, Option.map_eq_some_iff] at hsame
    obtain ⟨a', ha', hbare⟩ := hsame
    rw [Expr.editDown?_unique ha ha', hbare]

theorem EndsInPlace.summary_eq (ha : g.EndsInPlace order reach e a) : a.summary = e.summary := by
  cases order with
  | bottomUp =>
    rw [← show e.editUp g.inPlace reach = a from ha, Expr.editUp_eq, Expr.editStep]
    split <;> rfl
  | topDown =>
    obtain ⟨fuel, ha⟩ := ha
    cases hreach : reach.below? with
    | none =>
      rw [Expr.editDown?_here hreach] at ha
      rw [← Option.some.inj ha]
      rfl
    | some r =>
      rw [Expr.editDown?_below hreach, Option.map_eq_some_iff] at ha
      obtain ⟨c, -, rfl⟩ := ha
      rfl

theorem EndsAnew.summary_eq (hb : g.EndsAnew order reach e b) : b.summary = none := by
  cases order with
  | bottomUp =>
    rw [← show e.rebuildUp g.anew reach = b from hb, Expr.rebuildUp_eq, Expr.rebuildStep]
    split <;> rfl
  | topDown =>
    obtain ⟨fuel, hb⟩ := hb
    cases hreach : reach.below? with
    | none =>
      rw [Expr.rebuildDown?_here hreach] at hb
      rw [← Option.some.inj hb]
      rfl
    | some r =>
      rw [Expr.rebuildDown?_below hreach, Option.map_eq_some_iff] at hb
      obtain ⟨c, -, rfl⟩ := hb
      rfl

/-- **Changing in place and making anew agree.** What comes out is the same tree but for the summaries: a node that has
been changed in place keeps the one that it has had, and a new node has none. One of the traversals ends just if the
other does, and both do from the bottom up or with a bound. Expressions are values, so the one that is given stays what
it is. -/
theorem traversals_agree (g : Change) (order : Visiting) (limit : Option Int) (e : Expr) :
    (∀ a b, g.EndsInPlace order (.ofLevels limit) e a → g.EndsAnew order (.ofLevels limit) e b →
      a.bare = b.bare ∧ a.summary = e.summary ∧ b.summary = none) ∧
    ((∃ a, g.EndsInPlace order (.ofLevels limit) e a) ↔ ∃ b, g.EndsAnew order (.ofLevels limit) e b) ∧
    (order = .bottomUp ∨ limit ≠ none → ∃ a, g.EndsInPlace order (.ofLevels limit) e a) :=
  ⟨fun _ _ ha hb => ⟨ha.bare_eq hb, ha.summary_eq, hb.summary_eq⟩, g.endsInPlace_iff_endsAnew order _ e,
    exists_endsInPlace⟩

/-- Puts `g(y)` in the place of `x`, and a prime behind the names of other variables. -/
def expandAndPrime : Change where
  change
    | s, .var n => (s, if n = "x" then .call "g" [.var "y"] else .var (n ++ "'"))
    | s, b => (s, b)
  ignores s b c h := by
    cases b <;> cases c <;> simp_all [Shape.map]

theorem traversals_agree_expandAndPrime :
    ∃ a b, expandAndPrime.EndsInPlace .topDown .all (Expr.call "f" [.var "x"]).analyze a ∧
      expandAndPrime.EndsAnew .topDown .all (Expr.call "f" [.var "x"]).analyze b ∧
      a.bare = .call "f" [.call "g" [.var "y'"]] ∧ a.bare = b.bare ∧
      a.summary = some ⟨["x"], ["f"], false⟩ ∧ b.summary = none := by
  have ha : expandAndPrime.EndsInPlace .topDown (.ofLevels none) (Expr.call "f" [.var "x"]).analyze
      ⟨.pos, .call "f" [⟨.pos, .call "g" [.var "y'"], some ⟨["x"], [], false⟩⟩], some ⟨["x"], ["f"], false⟩⟩ :=
    ⟨3, rfl⟩
  have hb : expandAndPrime.EndsAnew .topDown (.ofLevels none) (Expr.call "f" [.var "x"]).analyze
      (.call "f" [.call "g" [.var "y'"]]) := ⟨3, rfl⟩
  obtain ⟨hbare, hsummary, hnone⟩ := (traversals_agree expandAndPrime .topDown none _).1 _ _ ha hb
  exact ⟨_, _, ha, hb, by simp [Expr.call, Expr.ofShape, Shape.map, Expr.var], hbare, hsummary, hnone⟩

end Change

end Isolate
