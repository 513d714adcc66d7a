import Isolate.Matching.Match

/-!
# Running matchers

Equations for the parts of a match, by the result of a run and the names it leaves. Two lists of one length are paired
one to one in the mode `bijective`, also if they are empty (`Matcher.list_bijective`).
-/

namespace Isolate

namespace Matcher

variable {β : Type}

theorem run_bind (x : StateM Names α) (f : α → StateM Names β) (names : Names) :
    (x >>= f).run names = (f (x.run names).1).run (x.run names).2 := rfl

/-- Lists of one length are paired one to one. -/
theorem list_bijective {ms : List (Matcher β)} {bs : List β} (h : ms.length = bs.length) :
    list .bijective ms bs = pairUp ms bs := by
  unfold list
  rw [if_neg (not_not_intro h)]
  split
  · rename_i he
    rw [List.isEmpty_iff.mp he]
    rfl
  · rfl

theorem run_pairUp_cons (m : Matcher β) (ms : List (Matcher β)) (bs : List β) (names : Names) :
    (pairUp (m :: ms) bs).run names =
      ((picks bs).findSome? fun p =>
        if ((m p.1).run names).1 = true ∧ ((m p.1).run names).2.check = true then
          if ((pairUp ms p.2).run ((m p.1).run names).2).1 = true then
            some (true, ((pairUp ms p.2).run ((m p.1).run names).2).2)
          else none
        else none).getD (false, names) := by
  show ((picks bs).findSome? _).getD (false, names) = _
  congr 2
  funext ⟨b, rest⟩
  match hm : (m b).run names with
  | (false, trial) => simp [hm]
  | (true, trial) =>
    match hr : (pairUp ms rest).run trial with
    | (false, _) => simp [hm, hr]
    | (true, _) => simp [hm, hr]

end Matcher

theorem Expr.matcher_eq (mode : MatchMode) (e : Expr) : e.matcher mode =
    fun c => if e.sign = c.sign then Matcher.shape mode (e.shape.map (matcher mode)) c.shape else pure false :=
  fold_eq ..

/-- Two equations are like each other if their sides match and the names make a renaming. -/
theorem Equation.isLike_iff {mode : MatchMode} {q r : Equation} : isLike mode q r = true ↔
    q.sides.length = r.sides.length ∧ ((Comparable.sides mode q.sides r.sides).run {}).1 = true ∧
      ((Comparable.sides mode q.sides r.sides).run {}).2.check = true := by
  unfold isLike
  split
  · rename_i h
    constructor
    · intro hb
      exact ⟨h, Bool.and_eq_true_iff.mp hb⟩
    · rintro ⟨-, hb⟩
      exact Bool.and_eq_true_iff.mpr hb
  · rename_i h
    exact ⟨fun hb => absurd hb Bool.false_ne_true, fun hb => absurd hb.1 h⟩

end Isolate
