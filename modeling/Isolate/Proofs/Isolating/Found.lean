import Isolate.Inverse.Step
import Mathlib.Logic.Basic

/-!
# The step that is found

What an isolation step looks like, by the node that it undoes (`Expr.Undoes`, `Expr.undoes_of_inversion`): everything
that is said of steps elsewhere goes by these four cases.

* `Equation.isolation` is the side and the step that `Equation.applyInverse` works with (`Equation.applyInverse_eq_ok`).
* `Equation.transform_pair`: a step taken at one of two sides.
-/

namespace Isolate

/-! ## Results one after the other -/

theorem ok_bind (a : α) (f : α → Except Fault β) : (Except.ok a >>= f) = f a := rfl

theorem bind_eq_ok {x : Except Fault α} {f : α → Except Fault β} {b : β} :
    (x >>= f) = .ok b ↔ ∃ a, x = .ok a ∧ f a = .ok b := by
  cases x with
  | error fault =>
    constructor
    · intro h
      cases h
    · rintro ⟨a, h, -⟩
      cases h
  | ok a =>
    constructor
    · exact fun h => ⟨a, rfl, h⟩
    · rintro ⟨c, h, hf⟩
      cases h
      exact hf

theorem map_eq_ok {x : Except Fault α} {f : α → β} {b : β} : x.map f = .ok b ↔ ∃ a, x = .ok a ∧ f a = b := by
  cases x with
  | error fault =>
    constructor
    · intro h
      cases h
    · rintro ⟨a, h, -⟩
      cases h
  | ok a =>
    constructor
    · exact fun h => ⟨a, rfl, Except.ok.inj h⟩
    · rintro ⟨c, h, rfl⟩
      cases h
      rfl

theorem map_eq_error {x : Except Fault α} {f : α → β} {fault : Fault} : x.map f = .error fault ↔ x = .error fault := by
  cases x with
  | error => simp [Except.map]
  | ok => simp [Except.map]

namespace Expr

/-! ## Four kinds of steps -/

/-- The step undoes the outermost operation of the node, and relies on the conditions. -/
inductive Undoes (template : String) (e : Expr) : Inversion → Prop
  | call {name inverse : String} {tabulated : Bool} {a : Expr} (hshape : e.shape = .call name [a]) :
      Undoes template e ⟨.undo inverse name tabulated, []⟩
  | ratio {t : Ratio Expr} {above keptAbove below keptBelow : List Expr} (hshape : e.shape = .sum [t])
      (habove : partFactors t.numerator = .ok (above, keptAbove))
      (hbelow : partFactors t.denominator = .ok (below, keptBelow)) :
      Undoes template e ⟨.multiply ⟨below, above⟩ ⟨keptAbove, keptBelow⟩, nonzero below ++ nonzero above⟩
  | terms {ts moved kept : List (Ratio Expr)} (hshape : e.shape = .sum ts) (hparts : partTerms ts = .ok (moved, kept)) :
      Undoes template e ⟨.add moved kept, []⟩
  | minus (hsign : e.sign = .neg) : Undoes template e ⟨.negate, []⟩

variable {template : String} {e : Expr} {found : Inversion}

theorem undoes_of_invertCall {name : String} {as : List Expr} (hshape : e.shape = .call name as)
    (h : invertCall template name as = .ok found) : Undoes template e found := by
  unfold invertCall at h
  split at h
  · cases h
  · rename_i hlen
    obtain ⟨a, rfl⟩ := List.length_eq_one_iff.mp (not_not.mp hlen)
    split at h
    · cases h
      exact .call hshape
    · obtain ⟨inverse, -, rfl⟩ := map_eq_ok.mp h
      exact .call hshape

theorem undoes_of_invertRatio {t : Ratio Expr} (hshape : e.shape = .sum [t])
    (h : invertRatio t = .ok (some found)) : Undoes template e found := by
  obtain ⟨⟨above, keptAbove⟩, habove, h⟩ := bind_eq_ok.mp h
  obtain ⟨⟨below, keptBelow⟩, hbelow, h⟩ := bind_eq_ok.mp h
  simp only at h
  split at h
  · cases h
  · cases h
    exact .ratio hshape habove hbelow

theorem undoes_of_invertSum {ts : List (Ratio Expr)} (hshape : e.shape = .sum ts)
    (h : invertSum ts = .ok (some found)) : Undoes template e found := by
  obtain ⟨⟨moved, kept⟩, hparts, h⟩ := bind_eq_ok.mp h
  simp only at h
  split at h
  · cases h
  · cases h
    exact .terms hshape hparts

/-- **A step that is found is of one of four kinds.** -/
theorem undoes_of_inversion (h : e.inversion template = .ok (some found)) : Undoes template e found := by
  obtain ⟨-, -, h⟩ := bind_eq_ok.mp h
  obtain ⟨shaped, hshaped, h⟩ := bind_eq_ok.mp h
  cases shaped with
  | none =>
    simp only at h
    split at h
    · rename_i hsign
      cases h
      exact .minus hsign
    · cases h
  | some found' =>
    cases h
    cases hb : e.shape with
    | call name as =>
      rw [hb] at hshaped
      obtain ⟨inversion, hcall, hsome⟩ := map_eq_ok.mp hshaped
      cases hsome
      exact undoes_of_invertCall hb hcall
    | power b c =>
      rw [hb] at hshaped
      obtain ⟨-, -, h⟩ := bind_eq_ok.mp hshaped
      obtain ⟨-, -, h⟩ := bind_eq_ok.mp h
      cases h
    | sum ts =>
      rw [hb] at hshaped
      match ts with
      | [] => cases hshaped
      | [t] => exact undoes_of_invertRatio hb hshaped
      | t :: u :: ts => exact undoes_of_invertSum hb hshaped
    | _ =>
      rw [hb] at hshaped
      cases hshaped

end Expr

namespace Equation

/-! ## The side that is worked on -/

/-- The side that an isolation step works on and the step that undoes it, if there are any. -/
def isolation (template : String) (target : Option String) (q : Equation) : Except Fault (Option (Nat × Inversion)) := do
  match ← q.locate target with
  | none => return none
  | some i =>
    let side := q.sides.getD i default
    let names := (← side.noted).vars
    if 1 < names.length then throw (.crowdedSide side.text names)
    return (← side.inversion template).map (i, ·)

variable {template : String} {target : Option String} {q : Equation} {done : Isolated}

/-- What `applyInverse` did where it did not fail: nothing, or the step that is found. -/
theorem applyInverse_eq_ok (h : q.applyInverse template target = .ok done) : q.sides.length = 2 ∧
    (done.equation = q ∧ done.conditions = [] ∨
      ∃ i found, q.isolation template target = .ok (some (i, found)) ∧ q.transform found.step i = .ok done.equation ∧
        done.conditions = found.conditions) := by
  unfold applyInverse at h
  split at h
  · cases h
  · rename_i hlen
    refine ⟨not_not.mp hlen, ?_⟩
    obtain ⟨place, hplace, h⟩ := bind_eq_ok.mp h
    cases place with
    | none =>
      cases h
      exact .inl ⟨rfl, rfl⟩
    | some i =>
      obtain ⟨side, hside, h⟩ := bind_eq_ok.mp h
      simp only at h
      split at h
      · cases h
      · rename_i hfew
        obtain ⟨inversion, hinversion, h⟩ := bind_eq_ok.mp h
        cases inversion with
        | none =>
          cases h
          exact .inl ⟨rfl, rfl⟩
        | some found =>
          obtain ⟨r, hr, h⟩ := bind_eq_ok.mp h
          cases h
          refine .inr ⟨i, found, bind_eq_ok.mpr ⟨some i, hplace, bind_eq_ok.mpr ⟨side, hside, ?_⟩⟩, hr, rfl⟩
          simp only [if_neg hfew]
          exact bind_eq_ok.mpr ⟨some found, hinversion, rfl⟩

theorem locateFrom_lt {k i : Nat} {es : List Expr} (h : locateFrom target k es = .ok (some i)) :
    k ≤ i ∧ i < k + es.length := by
  induction es generalizing k with
  | nil => cases h
  | cons e es ih =>
    obtain ⟨names, -, h⟩ := bind_eq_ok.mp h
    rw [List.length_cons]
    rcases ite_eq_iff.mp h with ⟨-, h⟩ | ⟨-, h⟩
    · cases h
      omega
    · have := ih h
      omega

/-- The side that is worked on is one of the equation, and the step undoes it. -/
theorem isolation_eq_ok {i : Nat} {found : Inversion} (h : q.isolation template target = .ok (some (i, found))) :
    i < q.sides.length ∧ Expr.Undoes template (q.sides.getD i default) found := by
  obtain ⟨place, hplace, h⟩ := bind_eq_ok.mp h
  cases place with
  | none => cases h
  | some j =>
    obtain ⟨side, -, h⟩ := bind_eq_ok.mp h
    simp only at h
    split at h
    · cases h
    · obtain ⟨inversion, hinversion, h⟩ := bind_eq_ok.mp h
      cases inversion with
      | none => cases h
      | some found' =>
        cases h
        have := locateFrom_lt hplace
        exact ⟨by omega, Expr.undoes_of_inversion hinversion⟩

/-- A step taken at one of two sides peels that side and is applied to the other. -/
theorem transform_pair {step : Step} {a b : Expr} {i : Nat} (hi : i < 2) {r : Equation}
    (h : (⟨[a, b]⟩ : Equation).transform step i = .ok r) :
    (i = 0 ∧ ∃ p, step.peel a = .ok p ∧ r = ⟨[p, step.apply a.sign b]⟩) ∨
      (i = 1 ∧ ∃ p, step.peel b = .ok p ∧ r = ⟨[step.apply b.sign a, p]⟩) := by
  match i with
  | 0 =>
    obtain ⟨sides, hsides, rfl⟩ := map_eq_ok.mp h
    obtain ⟨p, hp, h⟩ := bind_eq_ok.mp hsides
    cases h
    exact .inl ⟨rfl, p, hp, rfl⟩
  | 1 =>
    obtain ⟨sides, hsides, rfl⟩ := map_eq_ok.mp h
    obtain ⟨rest, hrest, h⟩ := bind_eq_ok.mp hsides
    obtain ⟨p, hp, hr⟩ := bind_eq_ok.mp hrest
    cases h
    cases hr
    exact .inr ⟨rfl, p, hp, rfl⟩

end Equation

end Isolate
