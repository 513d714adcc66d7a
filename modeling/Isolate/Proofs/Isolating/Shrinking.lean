import Isolate.Proofs.Isolating.Progress
import Isolate.Proofs.Isolating.Remaining
import Isolate.Solve.Strategy

/-!
# A step shrinks a side and keeps the variables

A step at an analysed side leaves fewer nodes and terms of it, or takes its minus (`Expr.Peels.shrinks`). What it takes
off the side is constant, so both sides keep their variables (`Expr.Peels.avoids_iff`, `Expr.Peels.avoids_apply_iff`).

* `Strategy.apply_applyInverse`: an isolation step changes nothing, or makes strict progress with the variables in place.
-/

namespace Isolate

/-! ## Variables of the two sides -/

namespace Expr

variable {e p b : Expr} {name template : String} {step : Step}

/-- **A step leaves the variables of the side that it undoes.** -/
theorem Peels.avoids_iff (h : Peels template e step p) (name : String) : p.Avoids name ↔ e.Avoids name := by
  cases h with
  | call hshape =>
    rw [Expr.avoids_iff (e := e), children, hshape]
    simp [Shape.children]
  | @ratio t hshape hmoved =>
    refine ⟨fun hp => avoids_of_kept hshape (avoids_sum.mp hp _ List.mem_cons_self), fun he => ?_⟩
    have ht := avoids_sum.mp (he.of_shape (b := ⟨.pos, .sum [t], none⟩) hshape) t List.mem_cons_self
    exact avoids_sum.mpr (List.forall_mem_singleton.mpr fun a ha => ht a (mem_factors_of_kept ha))
  | @terms ts hshape hmoved =>
    refine ⟨fun hp => avoids_of_varying hshape (avoids_sum.mp hp), fun he => ?_⟩
    have hts := avoids_sum.mp (he.of_shape (b := ⟨.pos, .sum ts, none⟩) hshape)
    exact avoids_sum.mpr fun t ht => hts t (List.mem_of_mem_filter ht)
  | minus => exact ⟨fun hp => hp.of_shape rfl, fun he => he.of_shape rfl⟩

/-- The other side is a part of what a step makes of it. -/
theorem avoids_of_apply {s : Sign} (h : (step.apply s b).Avoids name) : b.Avoids name := by
  suffices hother : (⟨b.sign * s, b.shape, none⟩ : Expr).Avoids name from hother.of_shape rfl
  cases step with
  | undo inverse source tabulated => exact (Expr.avoids_iff.mp h).2 _ List.mem_cons_self
  | multiply moved kept => exact avoids_sum.mp h _ List.mem_cons_self _ (by simp [Ratio.factors])
  | add moved kept => exact Ratio.avoids_of.mp (avoids_sum.mp h _ List.mem_cons_self)
  | negate => exact h

/-- **A step leaves the variables of the other side.** -/
theorem Peels.avoids_apply_iff (h : Peels template e step p) (s : Sign) (name : String) :
    (step.apply s b).Avoids name ↔ b.Avoids name :=
  ⟨avoids_of_apply, fun hb => h.avoids_apply hb s⟩

end Expr

/-! ## One step -/

namespace Equation

variable {q : Equation} {template : String} {target : Option String} {done : Isolated} {fault : Fault}

/-- An isolation step fails, or finds no side to work on, or no step to take. -/
def IsIdle (template : String) (target : Option String) (q : Equation) : Prop :=
  (∃ fault, q.applyInverse template target = .error fault) ∨ q.locate target = .ok none ∨
    ∃ i, q.locate target = .ok (some i) ∧ (q.sides.getD i default).inversion template = .ok none

/-- An idle step that does not fail leaves the equation. -/
theorem IsIdle.eq_self (h : IsIdle template target q) (hdone : q.applyInverse template target = .ok done) :
    done.equation = q := by
  obtain ⟨-, hsame | ⟨i, found, hisolation, -⟩⟩ := applyInverse_eq_ok hdone
  · exact hsame.1
  · obtain ⟨place, hplace, hstep⟩ := bind_eq_ok.mp hisolation
    rcases h with ⟨fault, hfault⟩ | hnone | ⟨j, hj, hstuck⟩
    · cases hfault.symm.trans hdone
    · cases hnone.symm.trans hplace
      cases hstep
    · cases hj.symm.trans hplace
      obtain ⟨side, -, hstep⟩ := bind_eq_ok.mp hstep
      simp only at hstep
      split at hstep
      · cases hstep
      · rw [hstuck] at hstep
        cases hstep

/-- The side `a` of an equation is worked on and `b` is the other one; `p` and `o` are what becomes of them. The first
one shrinks or loses its minus, and both keep their variables. -/
structure Advances (target : Option String) (q r : Equation) (first : Bool) (a b p o : Expr) : Prop where
  before : q = sided first a b
  after : r = sided first p o
  located : q.locate target = .ok (some (if first then 0 else 1))
  shrinks : p.size < a.size ∨ a.sign = .neg ∧ p = a.abs
  keeps : ∀ name, p.Avoids name ↔ a.Avoids name
  keeps_other : ∀ name, o.Avoids name ↔ b.Avoids name

/-- A step at analysed sides that is not idle advances the equation. -/
theorem exists_advances (hq : q.analyze = q) (h : ¬IsIdle template target q) :
    ∃ done first a b p o, q.applyInverse template target = .ok done ∧ Advances target q done.equation first a b p o := by
  obtain ⟨hfault, hnone, hstuck⟩ := not_or.mp h |>.imp_right not_or.mp
  cases hdone : q.applyInverse template target with
  | error fault => exact absurd ⟨fault, hdone⟩ hfault
  | ok done =>
    rcases exists_sided target (applyInverse_eq_ok hdone).1 with ⟨a, b, rfl, ha, hb⟩ | ⟨first, a, b, rfl, hold, hfirst⟩
    · obtain ⟨haa, hbb⟩ := analyze_sided (show (sided true a b).analyze = _ from hq)
      exact absurd (by rw [locate_pair haa hbb, ha, hb]; rfl) hnone
    · obtain ⟨haa, hbb⟩ := analyze_sided hq
      have hlocate := locate_sided haa hbb hold hfirst
      have hside : (sided first a b).sides.getD (if first then 0 else 1) default = a := by cases first <;> rfl
      rw [applyInverse_sided haa hbb hold hfirst] at hdone
      split at hdone
      · cases hdone
      · rename_i hfew
        obtain ⟨name, honly⟩ := Expr.exists_hasOnly (not_lt.mp hfew)
        obtain ⟨inversion, hinversion, hdone⟩ := bind_eq_ok.mp hdone
        cases inversion with
        | none => exact absurd ⟨_, hlocate, by rw [hside, hinversion]⟩ hstuck
        | some found =>
          obtain ⟨p, hp, hpeels⟩ := Expr.peels_of_inversion haa honly hinversion
          simp only [hp, ok_bind] at hdone
          cases hdone
          exact ⟨_, first, a, b, p, found.step.apply a.sign b, rfl, rfl, rfl, hlocate, hpeels.shrinks, hpeels.avoids_iff,
            hpeels.avoids_apply_iff a.sign⟩

end Equation

/-- **An isolation step makes strict progress or changes nothing.** At analysed sides, if it fails, or finds no side or no
step, then the equation stays as it is. Otherwise it does not fail, one side has fewer nodes and terms than before or is
the same without its minus, and the variables of both sides are those from before. -/
theorem Strategy.apply_applyInverse (config : Config) (target : Option String) {q : Equation} (hq : q.analyze = q) :
    (q.IsIdle config.placeholder target → (applyInverse.apply config target q).equation = q) ∧
    (¬q.IsIdle config.placeholder target → ∃ conditions first a b p o,
      (applyInverse.apply config target q).outcome = .ok conditions ∧
      q.Advances target (applyInverse.apply config target q).equation first a b p o) := by
  constructor
  · intro hidle
    unfold apply
    cases hdone : q.applyInverse config.placeholder target with
    | error fault => rfl
    | ok done => exact hidle.eq_self hdone
  · intro hbusy
    obtain ⟨done, first, a, b, p, o, hdone, hadvances⟩ := Equation.exists_advances hq hbusy
    refine ⟨done.conditions, first, a, b, p, o, ?_⟩
    simp only [apply, hdone]
    exact ⟨trivial, hadvances⟩

/-- A call is undone. -/
theorem Strategy.apply_applyInverse_mirrored : Equation.mirrored.analyze = Equation.mirrored ∧
    ¬Equation.mirrored.IsIdle Config.default.placeholder none ∧ ∃ conditions first a b p o,
      (applyInverse.apply Config.default none Equation.mirrored).outcome = .ok conditions ∧
      Equation.mirrored.Advances none (applyInverse.apply Config.default none Equation.mirrored).equation first a b p o := by
  have hanalyzed : Equation.mirrored.analyze = Equation.mirrored := by cbv
  have hbusy : ¬Equation.mirrored.IsIdle Config.default.placeholder none := by
    have hdone : (Equation.mirrored.applyInverse Config.default.placeholder none).toOption.isSome = true := by cbv
    have hlocate : Equation.mirrored.locate none = .ok (some 0) := by cbv
    have hfound : ((Equation.mirrored.sides.getD 0 default).inversion Config.default.placeholder).map Option.isSome =
        .ok true := by cbv
    rintro (⟨fault, hfault⟩ | hnone | ⟨i, hi, hstuck⟩)
    · rw [hfault] at hdone
      cases hdone
    · cases hnone.symm.trans hlocate
    · cases hi.symm.trans hlocate
      rw [hstuck] at hfound
      cases hfound
  exact ⟨hanalyzed, hbusy, (Strategy.apply_applyInverse Config.default none hanalyzed).2 hbusy⟩

end Isolate
