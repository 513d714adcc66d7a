import Isolate.Proofs.Isolating.Unwrapping
import Isolate.Proofs.Solving.Leaves
import Mathlib

/-!
# Towers

A *tower* is built from a variable by adding, subtracting, multiplying and dividing by rational numbers, by changes of
sign and by calls with one argument (`Expr.IsTower`). What flattening makes of a tower wraps the variable
(`Expr.IsTower.wraps_flatten`), and so does the side of a tower at every node of the search, until it is the variable.

* `Equation.solve_tower`: a tower is undone completely.
-/

namespace Isolate

/-! ## Rational numbers -/

/-- All factors are numbers other than zero. -/
def Ratio.IsUnit (t : Ratio Expr) : Prop := ∀ a ∈ t.factors, a.IsNonzero

namespace Expr

/-- Flattened, the expression is a rational number: a number, or numbers over numbers other than zero. -/
def IsRational (c : Expr) : Prop := c.flatten.IsNumeral ∨ ∃ r, c.flatten.shape = .sum [r] ∧ r.IsConstant

/-- Flattened, the expression is a rational number other than zero. -/
def IsNonzeroRational (c : Expr) : Prop := c.flatten.IsNonzero ∨ ∃ r, c.flatten.shape = .sum [r] ∧ r.IsUnit

end Expr

namespace Ratio

variable {x : String} {t u : Ratio Expr} {P : Expr → Prop}

theorem IsUnit.isConstant (h : t.IsUnit) : t.IsConstant :=
  ⟨fun a ha => (h a (List.mem_append_left _ ha)).isNumeral, fun a ha => h a (List.mem_append_right _ ha)⟩

theorem IsUnit.neg (h : t.IsUnit) : t.neg.IsUnit := by
  intro a ha
  rcases mem_factors_neg ha with hone | ⟨b, hb, hab⟩
  · exact ⟨1, hone, one_ne_zero⟩
  · exact (h b hb).of_shape hab.symm

theorem IsUnit.inv (h : t.IsUnit) : t.inv.IsUnit := fun a ha => h a (List.mem_append.mpr (List.mem_append.mp ha).symm)

theorem Carries.mul_unit (h : t.Carries P) (hu : u.IsUnit) : (t.mul u).Carries P :=
  ⟨h.numerator.append_right fun a ha => hu a (List.mem_append_left _ ha),
    List.forall_mem_append.mpr ⟨h.denominator, fun a ha => hu a (List.mem_append_right _ ha)⟩⟩

theorem Carries.unit_mul (hu : u.IsUnit) (h : t.Carries P) : (u.mul t).Carries P :=
  ⟨h.numerator.append_left fun a ha => hu a (List.mem_append_left _ ha),
    List.forall_mem_append.mpr ⟨fun a ha => hu a (List.mem_append_right _ ha), h.denominator⟩⟩

theorem spliceFactors_of (a : Expr) : (of a).spliceFactors = a.asRatio := by
  simp [spliceFactors, of, prod, mul, inv]

theorem spliceFactors_mul (a b : Expr) : (⟨[a, b], []⟩ : Ratio Expr).spliceFactors = a.asRatio.mul b.asRatio := by
  simp [spliceFactors, prod, mul, inv]

theorem spliceFactors_div (a b : Expr) : (⟨[a], [b]⟩ : Ratio Expr).spliceFactors = a.asRatio.mul b.asRatio.inv := by
  simp [spliceFactors, prod, mul, inv]

end Ratio

namespace Expr

variable {x : String} {c e t : Expr} {r : Ratio Expr}

/-- What holds of a number, and of the one term of a sum with both signs, holds of the expression as a ratio. -/
theorem asRatio_of {Q : Ratio Expr → Prop} (hneg : ∀ {r}, Q r → Q r.neg)
    (h : c.IsNumeral ∧ Q (.of c) ∨ ∃ r, c.shape = .sum [r] ∧ Q r) : Q c.asRatio := by
  rcases h with ⟨hnumeral, hc⟩ | ⟨r, hshape, hr⟩
  · rwa [asRatio_of_termCount? (by rw [hnumeral.termCount?]; simp)]
  · rw [Expr.asRatio, hshape]
    simp only
    split
    · exact hneg hr
    · exact hr

theorem IsRational.asRatio (h : c.IsRational) : c.flatten.asRatio.IsConstant :=
  asRatio_of Ratio.IsConstant.neg
    (h.imp_left fun hc => ⟨hc, List.forall_mem_singleton.mpr hc, List.forall_mem_nil _⟩)

theorem IsNonzeroRational.asRatio (h : c.IsNonzeroRational) : c.flatten.asRatio.IsUnit :=
  asRatio_of Ratio.IsUnit.neg (h.imp_left fun hc => ⟨hc.isNumeral, List.forall_mem_singleton.mpr hc⟩)

/-- The sign in front does not matter to the form of a flat tree. -/
theorem shape_flatten_neg (e : Expr) : e.neg.flatten.shape = e.flatten.shape := by
  rw [flatten_eq, flatten_eq]
  unfold flattenStep
  simp only [neg]
  split
  · split <;> rfl
  · rfl

theorem IsRational.neg (h : c.IsRational) : c.neg.IsRational := by
  rwa [IsRational, IsNumeral, shape_flatten_neg]

/-! ## Towers -/

/-- The expression is built from the variable by operations with rational numbers that can be undone, by changes of sign
and by calls. Nesting without meaning does not matter. -/
inductive IsTower (x : String) : Expr → Prop
  | var : IsTower x (.var x)
  | add {t c : Expr} (ht : IsTower x t) (hc : c.IsRational) : IsTower x (t.add c)
  | sub {t c : Expr} (ht : IsTower x t) (hc : c.IsRational) : IsTower x (t.sub c)
  | subFrom {t c : Expr} (ht : IsTower x t) (hc : c.IsRational) : IsTower x (c.sub t)
  | mul {t c : Expr} (ht : IsTower x t) (hc : c.IsNonzeroRational) : IsTower x (t.mul c)
  | mulBy {t c : Expr} (ht : IsTower x t) (hc : c.IsNonzeroRational) : IsTower x (c.mul t)
  | div {t c : Expr} (ht : IsTower x t) (hc : c.IsNonzeroRational) : IsTower x (t.div c)
  | neg {t : Expr} (ht : IsTower x t) : IsTower x t.neg
  | call {t : Expr} (name : String) (ht : IsTower x t) : IsTower x (.call name [t])
  | nested {t e : Expr} (ht : IsTower x t) (hflat : e.flatten = t.flatten) : IsTower x e

theorem flatten_sum (ts : List (Ratio Expr)) :
    (sum ts).flatten = flattenStep ⟨.pos, .sum (ts.map (Ratio.map flatten)), none⟩ := flatten_eq _

theorem wraps_flatten_add {a b : Expr} (h : Lone (fun e : Expr => e.flatten.Wraps x) IsRational [a, b]) :
    (a.add b).flatten.Wraps x := by
  rw [add, flatten_sum]
  refine wraps_flattenStep_of_spliced ?_
  show Lone _ _ ([a, b].map fun e => Ratio.of e.flatten)
  refine h.map (fun e he => ?_) fun e he => ?_
  · rw [Ratio.spliceFactors_of]
    exact Ratio.carries_asRatio he
  · rw [Ratio.spliceFactors_of]
    exact he.asRatio

theorem wraps_flatten_mul {a b : Expr} (h : (a.flatten.asRatio.mul b.flatten.asRatio).Carries (Wraps x)) :
    (a.mul b).flatten.Wraps x := by
  rw [← Ratio.spliceFactors_mul] at h
  rw [mul, flatten_sum]
  exact wraps_flattenStep_of_spliced (Lone.singleton.mpr h)

theorem wraps_flatten_div {a b : Expr} (h : (a.flatten.asRatio.mul b.flatten.asRatio.inv).Carries (Wraps x)) :
    (a.div b).flatten.Wraps x := by
  rw [← Ratio.spliceFactors_div] at h
  rw [div, flatten_sum]
  exact wraps_flattenStep_of_spliced (Lone.singleton.mpr h)

/-- **What flattening makes of a tower wraps the variable.** -/
theorem IsTower.wraps_flatten (h : e.IsTower x) : e.flatten.Wraps x := by
  induction h with
  | var => exact .var rfl
  | add ht hc ih => exact wraps_flatten_add (.here ih (List.forall_mem_singleton.mpr hc))
  | sub ht hc ih => exact wraps_flatten_add (.here ih (List.forall_mem_singleton.mpr hc.neg))
  | subFrom ht hc ih =>
    exact wraps_flatten_add (.there hc (Lone.singleton.mpr (ih.of_shape (shape_flatten_neg _).symm)))
  | mul ht hc ih => exact wraps_flatten_mul ((Ratio.carries_asRatio ih).mul_unit hc.asRatio)
  | mulBy ht hc ih => exact wraps_flatten_mul ((Ratio.carries_asRatio ih).unit_mul hc.asRatio)
  | div ht hc ih => exact wraps_flatten_div ((Ratio.carries_asRatio ih).mul_unit hc.asRatio.inv)
  | neg ht ih => exact ih.of_shape (shape_flatten_neg _).symm
  | call name ht ih =>
    rw [flatten_eq]
    exact .call rfl ih
  | nested ht hflat ih => rwa [hflat]

end Expr

/-! ## The search -/

namespace Search

variable {config : Config} {x : String} {q r c : Equation} {first : Bool} {a b : Expr} {conditions : List String}

/-- The normal form of two sides, one of which wraps the variable after a round. -/
theorem Settles.wraps {task : Task} (h : Settles task (Equation.sided first a b) r)
    (hmode : task.config.mode = .bijective) (ha : a.tidy.Wraps x) (hb : b.Avoids x) :
    ∃ a' b', r = Equation.sided first a' b' ∧ a'.tidy = a' ∧ b'.tidy = b' ∧ a'.Wraps x ∧ b'.Avoids x := by
  obtain ⟨a', b', rfl, hna, hnb⟩ := h.sided hmode
  have hwraps : a'.tidy.Wraps x := hna.keeps (P := fun e => e.tidy.Wraps x) Expr.Wraps.tidy ha
  rw [hna.1] at hwraps
  exact ⟨a', b', rfl, hna.1, hnb.1, hwraps, hnb.keeps Expr.Avoids.tidy hb⟩

/-- **The search goes on until the wrapping is the variable.** -/
theorem Trace.unwraps {rest : List (List String × Equation)}
    (h : Trace ⟨[.applyInverse], config, some x⟩ .applyInverse q r rest) (hmode : config.mode = .bijective)
    (hplaceholder : config.placeholder = Config.default.placeholder) (hq : q = Equation.sided first a b)
    (ha : a.tidy.Wraps x) (hb : b.Avoids x) :
    ∃ c d, Graph.lastOf r rest = Equation.sided first c d ∧ c.bare = .var x ∧ d.Avoids x := by
  induction h generalizing a b with
  | stuck hsettles hstuck =>
    obtain ⟨a', b', rfl, hta, -, hwraps, -⟩ := (hq ▸ hsettles).wraps hmode ha hb
    rw [Equation.isApplicable_of_isVarying (Equation.mem_sided first a' b') (Expr.analyze_of_tidy hta)
      hwraps.isVarying] at hstuck
    cases hstuck
  | leaf hsettles htries hlike =>
    obtain ⟨a', b', rfl, hta, htb, hwraps, hother⟩ := (hq ▸ hsettles).wraps hmode ha hb
    obtain ⟨done, hdone, hcases⟩ := Equation.applyInverse_wraps first hta htb hwraps hother
    obtain ⟨rfl, -⟩ := htries.unique (.of_applyInverse (hplaceholder ▸ hdone))
    rcases hcases with ⟨hsame, hvar⟩ | ⟨step, p, hp, hpeels⟩
    · exact ⟨a', b', hsame, hvar, hother⟩
    · -- a step changes the weight or the sign of the side
      rw [hmode, hp] at hlike
      obtain ⟨hweight, hsign⟩ := Equation.weight_eq_of_isLike hlike
      rcases (hpeels.unwraps hwraps).2 with hlt | hne
      · omega
      · exact absurd hsign hne
  | step hsettles htries hnew hbelow ih =>
    obtain ⟨a', b', rfl, hta, htb, hwraps, hother⟩ := (hq ▸ hsettles).wraps hmode ha hb
    obtain ⟨done, hdone, hcases⟩ := Equation.applyInverse_wraps first hta htb hwraps hother
    obtain ⟨rfl, -⟩ := htries.unique (.of_applyInverse (hplaceholder ▸ hdone))
    rcases hcases with ⟨hsame, -⟩ | ⟨step, p, hp, hpeels⟩
    · rw [hsame, hmode, Equation.isLike_self] at hnew
      cases hnew
    · exact ih hp (hpeels.unwraps hwraps).1.tidy (hpeels.avoids_apply hother _)

end Search

namespace Equation

/-- **A tower is undone completely.** If the search for the variable of a tower ends with a result, there is one leaf. On
the side of the tower stands the variable, and it does not occur on the other side. -/
theorem solve_tower {x : String} {first : Bool} {tower other : Expr} {config : Config} {s : Solved}
    (htower : tower.IsTower x) (hother : other.Avoids x) (hmode : config.mode = .bijective)
    (hplaceholder : config.placeholder = Config.default.placeholder)
    (h : ((sided first tower other).solve ⟨[.applyInverse], config, some x⟩).1 = .ok s) :
    ∃ leaf c d, s.leaves = [leaf] ∧ s.graph.get leaf = .ok (sided first c d) ∧ c.bare = .var x ∧ d.Avoids x := by
  obtain ⟨r, rest, htrace, rfl⟩ := solve_trace rfl h
  obtain ⟨c, d, hlast, hc, hd⟩ := htrace.unwraps hmode hplaceholder rfl (Expr.wraps_tidy htower.wraps_flatten) hother
  exact ⟨_, c, d, rfl, hlast ▸ Graph.get_length_chain r rest, hc, hd⟩

/-- The side `-2 * f(x) / 3`. -/
def scaledCall : Expr := .sum [⟨[(Expr.number 2).neg, .call "f" [.var "x"]], [.number 3]⟩]

theorem isTower_scaledCall : scaledCall.IsTower "x" := by
  have htwo : (Expr.number 2).neg.IsNonzeroRational := .inl ⟨2, rfl, by norm_num⟩
  have hthree : (Expr.number 3).IsNonzeroRational := .inl ⟨3, rfl, by norm_num⟩
  exact .nested (.div (.mulBy (.call "f" .var) htwo) hthree) (by rfl)

theorem solve_tower_scaledCall : scaledCall.IsTower "x" ∧ (Expr.var "y").Avoids "x" ∧
    ∃ s, ((sided true scaledCall (.var "y")).solve ⟨[.applyInverse], .default, some "x"⟩).1 = .ok s ∧
      ∃ leaf c d, s.leaves = [leaf] ∧ s.graph.get leaf = .ok (sided true c d) ∧ c.bare = .var "x" ∧ d.Avoids "x" := by
  have hother : (Expr.var "y").Avoids "x" :=
    Expr.avoids_iff.mpr ⟨by simp [Expr.var, Expr.ofShape], List.forall_mem_nil _⟩
  refine ⟨isTower_scaledCall, hother, ?_⟩
  have hok : ((sided true scaledCall (.var "y")).solve ⟨[.applyInverse], .default, some "x"⟩).1.isOk = true := by cbv
  cases hs : ((sided true scaledCall (.var "y")).solve ⟨[.applyInverse], .default, some "x"⟩).1 with
  | error fault =>
    rw [hs] at hok
    cases hok
  | ok s => exact ⟨s, rfl, solve_tower isTower_scaledCall hother rfl rfl hs⟩

end Equation

end Isolate
