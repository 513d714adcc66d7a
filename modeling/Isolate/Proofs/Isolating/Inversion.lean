import Isolate.Config
import Isolate.Proofs.Isolating.Found
import Isolate.Proofs.Isolating.Variables
import Mathlib.Data.List.Basic

/-!
# Finding the step at an analysed side

At an analysed side with one variable at most, factors and terms are parted without a fault, by whether they hold the
variable (`Expr.partFactors_eq`, `Expr.partTerms_eq`). The usual placeholder names every inverse (`Template.fill_usual`).
So a step is missed for no other reason than the number of arguments of a call, and what a step leaves of the side is
known by its kind (`Expr.Peels`).

* `Expr.fault_of_inversion`: a fault in finding a step is one that the search may pass over, or comes from the template.
* `Expr.peels_of_inversion`: what is left of the side.
* `Equation.applyInverse_sided`: an isolation step at a side, whichever of the two it is.
* `Equation.isolates_applyInverse`: what an isolation step amounts to.
-/

namespace Isolate

/-- The usual placeholder is the name itself. -/
theorem Template.fill_usual (name : String) : fill Config.default.placeholder name = .ok name := by
  have happly : (Layout.apply {} name.toList) = name.toList := by simp [Layout.apply]
  have hlay : layOut name.toList [] = .ok name.toList := by
    show Except.ok (Layout.apply {} name.toList) = _
    rw [happly]
  have hfield : fillWith name (fillSpec name) 7 Config.default.placeholder.toList = .ok name.toList := by
    show (do
      let text ← layOut name.toList []
      return text ++ (← Except.ok []) : Except Fault (List Char)) = _
    rw [hlay]
    show Except.ok (name.toList ++ []) = _
    rw [List.append_nil]
  show (fillWith name (fillSpec name) 7 Config.default.placeholder.toList).map String.ofList = _
  rw [hfield]
  simp [Except.map]

theorem Template.fill_usual_ne_error (name : String) (fault : Fault) :
    fill Config.default.placeholder name ≠ .error fault := by
  rw [fill_usual]
  exact nofun

/-! ## Parting -/

namespace Expr

/-- Does a variable occur in the expression? -/
def isVarying (e : Expr) : Bool := !e.survey.vars.isEmpty

/-- Is the factor constant, and not just one? -/
def isMoved (e : Expr) : Bool := !e.isOne && !e.isVarying

variable {e a : Expr} {es : List Expr} {name template : String}

theorem isVarying_iff : e.isVarying = true ↔ ∃ name, ¬e.Avoids name := by
  simp only [isVarying, Bool.not_eq_true', List.isEmpty_eq_false_iff_exists_mem, mem_vars_survey]

theorem avoids_of_not_isVarying (h : e.isVarying = false) (name : String) : e.Avoids name := by
  by_contra hocc
  rw [isVarying_iff.mpr ⟨name, hocc⟩] at h
  cases h

theorem not_isVarying_of_number {q : Rat} (h : e.shape = .number q) : e.isVarying = false := by
  rw [Bool.eq_false_iff, ne_eq, isVarying_iff]
  rintro ⟨name, hocc⟩
  exact hocc (avoids_of_number h)

theorem variableCount_of_analyze (h : e.analyze = e) : e.variableCount = .ok e.survey.vars.length := by
  rw [variableCount, noted_of_analyze h]
  rfl

/-- **Factors are parted by whether they hold the variable**, ones left out. -/
theorem partFactors_eq (ha : ∀ e ∈ es, e.analyze = e) (hfew : ∀ e ∈ es, e.survey.vars.length ≤ 1) :
    partFactors es = .ok (es.filter isMoved, es.filter isVarying) := by
  induction es with
  | nil => rfl
  | cons e es ih =>
    obtain ⟨ha, has⟩ := List.forall_mem_cons.mp ha
    obtain ⟨hfew, hfews⟩ := List.forall_mem_cons.mp hfew
    rw [partFactors, ih has hfews, List.filter_cons, List.filter_cons, variableCount_of_analyze ha]
    by_cases hone : e.isOne = true
    · simp [isMoved, hone, not_isVarying_of_number (shape_of_isOne hone)]
    · rw [if_neg hone]
      show (if 1 < e.survey.vars.length then _ else _ : Except Fault (List Expr × List Expr)) = _
      rw [if_neg (not_lt.mpr hfew)]
      cases hv : e.survey.vars with
      | nil => simp [isMoved, isVarying, hone, hv, Bind.bind, Except.bind, pure, Except.pure]
      | cons n ns => simp [isMoved, isVarying, hv, Bind.bind, Except.bind, pure, Except.pure]

theorem anyVarying_eq (ha : ∀ e ∈ es, e.analyze = e) : anyVarying es = .ok (es.any isVarying) := by
  induction es with
  | nil => rfl
  | cons e es ih =>
    obtain ⟨ha, has⟩ := List.forall_mem_cons.mp ha
    rw [anyVarying, ih has, variableCount_of_analyze ha, List.any_cons]
    cases hv : e.survey.vars <;> simp [isVarying, hv, Bind.bind, Except.bind, pure, Except.pure]

end Expr

/-- Does a variable occur in the ratio? -/
def Ratio.isVarying (t : Ratio Expr) : Bool := t.factors.any Expr.isVarying

theorem Ratio.avoids_of_not_isVarying {t : Ratio Expr} (h : t.isVarying = false) (name : String) : t.Avoids name :=
  fun a ha => Expr.avoids_of_not_isVarying (Bool.eq_false_iff.mpr (List.any_eq_false.mp h a ha)) name

namespace Expr

variable {e p : Expr} {ts : List (Ratio Expr)} {t : Ratio Expr} {template : String} {found : Inversion} {fault : Fault}

/-- **Terms are parted by whether they hold the variable.** -/
theorem partTerms_eq (ha : ∀ t ∈ ts, ∀ e ∈ t.factors, e.analyze = e) :
    partTerms ts = .ok ((ts.filter fun t => !t.isVarying).map Ratio.neg, ts.filter Ratio.isVarying) := by
  induction ts with
  | nil => rfl
  | cons t ts ih =>
    obtain ⟨ha, has⟩ := List.forall_mem_cons.mp ha
    rw [partTerms, ih has, anyVarying_eq ha, ← Ratio.isVarying, List.filter_cons, List.filter_cons]
    cases ht : t.isVarying <;> simp [Bind.bind, Except.bind, pure, Except.pure]

/-- A tree with one variable at most has factors with one at most. -/
theorem exists_hasOnly (h : e.survey.vars.length ≤ 1) : ∃ name, e.HasOnly name := by
  cases hv : e.survey.vars with
  | nil => exact ⟨"", fun n _ => by_contra fun hocc => by simpa [hv] using mem_vars_survey.mpr hocc⟩
  | cons name ns => exact ⟨name, hasOnly_of_length h (by simp [hv])⟩

theorem HasOnly.length_le {name : String} (h : e.HasOnly name) : e.survey.vars.length ≤ 1 := by
  rcases h.vars with hv | hv <;> simp [hv]

end Expr

/-! ## What is found -/

namespace Ratio

/-- The factors with variables. -/
def kept (t : Ratio Expr) : Ratio Expr := ⟨t.numerator.filter Expr.isVarying, t.denominator.filter Expr.isVarying⟩

/-- The constant factors, the other way up. -/
def moved (t : Ratio Expr) : Ratio Expr := ⟨t.denominator.filter Expr.isMoved, t.numerator.filter Expr.isMoved⟩

end Ratio

/-- The opposites of the constant ones among the terms. -/
def movedTerms (ts : List (Ratio Expr)) : List (Ratio Expr) := (ts.filter fun t => !t.isVarying).map Ratio.neg

namespace Expr

variable {e p : Expr} {ts : List (Ratio Expr)} {t : Ratio Expr} {name template : String} {found : Inversion}
  {fault : Fault}

theorem mem_children_of_mem_factors {a : Expr} (hshape : e.shape = .sum ts) (ht : t ∈ ts) (ha : a ∈ t.factors) :
    a ∈ e.children := by
  rw [children, hshape]
  exact List.mem_flatMap.mpr ⟨t, ht, ha⟩

/-- The factors of an analysed sum with one variable at most are analysed, and have that variable at most. -/
theorem factors_of_analyze (ha : e.analyze = e) (honly : e.HasOnly name) (hshape : e.shape = .sum ts) (ht : t ∈ ts) :
    (∀ a ∈ t.factors, a.analyze = a) ∧ ∀ a ∈ t.factors, a.HasOnly name :=
  ⟨fun _ hmem => analyze_of_mem_children ha (mem_children_of_mem_factors hshape ht hmem),
    fun _ hmem => honly.child (mem_children_of_mem_factors hshape ht hmem)⟩

theorem invertRatio_eq (ha : ∀ e ∈ t.factors, e.analyze = e) (honly : ∀ e ∈ t.factors, e.HasOnly name) :
    invertRatio t = .ok (if t.moved.factors.isEmpty then none else
      some ⟨.multiply t.moved t.kept, nonzero t.moved.numerator ++ nonzero t.moved.denominator⟩) := by
  obtain ⟨han, had⟩ := List.forall_mem_append.mp ha
  obtain ⟨hon, hod⟩ := List.forall_mem_append.mp honly
  rw [invertRatio, partFactors_eq han fun e he => (hon e he).length_le,
    partFactors_eq had fun e he => (hod e he).length_le]
  show (if (t.numerator.filter isMoved).isEmpty && (t.denominator.filter isMoved).isEmpty then _ else _ :
    Except Fault (Option Inversion)) = _
  have hempty : t.moved.factors.isEmpty =
      ((t.numerator.filter isMoved).isEmpty && (t.denominator.filter isMoved).isEmpty) := by
    rw [Bool.eq_iff_iff]
    simp [Ratio.moved, Ratio.factors, and_comm]
  rw [hempty]
  split <;> rfl

theorem invertSum_eq (ha : ∀ t ∈ ts, ∀ e ∈ t.factors, e.analyze = e) :
    invertSum ts = .ok (if (movedTerms ts).isEmpty then none else
      some ⟨.add (movedTerms ts) (ts.filter Ratio.isVarying), []⟩) := by
  rw [invertSum, partTerms_eq ha]
  show Except.ok (if (movedTerms ts).isEmpty then _ else _) = _
  split <;> rfl

/-- What a step leaves of the node that it undoes. -/
inductive Peels (template : String) (e : Expr) : Step → Expr → Prop
  | call {name inverse : String} {tabulated : Bool} {a : Expr} (hshape : e.shape = .call name [a]) :
      Peels template e (.undo inverse name tabulated) a
  | ratio {t : Ratio Expr} (hshape : e.shape = .sum [t]) (hmoved : t.moved.factors ≠ []) :
      Peels template e (.multiply t.moved t.kept) (.sum [t.kept])
  | terms {ts : List (Ratio Expr)} (hshape : e.shape = .sum ts) (hmoved : movedTerms ts ≠ []) :
      Peels template e (.add (movedTerms ts) (ts.filter Ratio.isVarying)) (.sum (ts.filter Ratio.isVarying))
  | minus (hsign : e.sign = .neg) (hstuck : invertShape template e.shape = .ok none) : Peels template e .negate e.abs

/-- The outermost operation of an analysed node, its sign apart. -/
theorem inversion_eq (ha : e.analyze = e) : e.inversion template = do
    match ← invertShape template e.shape with
    | some found => return some found
    | none => return if e.sign = .neg then some ⟨.negate, []⟩ else none := by
  rw [inversion, noted_of_analyze ha]
  rfl

theorem inversion_of_found (ha : e.analyze = e) (h : invertShape template e.shape = .ok (some found)) :
    e.inversion template = .ok (some found) := by
  rw [inversion_eq ha, h]
  rfl

theorem inversion_of_stuck (ha : e.analyze = e) (h : invertShape template e.shape = .ok none) :
    e.inversion template = .ok (if e.sign = .neg then some ⟨.negate, []⟩ else none) := by
  rw [inversion_eq ha, h]
  rfl

theorem peels_of_invertCall {as : List Expr} (hshape : e.shape = .call name as)
    (h : invertCall template name as = .ok found) : ∃ p, found.step.peel e = .ok p ∧ Peels template e found.step p := by
  unfold invertCall at h
  split at h
  · cases h
  · rename_i hlen
    obtain ⟨a, rfl⟩ := List.length_eq_one_iff.mp (not_not.mp hlen)
    have hpeel : ∀ inverse tabulated, (Step.undo inverse name tabulated).peel e = .ok a := by
      intro inverse tabulated
      simp only [Step.peel, hshape]
    split at h
    · cases h
      exact ⟨a, hpeel _ _, .call hshape⟩
    · obtain ⟨inverse, -, rfl⟩ := map_eq_ok.mp h
      exact ⟨a, hpeel _ _, .call hshape⟩

/-- What is left of a node whose outermost operation is undone, its sign apart. -/
theorem peels_of_invertShape (ha : e.analyze = e) (honly : e.HasOnly name)
    (h : invertShape template e.shape = .ok (some found)) :
    ∃ p, found.step.peel e = .ok p ∧ Peels template e found.step p := by
  cases hb : e.shape with
  | call name as =>
    rw [hb] at h
    obtain ⟨inversion, hcall, hsome⟩ := map_eq_ok.mp h
    cases hsome
    exact peels_of_invertCall hb hcall
  | power b c =>
    rw [hb] at h
    obtain ⟨-, -, hc⟩ := bind_eq_ok.mp h
    obtain ⟨-, -, hc⟩ := bind_eq_ok.mp hc
    cases hc
  | sum ts =>
    have hts := fun t ht => factors_of_analyze (t := t) ha honly hb ht
    rw [hb] at h
    match ts with
    | [] => cases h
    | [t] =>
      obtain ⟨hat, hot⟩ := hts t List.mem_cons_self
      rw [invertShape, invertRatio_eq hat hot] at h
      split at h
      · cases h
      · rename_i hmoved
        cases h
        exact ⟨_, rfl, .ratio hb (mt List.isEmpty_iff.mpr hmoved)⟩
    | t :: u :: ts =>
      rw [invertShape, invertSum_eq fun v hv => (hts v hv).1] at h
      split at h
      · cases h
      · rename_i hmoved
        cases h
        exact ⟨_, rfl, .terms hb (mt List.isEmpty_iff.mpr hmoved)⟩
  | _ =>
    rw [hb] at h
    cases h

/-- **What is left of a side for which a step is found.** -/
theorem peels_of_inversion (ha : e.analyze = e) (honly : e.HasOnly name)
    (h : e.inversion template = .ok (some found)) : ∃ p, found.step.peel e = .ok p ∧ Peels template e found.step p := by
  rw [inversion_eq ha] at h
  obtain ⟨shaped, hshaped, h⟩ := bind_eq_ok.mp h
  cases shaped with
  | none =>
    simp only at h
    split at h
    · rename_i hsign
      cases h
      exact ⟨e.abs, rfl, .minus hsign hshaped⟩
    · cases h
  | some found' =>
    cases h
    exact peels_of_invertShape ha honly hshaped

/-- A call is not undone if it has not one argument, or if the template makes no name for the inverse. -/
theorem fault_of_invertCall {as : List Expr} (h : invertCall template name as = .error fault) :
    fault.isSkippable = true ∨ ∃ name, Template.fill template name = .error fault := by
  unfold invertCall at h
  split at h
  · cases h
    exact .inl rfl
  · split at h
    · cases h
    · exact .inr ⟨name, map_eq_error.mp h⟩

/-- **A fault in finding a step** is one that the search may pass over, or comes from the template. -/
theorem fault_of_inversion (ha : e.analyze = e) (honly : e.HasOnly name) (h : e.inversion template = .error fault) :
    fault.isSkippable = true ∨ ∃ name, Template.fill template name = .error fault := by
  rw [inversion_eq ha] at h
  cases hshaped : invertShape template e.shape with
  | ok shaped =>
    rw [hshaped] at h
    cases shaped <;> cases h
  | error fault' =>
    rw [hshaped] at h
    cases h
    cases hb : e.shape with
    | call name as =>
      rw [hb] at hshaped
      exact fault_of_invertCall (map_eq_error.mp hshaped)
    | power b c =>
      have hb' : b ∈ e.children := by simp [children, hb, Shape.children]
      have hc' : c ∈ e.children := by simp [children, hb, Shape.children]
      rw [hb, invertShape, noted_of_analyze (analyze_of_mem_children ha hb'),
        noted_of_analyze (analyze_of_mem_children ha hc')] at hshaped
      cases hshaped
    | sum ts =>
      have hts := fun t ht => factors_of_analyze (t := t) ha honly hb ht
      rw [hb] at hshaped
      rcases ts with _ | ⟨t, _ | ⟨u, ts⟩⟩
      · cases hshaped
      · obtain ⟨hat, hot⟩ := hts t List.mem_cons_self
        rw [invertShape, invertRatio_eq hat hot] at hshaped
        cases hshaped
      · rw [invertShape, invertSum_eq fun v hv => (hts v hv).1] at hshaped
        cases hshaped
    | _ =>
      rw [hb] at hshaped
      cases hshaped

/-- Does the expression hold the target, or any variable if there is no target? -/
def holds (target : Option String) (e : Expr) : Bool :=
  match target with
  | none => e.isVarying
  | some name => e.survey.vars.contains name

/-- An expression does not hold the target if it avoids the target, or all variables if there is no target. -/
theorem holds_eq_false_iff {target : Option String} {e : Expr} :
    e.holds target = false ↔ ∀ name, (∀ n, target = some n → n = name) → e.Avoids name := by
  cases target with
  | none =>
    refine ⟨fun h name _ => avoids_of_not_isVarying h name, fun h => ?_⟩
    rw [holds, Bool.eq_false_iff, ne_eq, isVarying_iff]
    rintro ⟨name, hocc⟩
    exact hocc (h name fun n hn => by cases hn)
  | some m =>
    have hm : e.holds (some m) = false ↔ e.Avoids m := by
      rw [holds, Bool.eq_false_iff, ne_eq, List.contains_iff_mem, mem_vars_survey, not_not]
    rw [hm]
    exact ⟨fun h name hname => hname m rfl ▸ h, fun h => h m fun n hn => (Option.some.inj hn).symm⟩

/-- An expression that holds the target has a variable. -/
theorem isVarying_of_holds {target : Option String} {e : Expr} (h : e.holds target = true) : e.isVarying = true := by
  by_contra hno
  have hconstant := avoids_of_not_isVarying (Bool.eq_false_iff.mpr hno)
  rw [holds_eq_false_iff.mpr fun name _ => hconstant name] at h
  cases h

end Expr

/-! ## Two sides -/

namespace Equation

/-- A side with the one that faces it, as the first of the two or as the second. -/
def sided (first : Bool) (a b : Expr) : Equation := ⟨if first then [a, b] else [b, a]⟩

variable {q : Equation} {a b : Expr} {template : String} {target : Option String} {first : Bool}

theorem locateFrom_cons (h : a.analyze = a) (i : Nat) (es : List Expr) :
    locateFrom target i (a :: es) = if a.holds target then .ok (some i) else locateFrom target (i + 1) es := by
  rw [locateFrom, Expr.noted_of_analyze h]
  cases target <;> rfl

theorem locate_pair (ha : a.analyze = a) (hb : b.analyze = b) : (⟨[a, b]⟩ : Equation).locate target =
    .ok (if a.holds target then some 0 else if b.holds target then some 1 else none) := by
  rw [locate, locateFrom_cons ha, locateFrom_cons hb]
  split
  · rfl
  · split <;> rfl

/-- Where no side holds the target, there is nothing to be done. -/
theorem applyInverse_of_not_holds (ha : a.analyze = a) (hb : b.analyze = b) (hnone : a.holds target = false)
    (hnone' : b.holds target = false) :
    (⟨[a, b]⟩ : Equation).applyInverse template target = .ok ⟨⟨[a, b]⟩, [], []⟩ := by
  have hlocate : (⟨[a, b]⟩ : Equation).locate target = .ok none := by
    rw [locate_pair ha hb, hnone, hnone']
    rfl
  have hlen : (⟨[a, b]⟩ : Equation).sides.length = 2 := rfl
  rw [applyInverse, if_neg (not_not.mpr hlen), hlocate]
  rfl

/-- The side that holds the target is worked on, the first one if both do. -/
theorem locate_sided (ha : a.analyze = a) (hb : b.analyze = b) (hold : a.holds target = true)
    (hfirst : first = false → b.holds target = false) :
    (sided first a b).locate target = .ok (some (if first then 0 else 1)) := by
  cases first with
  | true => exact (locate_pair ha hb).trans (by rw [if_pos hold]; rfl)
  | false => exact (locate_pair hb ha).trans (by simp [hfirst rfl, hold])

/-- **An isolation step at the side that is worked on**, whichever of the two it is. -/
theorem applyInverse_sided (ha : a.analyze = a) (hb : b.analyze = b) (hold : a.holds target = true)
    (hfirst : first = false → b.holds target = false) : (sided first a b).applyInverse template target =
      if 1 < a.survey.vars.length then .error (.crowdedSide a.text a.survey.vars) else do
        match ← a.inversion template with
        | none => return ⟨sided first a b, [], [⟨.debug, .inversion, s!"no inverse applies to {a.text}"⟩]⟩
        | some found => return ⟨sided first (← found.step.peel a) (found.step.apply a.sign b), found.conditions,
            found.step.warnings⟩ := by
  have hlen : (sided first a b).sides.length = 2 := by cases first <;> rfl
  have hside : (sided first a b).sides.getD (if first then 0 else 1) default = a := by cases first <;> rfl
  rw [applyInverse, if_neg (not_not.mpr hlen), locate_sided ha hb hold hfirst]
  show (do
    let names := (← ((sided first a b).sides.getD (if first then 0 else 1) default).noted).vars
    _ : Except Fault Isolated) = _
  rw [hside, Expr.noted_of_analyze ha]
  show (if 1 < a.survey.vars.length then _ else _ : Except Fault Isolated) = _
  split
  · rfl
  · cases a.inversion template with
    | error fault => rfl
    | ok inversion =>
      cases inversion with
      | none => rfl
      | some found =>
        cases hpeel : found.step.peel a with
        | error fault => cases first <;> simp [sided, transform, Step.takeAt, hpeel, Bind.bind, Except.bind, Except.map]
        | ok p =>
          cases first <;>
            simp [sided, transform, Step.takeAt, hpeel, Bind.bind, Except.bind, Except.map, pure, Except.pure]

/-- The two sides, the one that is worked on first; or none is. -/
theorem exists_sided (target : Option String) (hlen : q.sides.length = 2) :
    (∃ a b, q = ⟨[a, b]⟩ ∧ a.holds target = false ∧ b.holds target = false) ∨
    ∃ first a b, q = sided first a b ∧ a.holds target = true ∧ (first = false → b.holds target = false) := by
  obtain ⟨sides⟩ := q
  obtain ⟨a, b, rfl⟩ := List.length_eq_two.mp hlen
  cases ha : a.holds target with
  | true => exact .inr ⟨true, a, b, rfl, ha, nofun⟩
  | false =>
    cases hb : b.holds target with
    | true => exact .inr ⟨false, b, a, rfl, hb, fun _ => ha⟩
    | false => exact .inl ⟨a, b, rfl, ha, hb⟩

theorem forall_sided {P : Expr → Prop} {first : Bool} {a b : Expr} :
    (∀ e ∈ (sided first a b).sides, P e) ↔ P a ∧ P b := by
  cases first <;> simp [sided, and_comm]

theorem analyze_sided (h : (sided first a b).analyze = sided first a b) : a.analyze = a ∧ b.analyze = b := by
  have hsides := List.map_inj_left.mp ((congrArg sides h).trans (List.map_id _).symm)
  exact forall_sided.mp hsides

/-- What an isolation step at two analysed sides amounts to. -/
inductive Isolates (template : String) (target : Option String) (q : Equation) : Except Fault Isolated → Prop
  | refused {fault : Fault} (hfault : fault.isSkippable = true ∨ ∃ name, Template.fill template name = .error fault) :
      Isolates template target q (.error fault)
  | same {done : Isolated} (hsame : done.equation = q) (hconditions : done.conditions = []) :
      Isolates template target q (.ok done)
  | step {done : Isolated} {first : Bool} {a b p : Expr} {name : String} {found : Inversion}
      (hq : q = sided first a b) (hold : a.holds target = true) (hfirst : first = false → b.holds target = false)
      (honly : a.HasOnly name) (hfound : a.inversion template = .ok (some found))
      (hpeels : a.Peels template found.step p) (hdone : done.equation = sided first p (found.step.apply a.sign b)) :
      Isolates template target q (.ok done)

/-- **An isolation step at analysed sides** is refused for a shape that may be passed over or for the template, changes
nothing, or peels a side. -/
theorem isolates_applyInverse (template : String) (target : Option String) (hlen : q.sides.length = 2)
    (hq : q.analyze = q) : Isolates template target q (q.applyInverse template target) := by
  rcases exists_sided target hlen with ⟨a, b, rfl, ha, hb⟩ | ⟨first, a, b, rfl, hold, hfirst⟩
  · obtain ⟨haa, hbb⟩ := analyze_sided (show (sided true a b).analyze = _ from hq)
    rw [applyInverse_of_not_holds haa hbb ha hb]
    exact .same rfl rfl
  · obtain ⟨haa, hbb⟩ := analyze_sided hq
    rw [applyInverse_sided haa hbb hold hfirst]
    split
    · exact .refused (.inl rfl)
    · rename_i hfew
      obtain ⟨name, honly⟩ := Expr.exists_hasOnly (not_lt.mp hfew)
      cases hinversion : a.inversion template with
      | error fault => exact .refused (Expr.fault_of_inversion haa honly hinversion)
      | ok inversion =>
        cases inversion with
        | none => exact .same rfl rfl
        | some found =>
          obtain ⟨p, hp, hpeels⟩ := Expr.peels_of_inversion haa honly hinversion
          show Isolates _ target _ (do
            return ⟨sided first (← found.step.peel a) (found.step.apply a.sign b), found.conditions,
              found.step.warnings⟩)
          rw [hp]
          exact .step rfl hold hfirst honly hinversion hpeels rfl

end Equation

end Isolate
