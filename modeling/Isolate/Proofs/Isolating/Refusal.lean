import Isolate.Proofs.Isolating.Inversion

/-!
# What an isolation step is refused for

An operation is refused if something that it relies on is not given, or if the shape of an expression does not allow it
(`Fault.isRefusal`). A template can be of no use, but nothing is refused for it (`Template.neverRefuses_fill`). At
analysed sides, an isolation step is refused for the number of the sides, or for a shape that the search may pass over.

* `Equation.applyInverse_refusal`: the refusals that are left at analysed sides.
-/

namespace Isolate

/-- Something that the operation relies on is not given, or the shape of an expression does not allow it. -/
def Fault.isRefusal : Fault → Bool
  | kindNotAnalyzed | reachTooShort | notAnalyzed | sideCount _ | crowdedSide .. | argumentCount .. | crowdedFactor .. =>
    true
  | _ => false

/-! ## Results without refusals -/

/-- The fault, if there is one, is no refusal. -/
def NeverRefuses (x : Except Fault α) : Prop := ∀ fault, x = .error fault → fault.isRefusal = false

variable {x : Except Fault α} {fault : Fault}

theorem neverRefuses_ok (a : α) : NeverRefuses (.ok a) := nofun

theorem neverRefuses_error (h : fault.isRefusal = false) : NeverRefuses (.error fault : Except Fault α) := by
  rintro _ ⟨⟩
  exact h

theorem NeverRefuses.bind {f : α → Except Fault β} (hx : NeverRefuses x) (hf : ∀ a, NeverRefuses (f a)) :
    NeverRefuses (x >>= f) := by
  cases x with
  | ok a => exact hf a
  | error fault =>
    rintro _ ⟨⟩
    exact hx fault rfl

theorem NeverRefuses.map {f : α → β} (hx : NeverRefuses x) : NeverRefuses (x.map f) :=
  fun fault h => hx fault (map_eq_error.mp h)

/-! ## Templates -/

namespace Template

theorem neverRefuses_readKey (hidden : Bool) (cs : List Char) : NeverRefuses (readKey hidden cs) := by
  induction cs generalizing hidden with
  | nil => exact neverRefuses_error rfl
  | cons c cs ih =>
    unfold readKey
    split
    · exact (ih _).map
    · split
      · exact neverRefuses_error rfl
      · split
        · exact neverRefuses_ok _
        · exact (ih _).map

theorem neverRefuses_readSpec (depth : Nat) (cs : List Char) : NeverRefuses (readSpec depth cs) := by
  induction cs generalizing depth with
  | nil => exact neverRefuses_error rfl
  | cons c cs ih =>
    unfold readSpec
    split
    · exact neverRefuses_ok _
    · exact (ih _).map

theorem neverRefuses_readField (cs : List Char) : NeverRefuses (readField cs) := by
  refine (neverRefuses_readKey false cs).bind fun key => ?_
  split
  · exact neverRefuses_error rfl
  · exact neverRefuses_error rfl
  · exact neverRefuses_ok _
  · exact (neverRefuses_readSpec 0 _).bind fun _ => neverRefuses_ok _
  · exact neverRefuses_error rfl
  · exact (neverRefuses_readSpec 0 _).bind fun _ => neverRefuses_ok _
  · exact neverRefuses_ok _

theorem neverRefuses_charAt (cs index : List Char) : NeverRefuses (charAt cs index) := by
  unfold charAt
  split
  · exact neverRefuses_error rfl
  · split
    · split
      · exact neverRefuses_ok _
      · exact neverRefuses_error rfl
    · exact neverRefuses_error rfl

theorem neverRefuses_lookUp (cs : List Char) (read? : Option (List Char)) (key : List Char) :
    NeverRefuses (lookUp cs read? key) := by
  -- Along the key; the text that the indices have led to and the index that is still open change on the way.
  induction key generalizing cs read? with
  | nil =>
    cases read? with
    | none => exact neverRefuses_ok _
    | some read => exact neverRefuses_error rfl
  | cons c key ih =>
    unfold lookUp
    split
    · exact neverRefuses_ok _
    · rename_i h
      cases h
      exact ih _ _
    · exact neverRefuses_error rfl
    · split
      · exact neverRefuses_error rfl
      · exact neverRefuses_error rfl
    · exact neverRefuses_error rfl
    · exact neverRefuses_error rfl
    · rename_i h
      cases h
      split
      · exact (neverRefuses_charAt cs _).bind fun _ => ih _ _
      · exact ih _ _

theorem neverRefuses_value (name : String) (key : List Char) : NeverRefuses (value name key) := by
  unfold value
  simp only
  split
  · exact neverRefuses_error rfl
  · split
    · exact neverRefuses_error rfl
    · split
      · exact neverRefuses_error rfl
      · exact neverRefuses_lookUp _ _ _

theorem neverRefuses_convert (cs : List Char) (conversion : Option Char) : NeverRefuses (convert cs conversion) := by
  unfold convert
  split
  · exact neverRefuses_ok _
  · exact neverRefuses_ok _
  · exact neverRefuses_ok _
  · exact neverRefuses_ok _
  · exact neverRefuses_error rfl

theorem neverRefuses_layOut (cs spec : List Char) : NeverRefuses (layOut cs spec) := by
  unfold layOut
  split
  · exact neverRefuses_ok _
  · exact neverRefuses_error rfl

theorem neverRefuses_fillWith {name : String} {expand : List Char → Except Fault (List Char)}
    (hexpand : ∀ spec, NeverRefuses (expand spec)) (fuel : Nat) (cs : List Char) :
    NeverRefuses (fillWith name expand fuel cs) := by
  induction fuel generalizing cs with
  | zero => exact neverRefuses_ok _
  | succ fuel ih =>
    unfold fillWith
    split
    · exact neverRefuses_ok _
    · exact (ih _).map
    · exact (ih _).map
    · exact neverRefuses_error rfl
    · exact neverRefuses_error rfl
    · refine (neverRefuses_readField _).bind fun ⟨field, rest⟩ => ?_
      refine (neverRefuses_value name field.key).bind fun v => (neverRefuses_convert v _).bind fun text => ?_
      refine (hexpand field.spec).bind fun spec => (neverRefuses_layOut text spec).bind fun text => ?_
      exact (ih rest).bind fun _ => neverRefuses_ok _
    · exact (ih _).map

theorem neverRefuses_fillSpec (name : String) (spec : List Char) : NeverRefuses (fillSpec name spec) := by
  refine neverRefuses_fillWith (fun inner => ?_) _ _
  split
  · exact neverRefuses_error rfl
  · exact neverRefuses_ok _

/-- **Nothing is refused for a template.** -/
theorem neverRefuses_fill (template name : String) : NeverRefuses (fill template name) :=
  (neverRefuses_fillWith (neverRefuses_fillSpec name) _ _).map

end Template

/-! ## Isolation steps -/

namespace Equation

variable {q : Equation} {template : String} {target : Option String}

/-- **What an isolation step at analysed sides is refused for**: a shape that the search may pass over, or the number of
the sides. -/
theorem applyInverse_refusal (hq : q.analyze = q) (h : q.applyInverse template target = .error fault)
    (hrefusal : fault.isRefusal = true) :
    fault.isSkippable = true ∨ q.sides.length ≠ 2 ∧ fault = .sideCount q.sides.length := by
  by_cases hlen : q.sides.length = 2
  · have hisolates := isolates_applyInverse template target hlen hq
    rw [h] at hisolates
    cases hisolates with
    | refused hfault =>
      refine .inl (hfault.resolve_right ?_)
      rintro ⟨name, hfill⟩
      cases hrefusal.symm.trans (Template.neverRefuses_fill template name fault hfill)
  · rw [applyInverse, if_pos hlen] at h
    cases h
    exact .inr ⟨hlen, rfl⟩

end Equation

end Isolate
