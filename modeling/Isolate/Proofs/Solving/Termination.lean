import Isolate.Proofs.Solving.Leaves

/-!
# The search comes to an end

From node to node there is less to be done (`Equation.burden_lt`), until a strategy changes nothing or is refused. So
there are numbers of rounds and levels with which the search from an equation runs neither out of rounds nor out of
levels (`Search.terminates`), whatever the rest of the configuration.

* `Equation.solve_terminates`: the search from an equation of two sides ends by itself.
-/

namespace Isolate

/-- Items are matched one by one, and a function without a known inverse gives its name to the inverse. -/
structure Config.IsUsual (config : Config) : Prop where
  mode : config.mode = .bijective
  placeholder : config.placeholder = Config.default.placeholder

namespace Search

variable {config : Config} {target : Option String} {q r c : Equation} {rounds : Nat}

/-! ## One node -/

theorem Settles.eq (h : Settles ⟨[.applyInverse], config, target⟩ q c) (hmode : config.mode = .bijective)
    (hn : q.normalize Equation.usualPasses .bijective config.maxRounds = (r, .ok rounds)) : c = r.analyze := by
  obtain ⟨u, rounds', hu, rfl⟩ := h
  simp only at hu
  rw [hmode, hn] at hu
  rw [(Prod.mk.inj hu).1]

/-- What an isolation step makes of an equation, unless it changes nothing. -/
theorem Tries.eq_of_new {conditions : List String}
    (h : Tries ⟨[.applyInverse], config, target⟩ .applyInverse r c conditions) (hmode : config.mode = .bijective)
    (hnew : Equation.isLike config.mode c r = false) :
    ∃ done, r.applyInverse config.placeholder target = .ok done ∧ done.equation = c ∧ c ≠ r := by
  have hne : c ≠ r := by
    rintro rfl
    rw [hmode, Equation.isLike_self] at hnew
    cases hnew
  rcases h.cases_applyInverse with ⟨done, hdone, hc, -⟩ | ⟨-, hsame, -⟩
  · exact ⟨done, hdone, hc, hne⟩
  · exact absurd hsame hne

/-! ## All nodes -/

/-- With the numbers of rounds and levels, or more, the search from the equation fails for no other reason than a side
that cannot be undone, and only if such a side is not to be passed over. -/
def EndsWithin (target : Option String) (rounds levels : Nat) (q : Equation) : Prop :=
  ∀ config : Config, config.IsUsual → rounds ≤ config.maxRounds → ∀ n, levels ≤ n →
    ∀ (s : SearchState) (i : Int) (fault : Fault), AtEnd s.graph i q →
      Fails (expand ⟨[.applyInverse], config, target⟩ n i) s fault →
        config.onUnsupported = .raise ∧ fault.isSkippable = true

/-- If the search from what a step makes of the normal form ends, so does the search from the equation. -/
theorem endsWithin_of_below {rounds₀ rounds₁ levels : Nat} (hlen : r.sides.length = 2)
    (hn : ∀ limit : Int, rounds₀ ≤ limit → q.normalize Equation.usualPasses .bijective limit = (r, .ok rounds))
    (hbelow : ∀ done, r.applyInverse Config.default.placeholder target = .ok done → done.equation ≠ r →
      EndsWithin target rounds₁ levels done.equation) : EndsWithin target (max rounds₀ rounds₁) (levels + 1) q := by
  intro config husual hrounds n hlevels s i fault hat hfails
  obtain ⟨n, rfl⟩ : ∃ k, n = k + 1 := ⟨n - 1, by omega⟩
  have hnormal := hn config.maxRounds (by omega)
  have hanalyzed := Equation.analyze_of_tidy (Equation.tidy_of_normalize (hn rounds₀ le_rfl))
  cases fails_expand rfl hat hfails with
  | normalize h =>
    simp only [husual.mode, hnormal] at h
    cases h
  | attempt hsettles h =>
    rw [hsettles.eq husual.mode hnormal, hanalyzed] at h
    have herror := h.eq_error
    have hisolates := Equation.isolates_applyInverse config.placeholder target hlen hanalyzed
    rw [herror] at hisolates
    cases hisolates with
    | refused hfault =>
      have hskippable := hfault.resolve_right fun ⟨name, hfill⟩ =>
        Template.fill_usual_ne_error name fault (husual.placeholder ▸ hfill)
      exact ⟨h.2 hskippable, hskippable⟩
  | below hsettles htries hnew hat h =>
    rw [hsettles.eq husual.mode hnormal, hanalyzed] at htries hnew
    obtain ⟨done, hdone, rfl, hne⟩ := htries.eq_of_new husual.mode hnew
    rw [husual.placeholder] at hdone
    exact hbelow done hdone hne config husual (by omega) n (by omega) _ _ _ hat h

/-- **There are numbers of rounds and levels for every equation of two sides.** -/
theorem exists_endsWithin (target : Option String) (q : Equation) (hlen : q.sides.length = 2) :
    ∃ rounds levels, EndsWithin target rounds levels q := by
  obtain ⟨rounds₀, r, rounds, hn⟩ := q.exists_normalize
  -- the induction is on what is still to be done at the normal form
  induction hb : r.burden Config.default.placeholder target using WellFoundedLT.induction
    generalizing q r rounds₀ rounds with
  | _ b ih =>
    have hr : r.IsSettled := fun e he => Equation.tidy_of_mem (Equation.tidy_of_normalize (hn rounds₀ le_rfl)) he
    have hlen' : r.sides.length = 2 := (Equation.isNormalOf_normalize (hn rounds₀ le_rfl)).length_eq.symm.trans hlen
    suffices hbelow : ∃ rounds₁ levels, ∀ done, r.applyInverse Config.default.placeholder target = .ok done →
        done.equation ≠ r → EndsWithin target rounds₁ levels done.equation by
      obtain ⟨rounds₁, levels, hbelow⟩ := hbelow
      exact ⟨_, _, endsWithin_of_below hlen' hn hbelow⟩
    have hanalyzed := Equation.analyze_of_tidy (Equation.tidy_of_normalize (hn rounds₀ le_rfl))
    have hisolates := Equation.isolates_applyInverse Config.default.placeholder target hlen' hanalyzed
    generalize r.applyInverse Config.default.placeholder target = outcome at hisolates
    cases hisolates with
    | refused hfault => exact ⟨0, 0, fun done hdone => by cases hdone⟩
    | same hsame => exact ⟨0, 0, fun done hdone hne => by cases hdone; exact absurd hsame hne⟩
    | @step done first a b p name found hq hold hfirst honly hfound hpeels hdone =>
      subst hq
      obtain ⟨rounds', r', rounds'', hn'⟩ := done.equation.exists_normalize
      have hnormal := Equation.isNormalOf_normalize (hn' rounds' le_rfl)
      rw [hdone] at hnormal
      obtain ⟨a', b', rfl, ha', hb'⟩ := Equation.forall₂_sided hnormal
      have hlt := Equation.burden_lt hr hold hfirst honly hfound hpeels ha' hb'
      have hlen'' : done.equation.sides.length = 2 := by
        rw [hdone]
        cases first <;> rfl
      obtain ⟨rounds₁, levels, hends⟩ := ih _ (hb ▸ hlt) done.equation hlen'' rounds' _ rounds'' hn' rfl
      exact ⟨rounds₁, levels, fun done' hdone' _ => by cases hdone'; exact hends⟩

end Search

namespace Equation

/-- **The search ends by itself.** For every equation of two sides and every target there are bounds with which, or with
greater ones, the search gives a result, unless it comes to a side that cannot be undone and may not pass it over. -/
theorem solve_terminates {q : Equation} (hlen : q.sides.length = 2) (target : Option String) :
    ∃ rounds depth : Nat, ∀ config : Config, config.mode = .bijective →
      config.placeholder = Config.default.placeholder → rounds ≤ config.maxRounds → depth ≤ config.maxDepth →
        (∃ s, (q.solve ⟨[.applyInverse], config, target⟩).1 = .ok s) ∨
          config.onUnsupported = .raise ∧
            ∃ fault, (q.solve ⟨[.applyInverse], config, target⟩).1 = .error fault ∧ fault.isSkippable = true := by
  obtain ⟨rounds, levels, hends⟩ := Search.exists_endsWithin target q hlen
  refine ⟨rounds, levels, fun config hmode hplaceholder hrounds hdepth => ?_⟩
  unfold solve
  simp only
  split
  · rename_i fault s hrun
    obtain ⟨hpolicy, hfault⟩ := hends config ⟨hmode, hplaceholder⟩ hrounds _ (by simp only; omega) _ _ fault
      (Search.atEnd_single q) ⟨s, hrun⟩
    exact .inr ⟨hpolicy, fault, rfl, hfault⟩
  · exact .inl ⟨_, rfl⟩

/-- The equation `3 / (x + 1) = x * y`. -/
def sharedVariable : Equation :=
  ⟨[(Expr.number 3).div ((Expr.var "x").add (.number 1)), (Expr.var "x").mul (.var "y")]⟩

theorem solve_terminates_sharedVariable : ∃ rounds depth : Nat, ∀ config : Config, config.mode = .bijective →
    config.placeholder = Config.default.placeholder → rounds ≤ config.maxRounds → depth ≤ config.maxDepth →
      (∃ s, (sharedVariable.solve ⟨[.applyInverse], config, some "x"⟩).1 = .ok s) ∨
        config.onUnsupported = .raise ∧ ∃ fault,
          (sharedVariable.solve ⟨[.applyInverse], config, some "x"⟩).1 = .error fault ∧ fault.isSkippable = true :=
  solve_terminates rfl (some "x")

end Equation

end Isolate
