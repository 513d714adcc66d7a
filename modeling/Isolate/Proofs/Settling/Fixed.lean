import Isolate.Proofs.Settling.Settled

/-!
# What normalising leaves

With enough rounds, normalising ends with one and the same equation (`Equation.exists_normalize`). Its sides are *normal
forms* of the sides it started from (`Expr.IsNormalOf`, `Equation.isNormalOf_normalize`): rounds make them, and a further
round leaves them.

* `Expr.everywhere_isLeft`: a tree that a round leaves is flat and left by every step of simplifying at every node
  (`Expr.IsLeft`). Such a tree is left by a round (`Expr.tidy_of_everywhere_isLeft`).
-/

namespace Isolate

namespace Expr

/-! ## Nodes that are left -/

/-- The node is flat, and no step of simplifying changes it. -/
structure IsLeft (e : Expr) : Prop where
  flat : e.IsFlat
  reduce : IsLeftBy reduceStep e
  drop : IsLeftBy dropUnits e
  neutral : IsLeftBy neutralStep e

variable {P : Expr → Prop} {e a b : Expr}

/-- **A tree that a round leaves is left by every step at every node.** -/
theorem everywhere_isLeft (h : e.tidy = e) : e.Everywhere IsLeft := by
  have hweight : e.tidy.weight = e.weight := by rw [h]
  have h1 := weight_tidy_le_flatten e
  have h2 := weight_flatten_le e
  have hs : e.flatten.analyze.simplified.weight = e.flatten.analyze.weight := by
    rw [tidy, weight_analyze] at hweight h1
    rw [weight_analyze]
    omega
  obtain ⟨hreduce, hdrop, hneutral⟩ := simplified_of_weight_eq hs
  have hbare : e.flatten.analyze.simplified.bare = e.bare := by
    conv_rhs => rw [← h, tidy, bare_analyze]
  rw [ignoresAnalysis_reduceStep.everywhere_isLeftBy hbare] at hreduce
  rw [ignoresAnalysis_dropUnits.everywhere_isLeftBy hbare] at hdrop
  rw [ignoresAnalysis_neutralStep.everywhere_isLeftBy hbare] at hneutral
  have hall := ((everywhere_isFlat_of_weight_tidy hweight).and hreduce).and (hdrop.and hneutral)
  refine hall.imp fun a ha => ?_
  obtain ⟨⟨hf, hr⟩, hd, hn⟩ := ha
  exact ⟨hf, hr, hd, hn⟩

/-- **A round leaves a tree that every step leaves at every node**, once it is analysed. -/
theorem tidy_of_everywhere_isLeft (h : e.Everywhere IsLeft) : e.analyze.tidy = e.analyze :=
  tidy_eq_self (analyze_analyze e)
    ((ignoresAnalysis_flattenStep.everywhere_isLeftBy (bare_analyze e)).mpr
      (h.imp fun _ hl => flattenStep_of_isFlat hl.flat))
    ((ignoresAnalysis_reduceStep.everywhere_isLeftBy (bare_analyze e)).mpr (h.imp fun _ hl => hl.reduce))
    ((ignoresAnalysis_dropUnits.everywhere_isLeftBy (bare_analyze e)).mpr (h.imp fun _ hl => hl.drop))
    ((ignoresAnalysis_neutralStep.everywhere_isLeftBy (bare_analyze e)).mpr (h.imp fun _ hl => hl.neutral))

/-- Whether a node is left does not depend on the sign in front. -/
theorem IsLeft.of_shape (h : a.IsLeft) (hs : a.shape = b.shape) : b.IsLeft := by
  obtain ⟨s, x, c⟩ := a
  obtain ⟨t, y, d⟩ := b
  obtain rfl : x = y := hs
  obtain ⟨hflat, hreduce, hdrop, hneutral⟩ := h
  refine ⟨hflat, ?_, ?_, ?_⟩
  · cases x with
    | sum ts => simpa [IsLeftBy, reduceStep] using hreduce
    | _ => rfl
  · cases x with
    | sum ts => simpa [IsLeftBy, dropUnits] using hdrop
    | _ => rfl
  · cases x with
    | sum ts =>
      rw [IsLeftBy, neutralStep_sum] at hneutral ⊢
      split at hneutral
      · simp [number, ofShape, Shape.map] at hneutral
      · simpa using hneutral
    | _ => rfl

/-! ## Normal forms -/

/-- Rounds make the tree of another one, and a further round leaves it. -/
def IsNormalOf (r e : Expr) : Prop := r.tidy = r ∧ ∃ k, r = tidy^[k + 1] e

namespace IsNormalOf

variable {r : Expr}

theorem analyze_eq (h : r.IsNormalOf e) : r.analyze = r := by
  rw [← h.1]
  exact analyze_tidy r

/-- What rounds keep, a normal form has. -/
theorem keeps (h : r.IsNormalOf e) (hP : ∀ {a}, P a → P a.tidy) (he : P e) : P r := by
  obtain ⟨-, k, rfl⟩ := h
  induction k with
  | zero => exact hP he
  | succ k ih =>
    rw [Function.iterate_succ_apply']
    exact hP ih

theorem weight_le (h : r.IsNormalOf e) : r.weight ≤ e.weight :=
  h.keeps (P := fun a => a.weight ≤ e.weight) (fun {a} => a.weight_tidy_le.trans) le_rfl

/-- If a round leaves what the first round makes, that is the normal form. -/
theorem eq_tidy (h : r.IsNormalOf e) (he : e.tidy.tidy = e.tidy) : r = e.tidy := by
  obtain ⟨-, k, rfl⟩ := h
  rw [Function.iterate_succ_apply]
  exact Function.iterate_fixed he k

end IsNormalOf

end Expr

namespace Equation

variable {q r : Equation} {mode : MatchMode} {limit limit' : Int} {fuel fuel' round rounds : Nat}

/-- **Where normalising ends with success, a further round changes nothing.** -/
theorem tidy_of_normalize (h : q.normalize usualPasses .bijective limit = (r, .ok rounds)) : r.tidy = r := by
  obtain ⟨p, rfl, hlike⟩ := isLike_of_settle h
  exact tidy_tidy_of_isLike hlike

theorem tidy_of_mem (h : q.tidy = q) {e : Expr} (he : e ∈ q.sides) : e.tidy = e := by
  have hsides : q.sides.map Expr.tidy = q.sides := congrArg Equation.sides h
  exact List.map_inj_left.mp (hsides.trans (List.map_id _).symm) e he

/-- The loop takes a number of rounds. -/
theorem settle_eq_iterate (h : settle usualPasses mode limit fuel round q = (r, .ok rounds)) :
    ∃ k, r = tidy^[k + 1] q := by
  induction fuel generalizing round q with
  | zero => cases h
  | succ fuel ih =>
    rw [settle_succ] at h
    split at h
    · exact ⟨0, (Prod.mk.inj h).1.symm⟩
    · obtain ⟨k, hk⟩ := ih h
      exact ⟨k + 1, by rw [hk, Function.iterate_succ_apply]; rfl⟩

theorem sides_iterate_tidy (q : Equation) (k : Nat) : (tidy^[k] q).sides = q.sides.map Expr.tidy^[k] := by
  induction k with
  | zero => simp
  | succ k ih =>
    rw [Function.iterate_succ_apply', tidy, ih, List.map_map, ← Function.iterate_succ']

/-- **The sides that normalising ends with are normal forms of those it started from.** -/
theorem isNormalOf_normalize (h : q.normalize usualPasses .bijective limit = (r, .ok rounds)) :
    List.Forall₂ (fun e a => a.IsNormalOf e) q.sides r.sides := by
  obtain ⟨k, hk⟩ := settle_eq_iterate h
  have htidy := tidy_of_normalize h
  have hsides : r.sides = q.sides.map Expr.tidy^[k + 1] := by
    rw [hk, Function.iterate_succ_apply, tidy_analyze, ← Function.iterate_succ_apply, sides_iterate_tidy]
  rw [hsides, List.forall₂_map_right_iff, List.forall₂_same]
  intro e he
  exact ⟨tidy_of_mem htidy (hsides ▸ List.mem_map_of_mem he), k, rfl⟩

/-- More rounds than the loop takes change nothing. -/
theorem settle_of_le (h : settle usualPasses mode limit fuel round q = (r, .ok rounds)) (hle : fuel ≤ fuel') :
    settle usualPasses mode limit' fuel' round q = (r, .ok rounds) := by
  induction fuel generalizing fuel' round q with
  | zero => cases h
  | succ fuel ih =>
    obtain ⟨fuel', rfl⟩ : ∃ k, fuel' = k + 1 := ⟨fuel' - 1, by omega⟩
    rw [settle_succ] at h ⊢
    split at h
    · rename_i hlike
      rw [if_pos hlike, h]
    · rename_i hlike
      rw [if_neg hlike]
      exact ih h (by omega)

theorem iterate_tidy_analyze (q : Equation) (n : Nat) : tidy^[n] q.analyze = q.afterRounds n := by
  rw [← Nat.zero_add n, afterRounds_add, Nat.zero_add]
  rfl

/-- Where normalising ends with success, it ends with what some number of rounds makes. -/
theorem afterRounds_of_normalize (h : q.normalize usualPasses .bijective limit = (r, .ok rounds)) :
    ∃ k, q.afterRounds k = r := by
  obtain ⟨k, hk⟩ := settle_eq_iterate h
  exact ⟨k + 1, by rw [hk, iterate_tidy_analyze]⟩

/-- **If a round leaves what a number of rounds make, normalising ends with that**, given one round more. -/
theorem normalize_of_afterRounds {n : Nat} (h : (q.afterRounds n).tidy = q.afterRounds n) (hlimit : n < limit) :
    ∃ rounds, q.normalize usualPasses .bijective limit = (q.afterRounds n, .ok rounds) := by
  have hlike : isLike .bijective (tidy^[n] q.analyze) (tidy^[n] q.analyze).tidy = true := by
    rw [iterate_tidy_analyze, h]
    exact isLike_self _
  obtain ⟨rounds, hrounds⟩ : ∃ rounds, (settle usualPasses .bijective limit limit.toNat 1 q.analyze).2 = .ok rounds :=
    settle_ok hlike (by omega)
  obtain ⟨r, hr⟩ : ∃ r, q.normalize usualPasses .bijective limit = (r, .ok rounds) := ⟨_, Prod.ext rfl hrounds⟩
  obtain ⟨k, hk⟩ := afterRounds_of_normalize hr
  have hstill : (q.afterRounds k).tidy = q.afterRounds k := by rw [hk, tidy_of_normalize hr]
  -- both standstills are reached by the later of the two rounds
  have hend : q.afterRounds k = q.afterRounds n :=
    (afterRounds_of_tidy_eq hstill (le_max_left k n)).symm.trans (afterRounds_of_tidy_eq h (le_max_right k n))
  exact ⟨rounds, by rw [hr, ← hk, hend]⟩

/-- **With enough rounds, normalising ends with one equation.** -/
theorem exists_normalize (q : Equation) : ∃ (n : Nat) (r : Equation) (rounds : Nat),
    ∀ limit : Int, n ≤ limit → q.normalize usualPasses .bijective limit = (r, .ok rounds) := by
  obtain ⟨n, hn⟩ := exists_settled q
  have hlike : isLike .bijective (tidy^[n] q.analyze) (tidy^[n] q.analyze).tidy = true := by
    rw [iterate_tidy_analyze, hn]
    exact isLike_self _
  obtain ⟨rounds, hrounds⟩ : ∃ rounds, (settle usualPasses .bijective 0 (n + 1) 1 q.analyze).2 = .ok rounds :=
    settle_ok hlike (Nat.lt_succ_self n)
  refine ⟨n + 1, (settle usualPasses .bijective 0 (n + 1) 1 q.analyze).1, rounds, fun limit hlimit => ?_⟩
  exact settle_of_le (Prod.ext rfl hrounds) (by omega)

end Equation

end Isolate
