import Isolate.Proofs.Matching.Diagonal
import Isolate.Proofs.Matching.Sound
import Isolate.Proofs.Settling.Rounds
import Mathlib

/-!
# Normalising settles

The weight of an equation never grows from round to round, so it is the same from some round on. Two rounds that keep
the weight leave flat sides, and no round changes them any more (`Equation.exists_settled`). A match of an equation with
what a round makes of it keeps the weight too, and being flat, so the match is not deceived by an equation that a
further round would change (`Equation.tidy_tidy_of_isLike`).

* `Equation.normalize_settles`: with enough rounds, normalising ends.
* `Equation.normalize_idempotent`: where it ends, neither a round nor normalising again changes anything.
-/

namespace Isolate

namespace Equation

/-! ## Weights of equations -/

/-- The weight of an equation is that of its sides. -/
def weight (q : Equation) : Nat := Expr.load q.sides

theorem weight_tidy_le (q : Equation) : q.tidy.weight ≤ q.weight :=
  Expr.load_map_le fun e _ => Expr.weight_tidy_le e

/-- If the weight of the equation is kept in a round, that of every side is. -/
theorem weight_tidy_of_mem {q : Equation} (h : q.tidy.weight = q.weight) {e : Expr} (he : e ∈ q.sides) :
    e.tidy.weight = e.weight := by
  by_contra hne
  have hlt := lt_of_le_of_ne e.weight_tidy_le hne
  exact absurd h (Expr.load_map_lt (fun a _ => Expr.weight_tidy_le a) he hlt).ne

theorem tidy_tidy {q : Equation} (h : ∀ e ∈ q.sides, e.tidy.tidy = e.tidy) : q.tidy.tidy = q.tidy := by
  rw [tidy, tidy, List.map_map]
  exact congrArg Equation.mk (List.map_congr_left h)

/-- After two rounds that keep the weight, a round changes nothing. -/
theorem tidy_tidy_of_weight_eq {q : Equation} (h : q.tidy.weight = q.weight)
    (h' : q.tidy.tidy.weight = q.tidy.weight) : q.tidy.tidy = q.tidy := by
  refine tidy_tidy fun e he => Expr.tidy_tidy (weight_tidy_of_mem h he) ?_
  exact Expr.everywhere_isFlat_of_weight_tidy (weight_tidy_of_mem h' (List.mem_map_of_mem he))

/-! ## The sequence of rounds -/

/-- The analysed equation after a number of rounds of the usual passes. -/
def afterRounds (q : Equation) (k : Nat) : Equation := (fun q => (runPasses usualPasses q).1)^[k] q.analyze

theorem afterRounds_succ (q : Equation) (k : Nat) : q.afterRounds (k + 1) = (q.afterRounds k).tidy := by
  rw [afterRounds, Function.iterate_succ_apply', runPasses_usual]
  rfl

theorem afterRounds_add (q : Equation) (k i : Nat) : q.afterRounds (k + i) = tidy^[i] (q.afterRounds k) := by
  induction i with
  | zero => rfl
  | succ i ih => rw [← Nat.add_assoc, afterRounds_succ, ih, Function.iterate_succ_apply']

theorem weight_afterRounds_le (q : Equation) (k i : Nat) : (q.afterRounds (k + i)).weight ≤ (q.afterRounds k).weight := by
  induction i with
  | zero => rfl
  | succ i ih =>
    rw [← Nat.add_assoc, afterRounds_succ]
    exact (weight_tidy_le _).trans ih

/-- What a round leaves, all later rounds leave. -/
theorem afterRounds_of_tidy_eq {q : Equation} {n : Nat} (h : (q.afterRounds n).tidy = q.afterRounds n) {k : Nat}
    (hk : n ≤ k) : q.afterRounds k = q.afterRounds n := by
  obtain ⟨i, rfl⟩ := Nat.exists_eq_add_of_le hk
  rw [afterRounds_add]
  exact Function.iterate_fixed h i

/-- **From some round on, no round changes the equation.** -/
theorem exists_settled (q : Equation) : ∃ n, (q.afterRounds n).tidy = q.afterRounds n := by
  obtain ⟨n, -, hmin⟩ := WellFounded.has_min (measure fun k => (q.afterRounds k).weight).wf Set.univ ⟨0, trivial⟩
  have hconst : ∀ i, (q.afterRounds (n + i)).weight = (q.afterRounds n).weight := fun i =>
    le_antisymm (weight_afterRounds_le q n i) (not_lt.mp (hmin (n + i) trivial))
  refine ⟨n + 1, ?_⟩
  have h1 := hconst 1
  have h2 := hconst 2
  rw [afterRounds_succ q (n + 1)] at h2
  rw [afterRounds_succ] at h1 h2 ⊢
  exact tidy_tidy_of_weight_eq h1 (h2.trans h1.symm)

/-! ## The loop -/

/-- The loop ends with success if it is given the rounds to come upon an equation that is like the next one. -/
theorem settle_ok {mode : MatchMode} {limit : Int} {j fuel round : Nat} {q : Equation}
    (h : isLike mode (tidy^[j] q) (tidy^[j] q).tidy = true) (hj : j < fuel) :
    ∃ rounds, (settle usualPasses mode limit fuel round q).2 = .ok rounds := by
  induction fuel generalizing j round q with
  | zero => omega
  | succ fuel ih =>
    rw [settle_succ]
    split
    · exact ⟨round, rfl⟩
    · rename_i hne
      cases j with
      | zero => exact absurd h hne
      | succ j =>
        rw [Function.iterate_succ_apply] at h
        exact ih h (by omega)

/-- Where the loop ends with success, the last equation was like the one it ends with. -/
theorem isLike_of_settle {mode : MatchMode} {limit : Int} {fuel round rounds : Nat} {q r : Equation}
    (h : settle usualPasses mode limit fuel round q = (r, .ok rounds)) :
    ∃ p, r = p.tidy ∧ isLike mode p p.tidy = true := by
  induction fuel generalizing round q with
  | zero => cases h
  | succ fuel ih =>
    rw [settle_succ] at h
    split at h
    · rename_i hlike
      exact ⟨q, (Prod.mk.inj h).1.symm, hlike⟩
    · exact ih h

/-- A cycle of rounds is a standstill. -/
theorem afterRounds_of_cycle {q : Equation} {i j : Nat} (hij : i < j) (h : q.afterRounds i = q.afterRounds j) :
    q.afterRounds (i + 1) = q.afterRounds i := by
  obtain ⟨n, hn⟩ := exists_settled q
  obtain ⟨p, rfl⟩ := Nat.exists_eq_add_of_lt hij
  -- going round the cycle often enough leads past the round from which on nothing changes
  have hround : ∀ m, q.afterRounds (i + (p + 1) * m) = q.afterRounds i := by
    intro m
    induction m with
    | zero => rfl
    | succ m ih =>
      rw [Nat.mul_succ, ← Nat.add_assoc, afterRounds_add, ih, ← afterRounds_add, ← Nat.add_assoc]
      exact h.symm
  have hle : n ≤ i + (p + 1) * n := by
    have := Nat.le_mul_of_pos_left n (show 0 < p + 1 by omega)
    omega
  have hstill := afterRounds_of_tidy_eq hn hle
  rw [hround] at hstill
  rw [afterRounds_succ, hstill, hn]

/-- **Normalising settles.** With a number of rounds that depends on the equation, or any greater one, it ends with
success; the rounds come to a standstill, and never run in a cycle. -/
theorem normalize_settles (q : Equation) : ∃ n : Nat,
    (∀ limit : Int, n ≤ limit → ∃ rounds, (q.normalize usualPasses .bijective limit).2 = .ok rounds) ∧
      (∀ k, n ≤ k → q.afterRounds k = q.afterRounds n) ∧
        ∀ i j, i < j → q.afterRounds i = q.afterRounds j → q.afterRounds (i + 1) = q.afterRounds i := by
  obtain ⟨n, hn⟩ := exists_settled q
  have hstill : ∀ k, n ≤ k → q.afterRounds k = q.afterRounds n := fun k hk => afterRounds_of_tidy_eq hn hk
  refine ⟨n + 1, fun limit hlimit => ?_, fun k hk => ?_, fun i j hij h => afterRounds_of_cycle hij h⟩
  · have hself : tidy^[n] q.analyze = q.afterRounds n := by
      rw [← Nat.zero_add n, afterRounds_add, Nat.zero_add]
      rfl
    refine settle_ok (j := n) ?_ (by omega)
    rw [hself, hn]
    exact isLike_self _
  · rw [hstill k (by omega), hstill (n + 1) (by omega)]

/-! ## Where normalising ends -/

/-- The match is not deceived: an equation that is like what a round makes of it is at most one round from its end. -/
theorem tidy_tidy_of_isLike {q : Equation} (h : isLike .bijective q q.tidy = true) : q.tidy.tidy = q.tidy := by
  have hsides := alike_of_isLike h
  rw [tidy, List.forall₂_map_right_iff, List.forall₂_same] at hsides
  refine tidy_tidy fun e he => ?_
  have harranged := hsides e he
  have hrefl := Expr.alike_arrange (V := fun _ _ => True) (F := fun _ _ => True) (fun _ => trivial) fun _ => trivial
  have hweight : e.tidy.weight = e.weight := by
    rw [(hrefl e).weight_eq, harranged.weight_eq, ← (hrefl e.tidy).weight_eq]
  have hflat := Expr.everywhere_isFlat_of_weight_tidy hweight
  rw [(hrefl e).everywhere_isFlat, harranged.everywhere_isFlat, ← (hrefl e.tidy).everywhere_isFlat] at hflat
  exact Expr.tidy_tidy hweight hflat

/-- **Where normalising ends with success, it ends for good.** A further round of flattening and simplifying leaves
exactly the same equation, and so does normalising again, which takes one round. -/
theorem normalize_idempotent {q r : Equation} {limit : Int} {rounds : Nat}
    (h : q.normalize usualPasses .bijective limit = (r, .ok rounds)) :
    runPasses usualPasses r = (r, none) ∧
      ∀ limit' : Int, 1 ≤ limit' → r.normalize usualPasses .bijective limit' = (r, .ok 1) := by
  obtain ⟨p, rfl, hlike⟩ := isLike_of_settle h
  have hfixed := tidy_tidy_of_isLike hlike
  refine ⟨by rw [runPasses_usual, hfixed], fun limit' hlimit => ?_⟩
  have hanalyzed : p.tidy.analyze = p.tidy := by
    rw [tidy, analyze, List.map_map]
    exact congrArg Equation.mk (List.map_congr_left fun e _ => Expr.analyze_tidy e)
  obtain ⟨fuel, hfuel⟩ : ∃ fuel, limit'.toNat = fuel + 1 := ⟨limit'.toNat - 1, by omega⟩
  rw [normalize, hanalyzed, hfuel, settle_succ, hfixed, if_pos (isLike_self _)]

/-- The equation `x - (0 - x) * 2 / 4 = 7`. -/
def tangled : Equation :=
  ⟨[.sum [.of (.var "x"), ⟨[((Expr.number 0).sub (.var "x")).neg, .number 2], [.number 4]⟩], .number 7]⟩

theorem normalize_idempotent_tangled :
    (tangled.normalize usualPasses .bijective 64).2 = .ok 3 ∧
      runPasses usualPasses (tangled.normalize usualPasses .bijective 64).1 =
        ((tangled.normalize usualPasses .bijective 64).1, none) ∧
      ∀ limit' : Int, 1 ≤ limit' → (tangled.normalize usualPasses .bijective 64).1.normalize usualPasses .bijective limit' =
        ((tangled.normalize usualPasses .bijective 64).1, .ok 1) := by
  have h : (tangled.normalize usualPasses .bijective 64).2 = .ok 3 := by cbv
  exact ⟨h, normalize_idempotent (Prod.ext rfl h)⟩

end Equation

end Isolate
