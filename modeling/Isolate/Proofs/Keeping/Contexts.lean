import Isolate.Workspace
import Isolate.Proofs.Entries
import Isolate.Proofs.Isolating.Found
import Mathlib

/-!
# Contexts

In a context, no two equations have one handle, and a result that is kept under a handle is what solving the equation of
that handle gave (`Context.IsSound`). Adding an equation under a fresh handle keeps it so (`Context.IsSound.add`), and so
do taking one out (`Context.IsSound.remove`) and solving, also where it stops at an equation that cannot be solved
(`Context.IsSound.solveEach`).

* `Context.IsSound.remove_of_fault`: taking out what is not there changes nothing.
* `Context.solveEach_eq_ok`: where solving does not stop, every equation has the result that it has alone.
-/

namespace Isolate

/-! ## Sound contexts -/

namespace Context

variable {strategies : List Strategy} {config : Config} {count : Nat} {c c' : Context} {task : Search.Task}
  {handle k : String} {q : Equation} {qs : List (String × Equation)} {results : List (String × Solved)} {fault : Fault}

/-- The equations have handles of their own, numbered below `count`, and a result is what solving the equation under its
handle gave. -/
structure IsSound (strategies : List Strategy) (config : Config) (count : Nat) (c : Context) : Prop where
  numbered : ∀ k ∈ c.equations.map Prod.fst, ∃ n < count, k = s!"e{n}"
  distinct : (c.equations.map Prod.fst).Nodup
  solved : ∀ k s, c.results.lookup k = some s →
    ∃ q target, c.equations.lookup k = some q ∧ (q.solve ⟨strategies, config, target⟩).1 = .ok s

theorem isSound_empty (strategies : List Strategy) (config : Config) (count : Nat) (name : String) :
    IsSound strategies config count ⟨name, [], []⟩ where
  numbered _ h := by cases h
  distinct := List.nodup_nil
  solved _ _ h := by cases h

namespace IsSound

theorem mono {m n : Nat} (h : c.IsSound strategies config m) (hmn : m ≤ n) : c.IsSound strategies config n where
  numbered k hk := (h.numbered k hk).imp fun _ ⟨hlt, heq⟩ => ⟨Nat.lt_of_lt_of_le hlt hmn, heq⟩
  distinct := h.distinct
  solved := h.solved

/-- **Only what has an equation has a result.** -/
theorem keys_subset (h : c.IsSound strategies config count) : c.results.map Prod.fst ⊆ c.equations.map Prod.fst := by
  intro k hk
  obtain ⟨s, hs⟩ := Option.isSome_iff_exists.mp (isSome_lookup_iff.mpr hk)
  obtain ⟨q, -, hq, -⟩ := h.solved k s hs
  exact mem_keys_of_lookup hq

theorem fresh (h : c.IsSound strategies config count) : s!"e{count}" ∉ c.equations.map Prod.fst := by
  intro hmem
  obtain ⟨n, hlt, heq⟩ := h.numbered _ hmem
  obtain rfl : count = n := Nat.repr_inj.mp (by simpa using heq)
  exact Nat.lt_irrefl _ hlt

/-- An equation is added under the next handle. -/
theorem add (h : c.IsSound strategies config count) (q : Equation) :
    IsSound strategies config (count + 1) { c with equations := c.equations ++ [(s!"e{count}", q)] } where
  numbered k hk := by
    rw [List.map_append, List.mem_append] at hk
    rcases hk with hk | hk
    · exact (h.mono (Nat.le_succ count)).numbered k hk
    · exact ⟨count, Nat.lt_succ_self count, List.mem_singleton.mp hk⟩
  distinct := by
    rw [List.map_append, List.nodup_append_comm]
    exact List.nodup_cons.mpr ⟨h.fresh, h.distinct⟩
  solved k s hs := by
    obtain ⟨r, target, hr, hsolved⟩ := h.solved k s hs
    exact ⟨r, target, by rw [List.lookup_append, hr]; rfl, hsolved⟩

end IsSound

/-! ## Taking an equation out -/

theorem remove_of_lookup (h : c.equations.lookup handle = some q) : c.remove handle =
    (⟨c.name, c.equations.filter (·.1 ≠ handle), c.results.filter (·.1 ≠ handle)⟩, .ok q) := by
  simp only [remove, h]

theorem remove_of_lookup_eq_none (h : c.equations.lookup handle = none) : c.remove handle =
    (⟨c.name, c.equations, c.results.filter (·.1 ≠ handle)⟩, .error (.unknownHandle handle)) := by
  simp only [remove, h]

/-- What a removal leaves, whether it succeeds or not. -/
theorem lookup_remove (c : Context) (handle k : String) :
    (c.remove handle).1.equations.lookup k = (if k = handle then none else c.equations.lookup k) ∧
      (c.remove handle).1.results.lookup k = if k = handle then none else c.results.lookup k := by
  cases hq : c.equations.lookup handle with
  | some q =>
    rw [remove_of_lookup hq]
    exact ⟨lookup_filter_ne handle k c.equations, lookup_filter_ne handle k c.results⟩
  | none =>
    rw [remove_of_lookup_eq_none hq]
    refine ⟨?_, lookup_filter_ne handle k c.results⟩
    split
    · rename_i hk
      rw [hk, hq]
    · rfl

theorem equations_remove_sublist (c : Context) (handle : String) : (c.remove handle).1.equations.Sublist c.equations := by
  cases hq : c.equations.lookup handle with
  | some q =>
    rw [remove_of_lookup hq]
    exact List.filter_sublist
  | none =>
    rw [remove_of_lookup_eq_none hq]

theorem IsSound.remove (h : c.IsSound strategies config count) (handle : String) :
    (c.remove handle).1.IsSound strategies config count where
  numbered k hk := h.numbered k (((equations_remove_sublist c handle).map _).subset hk)
  distinct := h.distinct.sublist ((equations_remove_sublist c handle).map _)
  solved k s hs := by
    rw [(lookup_remove c handle k).2] at hs
    split at hs
    · cases hs
    · rename_i hk
      obtain ⟨q, target, hq, hsolved⟩ := h.solved k s hs
      exact ⟨q, target, by rw [(lookup_remove c handle k).1, if_neg hk, hq], hsolved⟩

/-- **The removal of an equation that is not there changes nothing**: there is no result to be taken out either. -/
theorem IsSound.remove_of_fault (h : c.IsSound strategies config count) (hfault : (c.remove handle).2 = .error fault) :
    (c.remove handle).1 = c := by
  cases hq : c.equations.lookup handle with
  | some q =>
    rw [remove_of_lookup hq] at hfault
    cases hfault
  | none =>
    have hkept : c.results.filter (·.1 ≠ handle) = c.results := by
      refine List.filter_eq_self.mpr fun p hp => decide_eq_true fun heq => ?_
      have hmem := h.keys_subset (List.mem_map_of_mem hp)
      rw [heq, ← isSome_lookup_iff, hq] at hmem
      cases hmem
    rw [remove_of_lookup_eq_none hq, hkept]

/-! ## Solving -/

theorem solveEach_cons_ok {s : Solved} (h : (q.solve task).1 = .ok s) (handle : String) (qs : List (String × Equation))
    (c : Context) : solveEach task ((handle, q) :: qs) c =
      ((solveEach task qs { c with results := Json.put handle s c.results }).1,
        (solveEach task qs { c with results := Json.put handle s c.results }).2.map ((handle, s) :: ·)) := by
  simp only [solveEach, h]

theorem solveEach_cons_error (h : (q.solve task).1 = .error fault) (handle : String) (qs : List (String × Equation))
    (c : Context) : solveEach task ((handle, q) :: qs) c = (c, .error fault) := by
  simp only [solveEach, h]

theorem equations_solveEach (task : Search.Task) (qs : List (String × Equation)) (c : Context) :
    (solveEach task qs c).1.equations = c.equations := by
  induction qs generalizing c with
  | nil => rfl
  | cons p qs ih =>
    obtain ⟨handle, q⟩ := p
    cases hs : (q.solve task).1 with
    | error fault => rw [solveEach_cons_error hs]
    | ok s => rw [solveEach_cons_ok hs, ih]

/-- Solving equations leaves the results under other handles. -/
theorem lookup_solveEach (hk : k ∉ qs.map Prod.fst) (c : Context) :
    (solveEach task qs c).1.results.lookup k = c.results.lookup k := by
  induction qs generalizing c with
  | nil => rfl
  | cons p qs ih =>
    obtain ⟨handle, q⟩ := p
    rw [List.map_cons, List.mem_cons, not_or] at hk
    cases hs : (q.solve task).1 with
    | error fault => rw [solveEach_cons_error hs]
    | ok s => rw [solveEach_cons_ok hs, ih hk.2, Json.lookup_put, if_neg hk.1]

/-- Solving some equations of a context keeps it sound, whether it stops or not. -/
theorem IsSound.solveEach {target : Option String} (h : c.IsSound strategies config count)
    (hqs : ∀ p ∈ qs, c.equations.lookup p.1 = some p.2) :
    (solveEach ⟨strategies, config, target⟩ qs c).1.IsSound strategies config count := by
  induction qs generalizing c with
  | nil => exact h
  | cons p qs ih =>
    obtain ⟨handle, q⟩ := p
    obtain ⟨hq, hqs⟩ := List.forall_mem_cons.mp hqs
    cases hs : (q.solve ⟨strategies, config, target⟩).1 with
    | error fault =>
      rw [solveEach_cons_error hs]
      exact h
    | ok s =>
      rw [solveEach_cons_ok hs]
      refine ih ⟨h.numbered, h.distinct, fun k t ht => ?_⟩ hqs
      rw [Json.lookup_put] at ht
      split at ht
      · rename_i hk
        cases ht
        exact ⟨q, target, by rw [hk, hq], hs⟩
      · exact h.solved k t ht

/-- **Where solving does not stop, every equation has the result that it has alone**, and no others are told. -/
theorem solveEach_eq_ok (hd : (qs.map Prod.fst).Nodup) (h : (solveEach task qs c).2 = .ok results) :
    results.map Prod.fst = qs.map Prod.fst ∧ ∀ p ∈ qs, ∃ s, (p.2.solve task).1 = .ok s ∧
      (solveEach task qs c).1.results.lookup p.1 = some s ∧ results.lookup p.1 = some s := by
  induction qs generalizing c results with
  | nil =>
    cases h
    exact ⟨rfl, List.forall_mem_nil _⟩
  | cons p qs ih =>
    obtain ⟨handle, q⟩ := p
    obtain ⟨hnew, hd⟩ := List.nodup_cons.mp hd
    cases hs : (q.solve task).1 with
    | error fault =>
      rw [solveEach_cons_error hs] at h
      cases h
    | ok s =>
      rw [solveEach_cons_ok hs] at h ⊢
      obtain ⟨others, hothers, rfl⟩ := map_eq_ok.mp h
      obtain ⟨hkeys, hsolved⟩ := ih hd hothers
      refine ⟨congrArg (handle :: ·) hkeys, List.forall_mem_cons.mpr ⟨⟨s, hs, ?_, List.lookup_cons_self⟩, ?_⟩⟩
      · rw [lookup_solveEach hnew, Json.lookup_put, if_pos rfl]
      · intro p hp
        obtain ⟨t, ht, hkept, htold⟩ := hsolved p hp
        have hne : p.1 ≠ handle := fun heq => hnew (show handle ∈ _ from heq ▸ List.mem_map_of_mem hp)
        exact ⟨t, ht, hkept, by rw [lookup_cons_of_ne hne, htold]⟩

/-- **Solving stops at no equation just if each of them can be solved.** -/
theorem exists_results_iff : (∃ results, (solveEach task qs c).2 = .ok results) ↔
    ∀ p ∈ qs, ∃ s, (p.2.solve task).1 = .ok s := by
  induction qs generalizing c with
  | nil => exact ⟨fun _ => List.forall_mem_nil _, fun _ => ⟨[], rfl⟩⟩
  | cons p qs ih =>
    obtain ⟨handle, q⟩ := p
    rw [List.forall_mem_cons]
    cases hs : (q.solve task).1 with
    | error fault =>
      rw [solveEach_cons_error hs]
      constructor
      · rintro ⟨_, h⟩
        cases h
      · rintro ⟨⟨_, h⟩, -⟩
        cases h
    | ok s =>
      rw [solveEach_cons_ok hs]
      constructor
      · rintro ⟨results, h⟩
        obtain ⟨others, hothers, -⟩ := map_eq_ok.mp h
        exact ⟨⟨s, rfl⟩, ih.mp ⟨others, hothers⟩⟩
      · rintro ⟨-, h⟩
        obtain ⟨others, hothers⟩ := (ih (c := { c with results := Json.put handle s c.results })).mpr h
        exact ⟨(handle, s) :: others, map_eq_ok.mpr ⟨others, hothers, rfl⟩⟩

end Context

end Isolate
