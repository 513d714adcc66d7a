import Isolate.Json.Basic

/-!
# Lists of entries

A list of entries is read by looking up a key, which finds the first entry with this key. If no key is there twice, what
is found is what is there (`lookup_eq_some_iff`).

* `Json.lookup_put`, `lookup_filter_ne`: what is found once an entry has been put or taken out.
-/

namespace Isolate

section Keys

variable {κ α : Type} [BEq κ] [LawfulBEq κ] {k : κ} {v : α} {entries : List (κ × α)}

theorem lookup_cons_of_ne {j : κ} (h : k ≠ j) (u : α) (entries : List (κ × α)) :
    ((j, u) :: entries).lookup k = entries.lookup k := by
  rw [List.lookup_cons, beq_false_of_ne h]

theorem isSome_lookup_iff : (entries.lookup k).isSome = true ↔ k ∈ entries.map Prod.fst := by
  induction entries with
  | nil => simp
  | cons e entries ih =>
    obtain ⟨j, u⟩ := e
    by_cases hk : k = j
    · simp [hk]
    · simp [lookup_cons_of_ne hk, hk, ih]

theorem mem_keys_of_lookup (h : entries.lookup k = some v) : k ∈ entries.map Prod.fst :=
  isSome_lookup_iff.mp (by rw [h]; rfl)

/-- Where no key is there twice, what is found is what is there. -/
theorem lookup_eq_some_iff (hd : (entries.map Prod.fst).Nodup) : entries.lookup k = some v ↔ (k, v) ∈ entries := by
  induction entries with
  | nil => simp
  | cons e entries ih =>
    obtain ⟨j, u⟩ := e
    obtain ⟨hj, hd⟩ := List.nodup_cons.mp hd
    rw [List.mem_cons]
    by_cases hk : k = j
    · subst hk
      have hrest : (k, v) ∉ entries := fun h => hj (show k ∈ _ from List.mem_map_of_mem h)
      simp [hrest, eq_comm]
    · rw [lookup_cons_of_ne hk, ih hd]
      simp [hk]

end Keys

variable {α : Type}

/-- What is put under a key is found there, and all else as before. -/
theorem Json.lookup_put (key k : String) (v : α) (entries : List (String × α)) :
    (put key v entries).lookup k = if k = key then some v else entries.lookup k := by
  induction entries with
  | nil =>
    by_cases hk : k = key
    · simp [put, hk]
    · rw [put, lookup_cons_of_ne hk, if_neg hk]
  | cons e entries ih =>
    obtain ⟨j, u⟩ := e
    rw [put]
    split
    · rename_i hj
      subst hj
      by_cases hk : k = j
      · simp [hk]
      · rw [lookup_cons_of_ne hk, lookup_cons_of_ne hk, if_neg hk]
    · rename_i hj
      by_cases hk : k = j
      · simp [hk, hj]
      · rw [lookup_cons_of_ne hk, lookup_cons_of_ne hk, ih]

/-- What is under a key is not found once the key is taken out, and all else is. -/
theorem lookup_filter_ne (key k : String) (entries : List (String × α)) :
    (entries.filter (·.1 ≠ key)).lookup k = if k = key then none else entries.lookup k := by
  induction entries with
  | nil => simp
  | cons e entries ih =>
    obtain ⟨j, u⟩ := e
    by_cases hj : j = key
    · rw [List.filter_cons_of_neg (by simp [hj]), ih]
      split
      · rfl
      · rename_i hk
        rw [hj, lookup_cons_of_ne hk]
    · rw [List.filter_cons_of_pos (by simp [hj])]
      by_cases hk : k = j
      · simp [hk, hj]
      · rw [lookup_cons_of_ne hk, lookup_cons_of_ne hk, ih]

end Isolate
