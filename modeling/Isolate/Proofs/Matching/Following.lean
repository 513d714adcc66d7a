import Isolate.Proofs.Matching.Run
import Mathlib.Data.List.Nodup

/-!
# Tables that follow a map

A table *follows* a map if every name is noted once, with what the map makes of it and nothing else
(`NameTable.Follows`). Noting one more pair of the map keeps that (`NameTable.Follows.record`), and if the map is
injective on the noted names, the table passes the check (`NameTable.Follows.checkFrom`).
-/

namespace Isolate.NameTable

theorem partner?_append {name : String} {seen : List String} (h : partner? seen = some name) :
    partner? (seen ++ [name]) = some name := by
  cases seen with
  | nil => cases h
  | cons right rest =>
    simp only [partner?] at h
    split at h
    · rename_i hall
      obtain rfl : right = name := by simpa using h
      simpa [partner?] using hall
    · cases h

theorem mem_record {k left right : String} {t : NameTable} :
    k ∈ (t.record left right).map Prod.fst ↔ k = left ∨ k ∈ t.map Prod.fst := by
  induction t with
  | nil => simp [record]
  | cons p t ih =>
    obtain ⟨name, seen⟩ := p
    unfold record
    split
    · rename_i h
      subst h
      simp
    · rw [List.map_cons, List.mem_cons, ih, List.map_cons, List.mem_cons]
      exact or_left_comm

/-- No name is noted twice, and each has what the map makes of it as its only partner. -/
structure Follows (ρ : String → String) (t : NameTable) : Prop where
  nodup : (t.map Prod.fst).Nodup
  partner : ∀ p ∈ t, partner? p.2 = some (ρ p.1)

variable {ρ : String → String} {t : NameTable} {taken : List String}

theorem follows_nil (ρ : String → String) : Follows ρ [] := ⟨List.nodup_nil, List.forall_mem_nil _⟩

theorem Follows.record (h : t.Follows ρ) (name : String) : (t.record name (ρ name)).Follows ρ := by
  induction t with
  | nil => exact ⟨List.nodup_singleton _, fun p hp => by rw [List.mem_singleton.mp hp]; rfl⟩
  | cons p t ih =>
    obtain ⟨n, seen⟩ := p
    obtain ⟨hn, ht⟩ := List.nodup_cons.mp h.nodup
    obtain ⟨hp, hpartner⟩ := List.forall_mem_cons.mp h.partner
    unfold NameTable.record
    split
    · rename_i hname
      subst hname
      exact ⟨h.nodup, List.forall_mem_cons.mpr ⟨partner?_append hp, hpartner⟩⟩
    · rename_i hname
      have hi := ih ⟨ht, hpartner⟩
      refine ⟨List.nodup_cons.mpr ⟨fun hm => ?_, hi.nodup⟩, List.forall_mem_cons.mpr ⟨hp, hi.partner⟩⟩
      exact (mem_record.mp hm).elim hname hn

theorem Follows.checkFrom (h : t.Follows ρ) (hρ : ∀ p ∈ t, ∀ q ∈ t, ρ p.1 = ρ q.1 → p.1 = q.1)
    (htaken : ∀ p ∈ t, ρ p.1 ∉ taken) : t.checkFrom taken = true := by
  induction t generalizing taken with
  | nil => rfl
  | cons p t ih =>
    obtain ⟨n, seen⟩ := p
    obtain ⟨hn, ht⟩ := List.nodup_cons.mp h.nodup
    obtain ⟨hp, hpartner⟩ := List.forall_mem_cons.mp h.partner
    obtain ⟨hfree, hrest⟩ := List.forall_mem_cons.mp htaken
    simp only at hp
    simp only [NameTable.checkFrom, hp]
    have htaken' : ∀ p ∈ t, ρ p.1 ∉ ρ n :: taken := by
      intro p hp hm
      rcases List.mem_cons.mp hm with he | hm
      · have hsame := hρ p (List.mem_cons_of_mem _ hp) (n, seen) List.mem_cons_self he
        have hkey := List.mem_map_of_mem (f := Prod.fst) hp
        rw [hsame] at hkey
        exact hn hkey
      · exact hrest p hp hm
    have hi := ih ⟨ht, hpartner⟩ (fun p hp q hq => hρ p (List.mem_cons_of_mem _ hp) q (List.mem_cons_of_mem _ hq))
      htaken'
    simpa [hi] using hfree

end Isolate.NameTable
