import Isolate.Proofs.Matching.Distinct
import Isolate.Proofs.Matching.Following

/-!
# Renamings that fit

A renaming *fits* the names observed so far if it is injective and makes of each of them what was observed
(`Names.Fits`). Say that a tree is the same as another one up to a renaming that fits, and that a comparison of the two
has found them to be the same. It may have gone by another renaming, but the two can be exchanged: there is one that fits
what has been observed by then, and it differs from the first one on names of the tree only (`Names.Fits.exchange`).
-/

namespace Isolate

/-! ## Tables that pass the check -/

namespace NameTable

variable {t : NameTable} {taken : List String} {m n : String}

theorem exists_partner_of_checkFrom (h : t.checkFrom taken = true) : ∀ p ∈ t, ∃ right, partner? p.2 = some right := by
  induction t generalizing taken with
  | nil => exact List.forall_mem_nil _
  | cons p t ih =>
    obtain ⟨name, seen⟩ := p
    rw [checkFrom] at h
    split at h
    · cases h
    · rename_i right hright
      exact List.forall_mem_cons.mpr ⟨⟨right, hright⟩, ih (Bool.and_eq_true_iff.mp h).2⟩

/-- A table that passes the check follows the map of the first partners. -/
theorem follows_rename (hn : (t.map Prod.fst).Nodup) (h : t.check = true) : t.Follows t.rename := by
  refine ⟨hn, fun p hp => ?_⟩
  obtain ⟨right, hright⟩ := exists_partner_of_checkFrom h p hp
  obtain ⟨hhead, -⟩ := partner?_eq_some hright
  rw [hright, (within_rename hn h p hp right (List.mem_of_mem_head? hhead)).2]

theorem covers_iff (h : t.check = true) : t.Covers n ↔ n ∈ t.map Prod.fst := by
  rw [Covers, (firstPartners_of_checkFrom h).1]

/-- In a table that passes the check, no two names have one partner. -/
theorem rename_injective (hn : (t.map Prod.fst).Nodup) (h : t.check = true) (hm : t.Covers m) (hn' : t.Covers n)
    (heq : t.rename m = t.rename n) : m = n := by
  have hinjective := isInjective_of_check hn h
  have hpair : ∀ name, t.Covers name → (name, t.rename name) ∈ t.firstPartners := by
    intro name hname
    obtain ⟨⟨name', right⟩, hmem, rfl⟩ := List.mem_map.mp hname
    rwa [rename, (lookup_eq_some_iff hinjective.left).mpr hmem, Option.getD_some]
  have hsame := List.inj_on_of_nodup_map hinjective.right (hpair m hm) (hpair n hn') heq
  exact congrArg Prod.fst hsame

end NameTable

/-! ## Names of both kinds -/

namespace Names

def table (k : Kind) (names : Names) : NameTable :=
  match k with
  | .var => names.vars
  | .call => names.functions

/-- The names that have been observed on the left. -/
def Notes (names : Names) (k : Kind) (name : String) : Prop := name ∈ (names.table k).map Prod.fst

/-- The renaming that the first partners make. -/
def observed (names : Names) : Renaming := fun k => (names.table k).rename

variable {names : Names} {k l : Kind} {m n : String}

theorem table_record (k : Kind) (m n : String) (names : Names) :
    (names.record k m n).table l = if l = k then (names.table l).record m n else names.table l := by
  cases k <;> cases l <;> rfl

theorem notes_record : (names.record k m n).Notes l n' ↔ l = k ∧ n' = m ∨ names.Notes l n' := by
  rw [Notes, table_record]
  split
  · rename_i h
    rw [NameTable.mem_record]
    simp [h, Notes]
  · rename_i h
    simp [h, Notes]

/-- The renaming is injective on the names of a set, and makes of each observed name, all from that set, what was
observed. -/
structure Fits (T : Kind → String → Prop) (ρ : Renaming) (names : Names) : Prop where
  injective : ρ.InjectiveOn T
  notes : ∀ k n, names.Notes k n → T k n
  follows : ∀ k, (names.table k).Follows (ρ k)

variable {T : Kind → String → Prop} {ρ : Renaming}

theorem fits_empty (h : ρ.InjectiveOn T) : ({} : Names).Fits T ρ := by
  refine ⟨h, fun k n hn => ?_, fun k => ?_⟩
  · cases k <;> cases hn
  · cases k <;> exact NameTable.follows_nil _

namespace Fits

theorem check (h : names.Fits T ρ) : names.check = true := by
  have htable : ∀ k, (names.table k).check = true := fun k =>
    (h.follows k).checkFrom (fun p hp q hq => h.injective k p.1 q.1 (h.notes k _ (List.mem_map_of_mem hp))
      (h.notes k _ (List.mem_map_of_mem hq))) fun p _ hm => by cases hm
  exact Bool.and_eq_true_iff.mpr ⟨htable .var, htable .call⟩

theorem record (h : names.Fits T ρ) (hm : T k m) : (names.record k m (ρ k m)).Fits T ρ := by
  refine ⟨h.injective, fun l n hn => ?_, fun l => ?_⟩
  · rcases notes_record.mp hn with ⟨rfl, rfl⟩ | hn
    · exact hm
    · exact h.notes l n hn
  · rw [table_record]
    split
    · rename_i hl
      subst hl
      exact (h.follows l).record m
    · exact h.follows l

theorem distinct (h : names.Fits T ρ) : names.IsDistinct := ⟨(h.follows .var).nodup, (h.follows .call).nodup⟩

end Fits

/-- The renaming that the observed names make, if they pass the check. -/
theorem follows_observed (hn : names.IsDistinct) (h : names.check = true) (k : Kind) :
    (names.table k).Follows (names.observed k) := by
  obtain ⟨hv, hf⟩ := Bool.and_eq_true_iff.mp h
  cases k
  · exact NameTable.follows_rename hn.1 hv
  · exact NameTable.follows_rename hn.2 hf

theorem observed_injective (hn : names.IsDistinct) (h : names.check = true) (hm : names.Notes k m)
    (hn' : names.Notes k n) (heq : names.observed k m = names.observed k n) : m = n := by
  obtain ⟨hv, hf⟩ := Bool.and_eq_true_iff.mp h
  cases k
  · exact NameTable.rename_injective hn.1 hv ((NameTable.covers_iff hv).mpr hm) ((NameTable.covers_iff hv).mpr hn') heq
  · exact NameTable.rename_injective hn.2 hf ((NameTable.covers_iff hf).mpr hm) ((NameTable.covers_iff hf).mpr hn') heq

/-- Every name is related to its observed partners if it is related to the one that the renaming gives. -/
theorem within_observed (hn : names.IsDistinct) (h : names.check = true) :
    names.Within (fun m n => names.Notes .var m ∧ names.observed .var m = n)
      (fun m n => names.Notes .call m ∧ names.observed .call m = n) := by
  obtain ⟨hv, hf⟩ := Bool.and_eq_true_iff.mp h
  have htable : ∀ (k : Kind) (t : NameTable), (t.map Prod.fst).Nodup → t.check = true →
      t.Within fun m n => m ∈ t.map Prod.fst ∧ t.rename m = n := by
    intro k t ht hcheck p hp r hr
    exact ⟨List.mem_map_of_mem hp, (NameTable.within_rename ht hcheck p hp r hr).2⟩
  exact ⟨htable .var _ hn.1 hv, htable .call _ hn.2 hf⟩

end Names

/-! ## Exchanging renamings -/

/-- What is known of a run that compares two trees, whatever renaming it goes by. -/
structure Matcher.Compares (x : StateM Names Bool) (e b : Expr) : Prop where
  tells : ∀ R : Kind → String → String → Prop, RunTells (R .var) (R .call) x (e.AlikeBy R b)
  keeps : ∀ P : Names → Prop, (∀ k m, e.Mentions k m → ∀ n names, P names → P (names.record k m n)) → Keeps P x

variable {T : Kind → String → Prop} {ρ : Renaming} {names : Names} {x : StateM Names Bool} {e b : Expr}

/-- What the observed names are before a run, they are after it. -/
theorem Names.Fits.observed_eq (h : names.Fits T ρ) {found : Names}
    (hwithin : names.Within (fun m n => found.Notes .var m ∧ found.observed .var m = n)
      (fun m n => found.Notes .call m ∧ found.observed .call m = n)) {k : Kind} {n : String} (hn : names.Notes k n) :
    found.observed k n = ρ k n := by
  obtain ⟨p, hp, rfl⟩ := List.mem_map.mp hn
  obtain ⟨hhead, -⟩ := NameTable.partner?_eq_some ((h.follows k).partner p hp)
  have hpartner := List.mem_of_mem_head? hhead
  cases k
  · exact (hwithin.1 p hp _ hpartner).2
  · exact (hwithin.2 p hp _ hpartner).2

open scoped Classical in
/-- One renaming on the names of a tree, and another one elsewhere. -/
noncomputable def Renaming.patch (e : Expr) (σ ρ : Renaming) : Renaming := fun k n =>
  if e.Mentions k n then σ k n else ρ k n

theorem Renaming.patch_of_mentions {σ ρ : Renaming} {k : Kind} {n : String} (h : e.Mentions k n) :
    patch e σ ρ k n = σ k n := if_pos h

theorem Renaming.patch_of_not_mentions {σ ρ : Renaming} {k : Kind} {n : String} (h : ¬e.Mentions k n) :
    patch e σ ρ k n = ρ k n := if_neg h

open Renaming (patch_of_mentions patch_of_not_mentions) in
/-- **The renaming that a comparison has gone by can be exchanged for the one that is known.** -/
theorem Names.Fits.exchange (h : names.Fits T ρ) (hx : Matcher.Compares x e b) (hT : ∀ k n, e.Mentions k n → T k n)
    (hlike : e.LikeBy ρ b) (hrun : (x.run names).1 = true) (hcheck : (x.run names).2.check = true) :
    ∃ ρ' : Renaming, (x.run names).2.Fits T ρ' ∧ e.LikeBy ρ' b ∧ ∀ k n, ¬e.Mentions k n → ρ' k n = ρ k n := by
  have hdistinct := hx.keeps Names.IsDistinct (fun k m _ n _ hn => hn.record k m n) names h.distinct
  have hnotes := hx.keeps (fun found => ∀ k n, found.Notes k n → e.Mentions k n ∨ names.Notes k n)
    (fun k m hm n found hfound l n' hn' => by
      rcases Names.notes_record.mp hn' with ⟨rfl, rfl⟩ | hn'
      · exact .inl hm
      · exact hfound l n' hn') names fun k n => .inr
  -- the comparison has gone by the observed renaming
  obtain ⟨hbefore, hobserved⟩ := hx.tells
    (fun k m n => (x.run names).2.Notes k m ∧ (x.run names).2.observed k m = n) names hrun
    (Names.within_observed hdistinct hcheck)
  generalize (x.run names).2 = found at *
  -- a name outside of the tree goes elsewhere than the names of the tree
  have hapart : ∀ k m n, e.Mentions k m → ¬e.Mentions k n → T k n → found.observed k m ≠ ρ k n := by
    intro k m n hm hn hTn heq
    obtain ⟨n', ⟨-, rfl⟩, hb⟩ := hobserved.mentions hm
    rw [heq] at hb
    obtain ⟨m', hm', hsame⟩ := hlike.mentioned hb
    rw [h.injective k m' n (hT k m' hm') hTn hsame] at hm'
    exact hn hm'
  refine ⟨.patch e found.observed ρ, ⟨?_, ?_, ?_⟩, ?_, fun k n => patch_of_not_mentions⟩
  · intro k m n hTm hTn heq
    by_cases hm : e.Mentions k m <;> by_cases hn : e.Mentions k n
    · rw [patch_of_mentions hm, patch_of_mentions hn] at heq
      obtain ⟨-, ⟨hm', -⟩, -⟩ := hobserved.mentions hm
      obtain ⟨-, ⟨hn', -⟩, -⟩ := hobserved.mentions hn
      exact Names.observed_injective hdistinct hcheck hm' hn' heq
    · rw [patch_of_mentions hm, patch_of_not_mentions hn] at heq
      exact absurd heq (hapart k m n hm hn hTn)
    · rw [patch_of_not_mentions hm, patch_of_mentions hn] at heq
      exact absurd heq.symm (hapart k n m hn hm hTm)
    · rw [patch_of_not_mentions hm, patch_of_not_mentions hn] at heq
      exact h.injective k m n hTm hTn heq
  · exact fun k n hn => (hnotes k n hn).elim (hT k n) (h.notes k n)
  · intro k
    have hfollows := Names.follows_observed hdistinct hcheck k
    refine ⟨hfollows.nodup, fun p hp => ?_⟩
    rw [hfollows.partner p hp]
    by_cases hm : e.Mentions k p.1
    · rw [patch_of_mentions hm]
    · have hn := (hnotes k p.1 (List.mem_map_of_mem hp)).resolve_left hm
      rw [patch_of_not_mentions hm, h.observed_eq hbefore hn]
  · exact hobserved.congr fun k m n hm hmn => (patch_of_mentions hm).trans hmn.2

end Isolate
