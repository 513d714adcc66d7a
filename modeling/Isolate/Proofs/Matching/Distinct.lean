import Isolate.Proofs.Entries
import Isolate.Proofs.Matching.Diagonal
import Isolate.Proofs.Matching.Mentions
import Isolate.Proofs.Matching.Sound

/-!
# Observed names as maps

A comparison keeps whatever is kept when one more pair of names is noted (`Expr.keeps_of_record`). So names that have
been observed in a match are noted once each (`Names.IsDistinct`, `Expr.keeps_matcher`). If a table of such names passes
the check, its first partners make an injective map (`NameTable.isInjective_of_check`), and this map holds every pair
that was ever noted (`NameTable.within_rename`).
-/

namespace Isolate

/-! ## Tables as maps -/

namespace NameTable

/-- The partner of a name; a name that is not noted stays. -/
def rename (t : NameTable) (name : String) : String := (t.firstPartners.lookup name).getD name

/-- The first partners make an injective map: no name is there twice, and no partner. -/
structure IsInjective (t : NameTable) : Prop where
  left : (t.firstPartners.map Prod.fst).Nodup
  right : (t.firstPartners.map Prod.snd).Nodup

/-- The map of the first partners holds the name. -/
def Covers (t : NameTable) (name : String) : Prop := name ∈ t.firstPartners.map Prod.fst

variable {t : NameTable} {taken seen : List String} {name right : String}

theorem partner?_eq_some (h : partner? seen = some right) : seen.head? = some right ∧ ∀ r ∈ seen, r = right := by
  cases seen with
  | nil => cases h
  | cons first rest =>
    rw [partner?] at h
    split at h
    · rename_i hall
      obtain rfl := Option.some.inj h
      refine ⟨rfl, List.forall_mem_cons.mpr ⟨rfl, fun r hr => ?_⟩⟩
      exact of_decide_eq_true (List.all_eq_true.mp hall r hr)
    · cases h

/-- In a table that passes the check, every name has its first partner and no other, and no partner is shared. -/
theorem firstPartners_of_checkFrom (h : t.checkFrom taken = true) :
    t.firstPartners.map Prod.fst = t.map Prod.fst ∧ (t.firstPartners.map Prod.snd).Nodup ∧
      (∀ r ∈ t.firstPartners.map Prod.snd, r ∉ taken) ∧ t.Within fun n r => (n, r) ∈ t.firstPartners := by
  induction t generalizing taken with
  | nil => exact ⟨rfl, List.nodup_nil, List.forall_mem_nil _, List.forall_mem_nil _⟩
  | cons p t ih =>
    obtain ⟨n, seen⟩ := p
    rw [checkFrom] at h
    split at h
    · cases h
    · rename_i right hright
      obtain ⟨htaken, hrest⟩ := Bool.and_eq_true_iff.mp h
      obtain ⟨hhead, hall⟩ := partner?_eq_some hright
      obtain ⟨hkeys, hnodup, hfree, hwithin⟩ := ih hrest
      have hcons : firstPartners ((n, seen) :: t) = (n, right) :: firstPartners t := by
        simp [firstPartners, hhead]
      simp only [Bool.not_eq_true', List.contains_eq_mem, decide_eq_false_iff_not] at htaken
      rw [hcons]
      refine ⟨by rw [List.map_cons, List.map_cons, hkeys], ?_, ?_, ?_⟩
      · exact List.nodup_cons.mpr ⟨fun hr => hfree right hr List.mem_cons_self, hnodup⟩
      · rw [List.map_cons]
        refine List.forall_mem_cons.mpr ⟨htaken, fun r hr hmem => ?_⟩
        exact hfree r hr (List.mem_cons_of_mem _ hmem)
      · refine within_cons.mpr ⟨fun r hr => ?_, fun p hp r hr => List.mem_cons_of_mem _ (hwithin p hp r hr)⟩
        rw [hall r hr]
        exact List.mem_cons_self

theorem isInjective_of_check (hn : (t.map Prod.fst).Nodup) (h : t.check = true) : t.IsInjective := by
  obtain ⟨hkeys, hright, -, -⟩ := firstPartners_of_checkFrom h
  exact ⟨by rw [hkeys]; exact hn, hright⟩

/-- The map of a table that passes the check holds every pair that was noted. -/
theorem within_rename (hn : (t.map Prod.fst).Nodup) (h : t.check = true) :
    t.Within fun n r => t.Covers n ∧ t.rename n = r := by
  obtain ⟨-, -, -, hwithin⟩ := firstPartners_of_checkFrom h
  intro p hp r hr
  have hmem := hwithin p hp r hr
  refine ⟨List.mem_map_of_mem hmem, ?_⟩
  rw [rename, (lookup_eq_some_iff (isInjective_of_check hn h).left).mpr hmem, Option.getD_some]

theorem nodup_record (h : (t.map Prod.fst).Nodup) (left right : String) :
    ((t.record left right).map Prod.fst).Nodup := by
  induction t with
  | nil => exact List.nodup_singleton _
  | cons p t ih =>
    obtain ⟨n, seen⟩ := p
    obtain ⟨hn, ht⟩ := List.nodup_cons.mp h
    unfold record
    split
    · exact h
    · rename_i hne
      refine List.nodup_cons.mpr ⟨fun hm => ?_, ih ht⟩
      exact (mem_record.mp hm).elim hne hn

end NameTable

/-! ## What comparisons keep -/

/-- A pair of names of one kind is noted. -/
def Names.record (k : Kind) (left right : String) (names : Names) : Names :=
  match k with
  | .var => names.recordVariable left right
  | .call => names.recordFunction left right

namespace Matcher

variable {P : Names → Prop} {β : Type} {x y : StateM Names Bool}

/-- The run keeps a property of names, whether it matches or not. -/
def Keeps (P : Names → Prop) (x : StateM Names Bool) : Prop := ∀ names, P names → P (x.run names).2

theorem keeps_pure (b : Bool) : Keeps P (pure b) := fun _ => id

theorem keeps_and (hx : Keeps P x) (hy : Keeps P y) : Keeps P (do if ← x then y else return false) := by
  intro names hn
  rw [run_bind]
  split
  · exact hy _ (hx names hn)
  · exact hx names hn

theorem keeps_pairUp {ms : List (Matcher β)} (h : ∀ m ∈ ms, ∀ b, Keeps P (m b)) (bs : List β) :
    Keeps P (pairUp ms bs) := by
  induction ms generalizing bs with
  | nil => exact keeps_pure true
  | cons m ms ih =>
    obtain ⟨hm, hms⟩ := List.forall_mem_cons.mp h
    intro names hn
    rw [run_pairUp_cons]
    cases hfind : (picks bs).findSome? _ with
    | none => exact hn
    | some result =>
      obtain ⟨⟨b, rest⟩, -, hpick⟩ := List.exists_of_findSome?_eq_some hfind
      split at hpick
      · split at hpick
        · obtain rfl := Option.some.inj hpick
          exact ih hms rest _ (hm b names hn)
        · cases hpick
      · cases hpick

theorem keeps_list {ms : List (Matcher β)} (h : ∀ m ∈ ms, ∀ b, Keeps P (m b)) (bs : List β) :
    Keeps P (list .bijective ms bs) := by
  by_cases hlen : ms.length = bs.length
  · rw [list_bijective hlen]
    exact keeps_pairUp h bs
  · rw [list, if_pos hlen]
    exact keeps_pure false

theorem keeps_ratio {r : Ratio (Matcher Expr)} (h : ∀ m ∈ r.factors, ∀ b, Keeps P (m b)) (t : Ratio Expr) :
    Keeps P (ratio .bijective r t) :=
  keeps_and (keeps_list (fun m hm => h m (List.mem_append_left _ hm)) _)
    (keeps_list (fun m hm => h m (List.mem_append_right _ hm)) _)

/-- The matcher of a node keeps what those of the operands keep, and what is kept when its own name is noted. -/
theorem keeps_shape {b : Shape (Matcher Expr)}
    (hrecord : ∀ k m, b.Has k m → ∀ n names, P names → P (names.record k m n))
    (h : ∀ m ∈ b.children, ∀ c, Keeps P (m c)) (c : Shape Expr) : Keeps P (shape .bijective b c) := by
  cases b <;> cases c
  case number.number v w => exact keeps_pure _
  case var.var m n => exact hrecord .var m ⟨rfl, rfl⟩ n
  case power.power a d a' d' =>
    exact keeps_and (h a (by simp [Shape.children]) a') (h d (by simp [Shape.children]) d')
  case modulo.modulo a d a' d' =>
    exact keeps_and (h a (by simp [Shape.children]) a') (h d (by simp [Shape.children]) d')
  case factorial.factorial a a' => exact h a (by simp [Shape.children]) a'
  case call.call m as n bs => exact keeps_and (keeps_list h bs) (hrecord .call m ⟨rfl, rfl⟩ n)
  case sum.sum ts us =>
    refine keeps_list (fun m hm => ?_) us
    obtain ⟨t, ht, rfl⟩ := List.mem_map.mp hm
    exact keeps_ratio fun a ha => h a (List.mem_flatMap.mpr ⟨t, ht, ha⟩)
  all_goals exact keeps_pure false

end Matcher

/-- **A comparison keeps what is kept when names of the tree are noted.** -/
theorem Expr.keeps_of_record {P : Names → Prop} (a b : Expr)
    (hrecord : ∀ k m, a.Mentions k m → ∀ n names, P names → P (names.record k m n)) :
    Matcher.Keeps P (a.matcher .bijective b) := by
  induction a using Expr.induction generalizing b with
  | h a ih =>
    rw [matcher_eq]
    by_cases hs : a.sign = b.sign
    · simp only [if_pos hs]
      refine Matcher.keeps_shape (fun k m hm => ?_) (fun m hm => ?_) b.shape
      · exact hrecord k m (mentions_iff.mpr (.inl ((Shape.has_map _ k m a.shape).mp hm)))
      · rw [Shape.children_map] at hm
        obtain ⟨d, hd, rfl⟩ := List.mem_map.mp hm
        exact fun c => ih d hd c fun k m hm => hrecord k m (mentions_iff.mpr (.inr ⟨d, hd, hm⟩))
    · simp only [if_neg hs]
      exact Matcher.keeps_pure false

/-! ## Every name is noted once -/

/-- No name is noted twice. -/
def Names.IsDistinct (names : Names) : Prop :=
  (names.vars.map Prod.fst).Nodup ∧ (names.functions.map Prod.fst).Nodup

theorem Names.IsDistinct.record {names : Names} (h : names.IsDistinct) (k : Kind) (left right : String) :
    (names.record k left right).IsDistinct := by
  cases k with
  | var => exact ⟨NameTable.nodup_record h.1 left right, h.2⟩
  | call => exact ⟨h.1, NameTable.nodup_record h.2 left right⟩

/-- The run keeps names distinct, whether it matches or not. -/
def Matcher.KeepsDistinct (x : StateM Names Bool) : Prop :=
  ∀ names : Names, names.IsDistinct → (x.run names).2.IsDistinct

theorem Expr.keeps_matcher (a b : Expr) : Matcher.KeepsDistinct (a.matcher .bijective b) :=
  a.keeps_of_record b fun k m _ n _ hn => hn.record k m n

theorem Ratio.keeps_matcher (t u : Ratio Expr) : Matcher.KeepsDistinct (t.matcher .bijective u) := by
  refine Matcher.keeps_ratio (fun m hm => ?_) u
  rw [factors_map] at hm
  obtain ⟨a, -, rfl⟩ := List.mem_map.mp hm
  exact a.keeps_matcher

end Isolate
