import Isolate.Proofs.Matching.Composition

/-!
# The names in a tree

Names are those of variables and those of functions (`Kind`); a `Renaming` has a map for each kind. Whether two trees are
alike is a matter of the names that the first one mentions (`Expr.AlikeBy.congr`), and likeness takes them to the names
that the second one mentions (`Expr.AlikeBy.mentions` and `Expr.AlikeBy.mentioned`).
-/

namespace Isolate

/-- What a name stands for. -/
inductive Kind where
  | var
  | call
  deriving DecidableEq, Repr

/-- A map of names for each kind. -/
abbrev Renaming := Kind → String → String

/-- The renaming that has these maps. -/
def Renaming.ofMaps (v f : String → String) : Renaming
  | .var => v
  | .call => f

/-- No two names of a kind that are in the set get one name. -/
def Renaming.InjectiveOn (ρ : Renaming) (T : Kind → String → Prop) : Prop :=
  ∀ k m n, T k m → T k n → ρ k m = ρ k n → m = n

/-- Is it the name of the node itself? -/
def Shape.Has (k : Kind) (name : String) : Shape α → Prop
  | var m => k = .var ∧ m = name
  | call m _ => k = .call ∧ m = name
  | _ => False

@[simp] theorem Shape.has_map (f : α → β) (k : Kind) (name : String) (b : Shape α) :
    (b.map f).Has k name ↔ b.Has k name := by
  cases b <;> rfl

namespace Expr

/-- Does the name occur in the tree? -/
def Mentions (e : Expr) (k : Kind) (name : String) : Prop := ¬e.Everywhere fun a => ¬a.shape.Has k name

variable {a b : Expr} {k : Kind} {m n : String}

theorem mentions_iff : a.Mentions k n ↔ a.shape.Has k n ∨ ∃ d ∈ a.children, d.Mentions k n := by
  unfold Mentions
  rw [everywhere_iff, not_and_or, not_not]
  simp only [not_forall, exists_prop]

@[simp] theorem not_mentions_number {q : Rat} : ¬(number q).Mentions k n := by
  rw [mentions_iff]
  simp [number, ofShape, children, Shape.Has, Shape.children]

@[simp] theorem mentions_var : (var m).Mentions k n ↔ k = .var ∧ m = n := by
  rw [mentions_iff]
  simp [var, ofShape, children, Shape.Has, Shape.children]

@[simp] theorem mentions_pow : (a.pow b).Mentions k n ↔ a.Mentions k n ∨ b.Mentions k n := by
  rw [mentions_iff]
  simp [pow, ofShape, children, Shape.Has, Shape.children]

@[simp] theorem mentions_call {as : List Expr} :
    (call m as).Mentions k n ↔ k = .call ∧ m = n ∨ ∃ a ∈ as, a.Mentions k n := by
  rw [mentions_iff]
  simp [call, ofShape, children, Shape.Has, Shape.children]

/-- Alike, with names that are related by their kinds. -/
def AlikeBy (R : Kind → String → String → Prop) (a b : Expr) : Prop := a.Alike (R .var) (R .call) b

variable {R R' : Kind → String → String → Prop}

theorem alikeBy_iff : a.AlikeBy R b ↔ a.sign = b.sign ∧ Shape.Corr (R .var) (R .call) (AlikeBy R) a.shape b.shape :=
  alike_iff

/-- Names that a tree does not mention have no part in what it is alike. -/
theorem AlikeBy.congr (h : a.AlikeBy R b) (hR : ∀ k m n, a.Mentions k m → R k m n → R' k m n) : a.AlikeBy R' b := by
  induction a using Expr.induction generalizing b with
  | h a ih =>
    obtain ⟨hs, hc⟩ := alikeBy_iff.mp h
    have hchildren : ∀ d ∈ a.children, ∀ e, d.AlikeBy R e → d.AlikeBy R' e := fun d hd e hde =>
      ih d hd hde fun k m n hm => hR k m n (mentions_iff.mpr (.inr ⟨d, hd, hm⟩))
    have hhas : ∀ k m n, a.shape.Has k m → R k m n → R' k m n := fun k m n hm => hR k m n (mentions_iff.mpr (.inl hm))
    refine alikeBy_iff.mpr ⟨hs, ?_⟩
    have hoperands : Shape.Corr (R .var) (R .call) (AlikeBy R') a.shape b.shape :=
      hc.imp (fun _ _ => id) (fun _ _ => id) hchildren
    cases ha : a.shape <;> cases hb : b.shape <;> rw [ha, hb] at hoperands <;> rw [ha] at hhas <;>
      simp only [Shape.Corr] at hoperands ⊢
    case var.var m n => exact hhas .var m n ⟨rfl, rfl⟩ hoperands
    case call.call m as n bs => exact ⟨hhas .call m n ⟨rfl, rfl⟩ hoperands.1, hoperands.2⟩
    all_goals exact hoperands

/-- **A name is related to one that is mentioned on the other side.** -/
theorem AlikeBy.mentions (h : a.AlikeBy R b) (hm : a.Mentions k m) : ∃ n, R k m n ∧ b.Mentions k n := by
  induction a using Expr.induction generalizing b with
  | h a ih =>
    rcases mentions_iff.mp hm with hhas | ⟨d, hd, hm⟩
    · have hc := (alikeBy_iff.mp h).2
      have hhere : ∀ n, b.shape.Has k n → b.Mentions k n := fun n hn => mentions_iff.mpr (.inl hn)
      cases ha : a.shape <;> rw [ha] at hhas hc <;> simp only [Shape.Has] at hhas <;> obtain ⟨rfl, rfl⟩ := hhas <;>
        cases hb : b.shape <;> rw [hb] at hc hhere <;> simp only [Shape.Corr] at hc
      case var.var n => exact ⟨n, hc, hhere n ⟨rfl, rfl⟩⟩
      case call.call n bs => exact ⟨n, hc.1, hhere n ⟨rfl, rfl⟩⟩
    · obtain ⟨e, he, hde⟩ := (Alike.children h).exists_related hd
      obtain ⟨n, hn, hmn⟩ := ih d hd hde hm
      exact ⟨n, hn, mentions_iff.mpr (.inr ⟨e, he, hmn⟩)⟩

/-- **A name that is mentioned on the other side is related to one that is mentioned here.** -/
theorem AlikeBy.mentioned (h : a.AlikeBy R b) (hn : b.Mentions k n) : ∃ m, R k m n ∧ a.Mentions k m := by
  have hflip : b.AlikeBy (fun k => flip (R k)) a := Alike.symm h
  exact hflip.mentions hn

theorem Rearranges.mentions_iff (h : a.Rearranges b) : a.Mentions k n ↔ b.Mentions k n := by
  have heq : a.AlikeBy (fun _ => Eq) b := h
  constructor
  · intro hn
    obtain ⟨m, rfl, hm⟩ := heq.mentions hn
    exact hm
  · intro hn
    obtain ⟨m, rfl, hm⟩ := heq.mentioned hn
    exact hm

/-! ## Renamings -/

/-- The second tree is the first one renamed, in another order. -/
def LikeBy (ρ : Renaming) (a b : Expr) : Prop := a.AlikeBy (fun k m n => ρ k m = n) b

variable {ρ ρ' : Renaming} {c d : Expr}

/-- Renamings that agree on the names of a tree make the same of it. -/
theorem LikeBy.congr (h : a.LikeBy ρ b) (hρ : ∀ k m, a.Mentions k m → ρ' k m = ρ k m) : a.LikeBy ρ' b :=
  AlikeBy.congr h fun k m _ hm hmn => (hρ k m hm).trans hmn

theorem LikeBy.mentions (h : a.LikeBy ρ b) (hm : a.Mentions k m) : b.Mentions k (ρ k m) := by
  obtain ⟨n, rfl, hn⟩ := AlikeBy.mentions h hm
  exact hn

theorem LikeBy.mentioned (h : a.LikeBy ρ b) (hn : b.Mentions k n) : ∃ m, a.Mentions k m ∧ ρ k m = n := by
  obtain ⟨m, hmn, hm⟩ := AlikeBy.mentioned h hn
  exact ⟨m, hm, hmn⟩

theorem LikeBy.rearranged (h : a.LikeBy ρ b) (ha : a.Rearranges c) (hb : b.Rearranges d) : c.LikeBy ρ d :=
  (ha.symm.alike h).rearranges hb

end Expr

end Isolate
