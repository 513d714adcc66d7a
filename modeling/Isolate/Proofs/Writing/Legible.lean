import Isolate.Expr.Printing
import Isolate.Proofs.Tree.Bare
import Isolate.Proofs.Writing.Chains

/-!
# How texts stand in texts

A node is written from its operands, and how these may stand in it is told by how their texts are read
(`Expr.IsLegible`): in every case as a sum, as a chain of factors if the node is not compound, and as a single operand
if it is not written as several factors side by side either (`Expr.isBareProduct`).

* `Expr.IsLegible.operand`, `Expr.IsLegible.factor` and `Expr.IsLegible.divisor`: the places where a text can stand.
* `Expr.isLegible_of_body`: the sign in front, for every node alike.
-/

namespace Isolate

/-! ## Nodes as they are written -/

/-- Is a node written as several factors side by side, given the same of its operands? -/
def Shape.isBareProduct : Shape Bool → Bool
  | sum [⟨[f], []⟩] => f
  | sum [⟨_ :: _ :: _, []⟩] => true
  | _ => false

/-- Is the expression written as several factors side by side? -/
def Expr.isBareProduct (e : Expr) : Bool := e.fold fun _ b => b.isBareProduct

namespace Shape

@[simp] theorem isAtom_map (f : α → β) (b : Shape α) : (b.map f).isAtom = b.isAtom := by cases b <;> rfl

@[simp] theorem isLoose_map (f : α → β) (b : Shape α) : (b.map f).isLoose = b.isLoose := by
  cases b with
  | sum ts => simp [map, isLoose]
  | _ => rfl

@[simp] theorem isCompound_map (f : α → β) (b : Shape α) : (b.map f).isCompound = b.isCompound := by
  cases b with
  | sum ts =>
    match ts with
    | [] => rfl
    | [t] => simp [map, isCompound, Ratio.map]
    | t :: u :: ts => simp [map, isCompound]
  | _ => rfl

theorem isLoose_eq_false {b : Shape α} (h : b.isCompound = false) : b.isLoose = false := by
  cases b with
  | modulo a c => cases h
  | sum ts =>
    match ts with
    | [] => rfl
    | [t] => rfl
    | t :: u :: ts => simp [isCompound] at h
  | _ => rfl

theorem isAtom_eq_false {b : Shape α} (h : b.isLoose = true) : b.isAtom = false := by
  cases b with
  | modulo a c => rfl
  | sum ts => rfl
  | _ => cases h

end Shape

namespace Expr

variable {e : Expr}

theorem piece_eq (e : Expr) : e.piece = pieceStep e (e.shape.map piece) := fold_eq ..

theorem isBareProduct_eq (e : Expr) : e.isBareProduct = (e.shape.map isBareProduct).isBareProduct := fold_eq ..

/-- The text of a node without its sign. -/
def body (e : Expr) : String := (e.shape.map piece).text

theorem text_of_pos (h : e.sign = .pos) : e.text = e.body := by
  rw [text, piece_eq, pieceStep, h]
  rfl

theorem text_of_neg (h : e.sign = .neg) :
    e.text = "-" ++ if e.shape.isLoose then Piece.bracketed e.body else e.body := by
  rw [text, piece_eq, pieceStep, h, ← Shape.isLoose_map piece]
  rfl

theorem isAtom_piece (e : Expr) : e.piece.isAtom = (e.sign = .pos && e.shape.isAtom) := by
  rw [piece_eq, pieceStep, Shape.isAtom_map]

theorem isCompound_piece (e : Expr) : e.piece.isCompound = e.shape.isCompound := by
  rw [piece_eq, pieceStep, Shape.isCompound_map]

theorem keeps_of_shape {I : Interpretation} {a b : Expr} (hsign : a.sign = b.sign) (hshape : a.shape = b.shape) :
    a.Keeps I b :=
  fun h => ⟨(isDefined_of_shape hshape).mp h, by rw [value_eq, value_eq I a, hsign, hshape]⟩

theorem neg_abs_of_neg (h : e.sign = .neg) : e.abs.neg = e := by
  obtain ⟨s, b, c⟩ := e
  obtain rfl : s = .neg := h
  rfl

end Expr

/-! ## How a text may stand among others -/

theorem lexemes_bracketed (s : String) : lexemes (Piece.bracketed s) = .opening :: (lexemes s ++ [.closing]) := by
  have hclosing : lexemes (s ++ ")") = lexemes s ++ [.closing] := lexemes_append_breaks (by decide)
  rw [Piece.bracketed, String.append_assoc, lexemes_breaks_append (by decide), hclosing]
  rfl

namespace Expr

/-- How the text of an expression is read, by itself and as a part of others. -/
structure IsLegible (e : Expr) : Prop where
  sum : e.ReadsAs .sum (lexemes e.text)
  chain : e.shape.isCompound = false → e.ChainsAs (lexemes e.text)
  signed : e.shape.isCompound = false → e.isBareProduct = false → e.ReadsAs .signed (lexemes e.text)
  atom : e.sign = .pos → e.shape.isAtom = true → e.ReadsAs .atom (lexemes e.text)

namespace IsLegible

variable {e : Expr} (h : e.IsLegible)
include h

theorem bracketed : e.ReadsAs .atom (lexemes (Piece.bracketed e.text)) := by
  rw [lexemes_bracketed]
  exact h.sum.group

/-- As an operand of a binding operator. -/
theorem operand : e.ReadsAs .atom (lexemes e.piece.operand) := by
  unfold Piece.operand
  split
  · rename_i hatom
    rw [isAtom_piece, Bool.and_eq_true, decide_eq_true_eq] at hatom
    exact h.atom hatom.1 hatom.2
  · exact h.bracketed

/-- As a factor. -/
theorem factor : e.ChainsAs (lexemes e.piece.factor) := by
  unfold Piece.factor
  split
  · exact h.bracketed.signed.chain
  · rename_i hcompound
    rw [isCompound_piece, Bool.not_eq_true] at hcompound
    exact h.chain hcompound

/-- As a divisor that stands alone. -/
theorem divisor (hbare : e.isBareProduct = false) : e.ReadsAs .signed (lexemes e.piece.factor) := by
  unfold Piece.factor
  split
  · exact h.bracketed.signed
  · rename_i hcompound
    rw [isCompound_piece, Bool.not_eq_true] at hcompound
    exact h.signed hcompound hbare

end IsLegible

/-- **The sign in front of a node.** How the text of a node is read is told by its text without the sign. -/
theorem isLegible_of_body {e : Expr} (hsum : e.shape.isLoose = true → e.abs.ReadsAs .sum (lexemes e.body))
    (hchain : e.shape.isLoose = false → e.abs.ChainsAs (lexemes e.body))
    (hsigned : e.shape.isCompound = false → e.isBareProduct = false → e.abs.ReadsAs .signed (lexemes e.body))
    (hatom : e.shape.isAtom = true → e.abs.ReadsAs .atom (lexemes e.body)) : e.IsLegible := by
  cases hs : e.sign with
  | pos =>
    rw [abs_of_pos hs, ← text_of_pos hs] at hsum hchain hsigned hatom
    refine ⟨?_, fun hcompound => hchain (Shape.isLoose_eq_false hcompound), hsigned, fun _ => hatom⟩
    cases hloose : e.shape.isLoose with
    | true => exact hsum hloose
    | false => exact (hchain hloose).sum
  | neg =>
    have hpos : e.sign = .pos → e.shape.isAtom = true → e.ReadsAs .atom (lexemes e.text) := fun hp => by
      rw [hs] at hp
      cases hp
    have htext : lexemes e.text = .minus :: lexemes (if e.shape.isLoose then Piece.bracketed e.body else e.body) := by
      rw [text_of_neg hs]
      exact lexemes_breaks_append (by decide)
    cases hloose : e.shape.isLoose with
    | true =>
      have hread : e.ReadsAs .signed (lexemes e.text) := by
        rw [htext, hloose, if_pos rfl, lexemes_bracketed, ← neg_abs_of_neg hs]
        exact (hsum hloose).group.signed.neg
      exact ⟨hread.chain.sum, fun _ => hread.chain, fun _ _ => hread, hpos⟩
    | false =>
      rw [hloose, if_neg Bool.false_ne_true] at htext
      have hread : e.ChainsAs (lexemes e.text) := by
        rw [htext]
        conv => arg 1; rw [← neg_abs_of_neg hs]
        exact (hchain hloose).neg
      refine ⟨hread.sum, fun _ => hread, fun hcompound hbare => ?_, hpos⟩
      rw [htext]
      conv => arg 2; rw [← neg_abs_of_neg hs]
      exact (hsigned hcompound hbare).neg

/-- A node that needs brackets behind a minus. -/
theorem isLegible_of_loose {e : Expr} (h : e.abs.ReadsAs .sum (lexemes e.body)) (hloose : e.shape.isLoose = true) :
    e.IsLegible := by
  refine isLegible_of_body (fun _ => h) (fun hfalse => ?_) (fun hcompound => ?_) fun hatom => ?_
  · rw [hloose] at hfalse
    cases hfalse
  · rw [Shape.isLoose_eq_false hcompound] at hloose
    cases hloose
  · rw [Shape.isAtom_eq_false hloose] at hatom
    cases hatom

/-- A node whose text, without the sign, is one operand. -/
theorem isLegible_of_signed {e : Expr} (h : e.abs.ReadsAs .signed (lexemes e.body)) (hatom : e.shape.isAtom = false) :
    e.IsLegible := by
  refine isLegible_of_body (fun _ => h.chain.sum) (fun _ => h.chain) (fun _ _ => h) fun htrue => ?_
  rw [hatom] at htrue
  cases htrue

theorem isLegible_of_atom {e : Expr} (h : e.abs.ReadsAs .atom (lexemes e.body)) : e.IsLegible :=
  isLegible_of_body (fun _ => h.signed.chain.sum) (fun _ => h.signed.chain) (fun _ _ => h.signed) fun _ => h

end Expr

end Isolate
