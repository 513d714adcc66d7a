import Isolate.Matching.Names
import Isolate.Expr.Order
import Isolate.Fault

/-!
# Matching up to renaming and order

Two trees match if one can be had from the other by renaming and by changing the order of terms, factors and arguments.
The pairs of names that stand at the same place are observed on the way (`Names`); whether they make a renaming is asked
afterwards, by `Names.check`.

Lists are compared in sorted order. In the mode `bijective` they are paired one to one, with backtracking, and a pairing
that is given up leaves no observation behind. In the mode `anyPair` it is enough that some item of one list matches
some item of the other, and every comparison made is observed.
-/

namespace Isolate

inductive MatchMode where
  | bijective
  | anyPair
  deriving DecidableEq, Repr

namespace MatchMode

def name : MatchMode → String
  | bijective => "bijective"
  | anyPair => "any_pair"

def ofName? : String → Option MatchMode
  | "bijective" => some bijective
  | "any_pair" => some anyPair
  | _ => none

end MatchMode

/-! ## Sorted order -/

/-- Puts the items of a second list into the order that sorts the first. -/
def sortAlong (le : α → α → Bool) (keys : List α) (items : List β) : List β :=
  ((keys.zip items).mergeSort fun p q => le p.1 q.1).map (·.2)

/-- Arranges the factors of a ratio; `t` holds them arranged inside. -/
def Ratio.arrange (key t : Ratio Expr) : Ratio Expr :=
  ⟨sortAlong Expr.le key.numerator t.numerator, sortAlong Expr.le key.denominator t.denominator⟩

/-- Arranges the operands of one node whose order has no meaning; `b` holds them arranged inside. -/
def Shape.arrange : Shape Expr → Shape Expr → Shape Expr
  | .call _ keys, .call n as => .call n (sortAlong Expr.le keys as)
  | .sum keys, .sum ts => .sum (sortAlong Ratio.le keys (List.zipWith Ratio.arrange keys ts))
  | _, b => b

/-- The same tree with terms, factors and arguments sorted throughout, by what they were before. -/
def Expr.arrange (e : Expr) : Expr := e.fold fun e b => ⟨e.sign, e.shape.arrange b, none⟩

theorem Expr.arrange_eq (e : Expr) : e.arrange = ⟨e.sign, e.shape.arrange (e.shape.map Expr.arrange), none⟩ :=
  fold_eq ..

/-- A list of expressions in sorted order, each of them arranged inside. -/
def arrangeExprs (es : List Expr) : List Expr := sortAlong Expr.le es (es.map Expr.arrange)

/-- A list of ratios in sorted order, each of them arranged inside. -/
def arrangeRatios (ts : List (Ratio Expr)) : List (Ratio Expr) :=
  sortAlong Ratio.le ts (ts.map fun t => t.arrange (t.map Expr.arrange))

/-! ## Matching arranged trees -/

/-- The left half of a comparison: it takes the right half, observes names and tells whether the two match. -/
abbrev Matcher (β : Type) := β → StateM Names Bool

namespace Matcher

/-- Every item of a list with the others, in order. -/
def picks : List β → List (β × List β)
  | [] => []
  | b :: bs => (b, bs) :: (picks bs).map fun (c, rest) => (c, b :: rest)

/-- Pairs two lists one to one. Each item takes the first partner with which the names so far make a renaming and the
rest can be paired; if there is none, nothing has been observed. -/
def pairUp : List (Matcher β) → List β → StateM Names Bool
  | [], _ => pure true
  | m :: ms, bs => fun names =>
    ((picks bs).findSome? fun (b, rest) =>
      match (m b).run names with
      | (false, _) => none
      | (true, trial) =>
        if trial.check then
          match (pairUp ms rest).run trial with
          | (false, _) => none
          | (true, trial) => some (true, trial)
        else none).getD (false, names)

/-- Compares one item with a list until a match has been found, now or before. -/
def seek (m : Matcher β) (found : Bool) : List β → StateM Names Bool
  | [] => pure found
  | b :: bs => do
    if (← m b) || found then return true else seek m false bs

/-- Looks for a match between any two items. -/
def anyPair (found : Bool) : List (Matcher β) → List β → StateM Names Bool
  | [], _ => pure found
  | m :: ms, bs => do anyPair (← seek m found bs) ms bs

/-- Compares two sorted lists. -/
def list (mode : MatchMode) (ms : List (Matcher β)) : Matcher (List β) := fun bs =>
  if ms.length ≠ bs.length then pure false
  else if ms.isEmpty then pure true
  else match mode with
    | .bijective => pairUp ms bs
    | .anyPair => anyPair false ms bs

/-- Compares two ratios. In the mode `anyPair` the denominators are compared even if the numerators do not match. -/
def ratio (mode : MatchMode) (r : Ratio (Matcher Expr)) : Matcher (Ratio Expr) := fun t => do
  match mode with
  | .bijective => if ← list mode r.numerator t.numerator then list mode r.denominator t.denominator else return false
  | .anyPair =>
    let numerator ← list mode r.numerator t.numerator
    let denominator ← list mode r.denominator t.denominator
    return numerator && denominator

/-- Compares two nodes, signs apart. -/
def shape (mode : MatchMode) (b : Shape (Matcher Expr)) : Matcher (Shape Expr) := fun c => do
  match b, c with
  | .number v, .number w => return v = w
  | .var m, .var n =>
    modify (Names.recordVariable m n)
    return true
  | .power a b, .power c d => if ← a c then b d else return false
  | .modulo a b, .modulo c d => if ← a c then b d else return false
  | .factorial a, .factorial c => a c
  | .call m as, .call n bs =>
    if ← list mode as bs then
      modify (Names.recordFunction m n)
      return true
    else return false
  | .sum ts, .sum us => list mode (ts.map (ratio mode)) us
  | _, _ => return false

end Matcher

/-- The matcher of an arranged expression. -/
def Expr.matcher (mode : MatchMode) (e : Expr) : Matcher Expr :=
  e.fold fun e b c => if e.sign = c.sign then Matcher.shape mode b c.shape else pure false

def Ratio.matcher (mode : MatchMode) (t : Ratio Expr) : Matcher (Ratio Expr) :=
  Matcher.ratio mode (t.map (Expr.matcher mode))

/-! ## What can be compared -/

/-- Anything that can be put on one side of a comparison. -/
inductive Comparable where
  | expr (e : Expr)
  | ratio (t : Ratio Expr)
  | terms (ts : List (Ratio Expr))
  | equation (q : Equation)
  | exprs (es : List Expr)
  | ratios (ts : List (Ratio Expr))
  /-- A list of other things, by how many of them follow the first. They cannot be sorted. -/
  | others (more : Nat)
  /-- Something else; messages call its kind by the given name. -/
  | other (kind : String)

namespace Comparable

/-- Are two lists of unlike items both empty? -/
def bothEmpty (as : List α) (bs : List β) : Bool := as.isEmpty && bs.isEmpty

/-- Compares lists of `m` and of `n` items, where one of them holds other things than trees. Lists of one length are
sorted before their items are compared. -/
def unsorted (m n : Nat) : Except Fault (StateM Names Bool) :=
  if m = n then .error .notRecord else .ok (pure false)

theorem unsorted_eq_ok {m n : Nat} {x : StateM Names Bool} : unsorted m n = .ok x ↔ m ≠ n ∧ pure false = x := by
  unfold unsorted
  split
  · rename_i h
    simp [h]
  · rename_i h
    simp [h]

/-- Compares side by side, up to the first sides that differ. -/
def sides (mode : MatchMode) : List Expr → List Expr → StateM Names Bool
  | a :: as, b :: bs => do if ← a.arrange.matcher mode b.arrange then sides mode as bs else return false
  | [], [] => return true
  | _, _ => return false

/-- Do two trees, or lists of trees, match? A thing of another kind on the left cannot be compared, and on the right
matches nothing. Lists that hold other things match nothing either, but they cannot be compared with lists of the same
length. -/
def isSame (mode : MatchMode) : Comparable → Comparable → Except Fault (StateM Names Bool)
  | .equation q, .equation r => .ok (if q.sides.length = r.sides.length then sides mode q.sides r.sides else pure false)
  | .expr a, .expr b => .ok (a.arrange.matcher mode b.arrange)
  | .terms ts, .terms us => .ok (Matcher.list mode ((arrangeRatios ts).map (Ratio.matcher mode)) (arrangeRatios us))
  | .ratio t, .ratio u => .ok ((t.arrange (t.map Expr.arrange)).matcher mode (u.arrange (u.map Expr.arrange)))
  | .exprs as, .exprs bs => .ok (Matcher.list mode ((arrangeExprs as).map (Expr.matcher mode)) (arrangeExprs bs))
  | .ratios ts, .ratios us => .ok (Matcher.list mode ((arrangeRatios ts).map (Ratio.matcher mode)) (arrangeRatios us))
  | .exprs as, .ratios us => .ok (pure (bothEmpty as us))
  | .ratios ts, .exprs bs => .ok (pure (bothEmpty ts bs))
  | .exprs as, .others n => unsorted as.length (n + 1)
  | .ratios ts, .others n => unsorted ts.length (n + 1)
  | .others m, .exprs bs => unsorted (m + 1) bs.length
  | .others m, .ratios us => unsorted (m + 1) us.length
  | .others m, .others n => unsorted (m + 1) (n + 1)
  | .other kind, _ => .error (.incomparable kind)
  | _, _ => .ok (pure false)

end Comparable

/-- Do two equations match, and do the names make a renaming? -/
def Equation.isLike (mode : MatchMode) (q r : Equation) : Bool :=
  if q.sides.length = r.sides.length then
    let (same, names) := (Comparable.sides mode q.sides r.sides).run {}
    same && names.check
  else false

end Isolate
