import Isolate.Expr.Basic

/-!
# Traversals

A traversal starts at an expression and goes down as far as its `Reach` allows: without a bound, or a number of levels.
It comes in three kinds, with one order of visits.

* `Expr.visited` lists the nodes.
* `Expr.editUp` and `Expr.editDown?` change nodes in place: what has been analysed stays marked as analysed.
* `Expr.rebuildUp` and `Expr.rebuildDown?` make new nodes, which are not analysed.

From the bottom up, the operands of a node are done before the node. From the top down, a node is changed first, and the
operands it has then are done next. As an edit may add operands, the second may go on for ever, so it gets a number of
levels that it may use and gives `none` if they do not suffice.
-/

namespace Isolate

/-- How far below its start a traversal goes. -/
inductive Reach where
  | all
  | levels (n : Nat)
  deriving DecidableEq, Repr, Inhabited

namespace Reach

/-- What is left of the reach one level down, if the operands are still within it. -/
def below? : Reach → Option Reach
  | all => some all
  | levels 0 => none
  | levels (n + 1) => some (levels n)

/-- No number means no bound; a negative number of levels is none. -/
def ofLevels : Option Int → Reach
  | none => all
  | some n => levels n.toNat

end Reach

/-- The order of visits. -/
inductive Visiting where
  | topDown
  | bottomUp
  deriving DecidableEq, Repr

/-! ## Shapes with effects -/

namespace Ratio

def mapM [Monad m] (f : α → m β) (r : Ratio α) : m (Ratio β) := do
  return ⟨← r.numerator.mapM f, ← r.denominator.mapM f⟩

end Ratio

namespace Shape

/-- Acts on the operands from left to right. -/
def mapM [Monad m] (f : α → m β) : Shape α → m (Shape β)
  | number v => return number v
  | var n => return var n
  | power b e => return power (← f b) (← f e)
  | modulo a b => return modulo (← f a) (← f b)
  | factorial a => return factorial (← f a)
  | call n as => return call n (← as.mapM f)
  | sum ts => return sum (← ts.mapM (Ratio.mapM f))

end Shape

namespace Expr

/-! ## Looking -/

/-- One node, and what is visited below it, in the order of their visits. -/
def visitStep (order : Visiting) (e : Expr) (below : Shape (Reach → List Expr)) (reach : Reach) : List Expr :=
  let rest := match reach.below? with
    | none => []
    | some reach => below.children.flatMap (· reach)
  match order with
  | .topDown => e :: rest
  | .bottomUp => rest ++ [e]

/-- The nodes within reach, in the order of their visits. -/
def visited (order : Visiting) (reach : Reach) (e : Expr) : List Expr := e.fold (visitStep order) reach

/-! ## Changing -/

/-- Edits one node in place, its operands first. -/
def editStep (f : Expr → Expr) (e : Expr) (below : Shape (Reach → Expr)) (reach : Reach) : Expr :=
  match reach.below? with
  | none => f e
  | some reach => f { e with shape := below.map (· reach) }

/-- Edits in place, operands first. -/
def editUp (f : Expr → Expr) (reach : Reach) (e : Expr) : Expr := e.fold (editStep f) reach

/-- Makes one node anew, its operands first. -/
def rebuildStep (f : Expr → Expr) (e : Expr) (below : Shape (Reach → Expr)) (reach : Reach) : Expr :=
  match reach.below? with
  | none => f e
  | some reach => f ⟨e.sign, below.map (· reach), none⟩

/-- Makes new nodes, operands first. -/
def rebuildUp (f : Expr → Expr) (reach : Reach) (e : Expr) : Expr := e.fold (rebuildStep f) reach

/-- Edits in place, the node before the operands it then has. -/
def editDown? (f : Expr → Expr) : Nat → Reach → Expr → Option Expr
  | fuel, reach, e =>
    match reach.below?, fuel with
    | none, _ => some (f e)
    | some _, 0 => if (f e).children.isEmpty then some (f e) else none
    | some reach, fuel + 1 => do return { f e with shape := ← (f e).shape.mapM (editDown? f fuel reach) }

/-- Makes new nodes, each before the operands it then has. -/
def rebuildDown? (f : Expr → Expr) : Nat → Reach → Expr → Option Expr
  | fuel, reach, e =>
    match reach.below?, fuel with
    | none, _ => some (f e)
    | some _, 0 => if (f e).children.isEmpty then some ⟨(f e).sign, (f e).shape, none⟩ else none
    | some reach, fuel + 1 => do
      return ⟨(f e).sign, ← (f e).shape.mapM (rebuildDown? f fuel reach), none⟩

/-! ## Equations of the traversals -/

theorem visited_eq (order : Visiting) (reach : Reach) (e : Expr) :
    e.visited order reach = visitStep order e (e.shape.map fun a reach => a.visited order reach) reach := by
  rw [visited, fold_eq]; rfl

theorem editUp_eq (f : Expr → Expr) (reach : Reach) (e : Expr) :
    e.editUp f reach = editStep f e (e.shape.map fun a reach => a.editUp f reach) reach := by
  rw [editUp, fold_eq]; rfl

theorem rebuildUp_eq (f : Expr → Expr) (reach : Reach) (e : Expr) :
    e.rebuildUp f reach = rebuildStep f e (e.shape.map fun a reach => a.rebuildUp f reach) reach := by
  rw [rebuildUp, fold_eq]; rfl

/-- Without a bound, a tree made anew is the step applied to the node with its operands made anew. -/
theorem rebuildUp_all (f : Expr → Expr) (e : Expr) :
    e.rebuildUp f .all = f ⟨e.sign, e.shape.map (rebuildUp f .all), none⟩ := by
  rw [rebuildUp_eq]; simp [rebuildStep, Reach.below?, Function.comp_def]

/-- Without a bound, an edited tree is the edit of the node with its operands edited. -/
theorem editUp_all (f : Expr → Expr) (e : Expr) :
    e.editUp f .all = f { e with shape := e.shape.map (editUp f .all) } := by
  rw [editUp_eq]; simp [editStep, Reach.below?, Function.comp_def]

end Expr

end Isolate
