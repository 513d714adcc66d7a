import Isolate.Expr.Basic

/-!
# Equality and order of expressions

`Expr.beq` is equality of form: the same signs, values, names and positions throughout, whatever was analysed.
`Expr.compare` is a total order that agrees with it. Expressions compare by sign (plus first), then by the kind of node
(number, variable, power, remainder, factorial, call, sum), then by what the node holds: numbers by value, names by code
point, operands and lists of operands lexicographically, a list before its own continuations.

* `Expr.beq_iff`: two expressions are equal in form exactly when they are equal once every analysis is forgotten.
-/

namespace Isolate

/-! ## Equality of form -/

namespace Expr

mutual

/-- Equality of form; analyses are ignored. -/
def beq : Expr → Expr → Bool
  | ⟨s, .number v, _⟩, ⟨t, .number w, _⟩ => s == t && v == w
  | ⟨s, .var m, _⟩, ⟨t, .var n, _⟩ => s == t && m == n
  | ⟨s, .power a b, _⟩, ⟨t, .power c d, _⟩ => s == t && beq a c && beq b d
  | ⟨s, .modulo a b, _⟩, ⟨t, .modulo c d, _⟩ => s == t && beq a c && beq b d
  | ⟨s, .factorial a, _⟩, ⟨t, .factorial c, _⟩ => s == t && beq a c
  | ⟨s, .call m as, _⟩, ⟨t, .call n bs, _⟩ => s == t && m == n && beqFactors as bs
  | ⟨s, .sum ps, _⟩, ⟨t, .sum qs, _⟩ => s == t && beqTerms ps qs
  | _, _ => false

def beqFactors : List Expr → List Expr → Bool
  | [], [] => true
  | a :: as, b :: bs => beq a b && beqFactors as bs
  | _, _ => false

def beqTerms : List (Ratio Expr) → List (Ratio Expr) → Bool
  | [], [] => true
  | ⟨a, b⟩ :: ps, ⟨c, d⟩ :: qs => beqFactors a c && beqFactors b d && beqTerms ps qs
  | _, _ => false

end

end Expr

instance : BEq Expr := ⟨Expr.beq⟩

instance [BEq α] : BEq (Ratio α) := ⟨fun r t => r.numerator == t.numerator && r.denominator == t.denominator⟩

instance : BEq Equation := ⟨fun q r => q.sides == r.sides⟩

/-! ## Order -/

namespace Shape

/-- The place of a kind of node in the order. -/
def rank : Shape α → Nat
  | number _ => 0
  | var _ => 1
  | power _ _ => 2
  | modulo _ _ => 3
  | factorial _ => 4
  | call _ _ => 5
  | sum _ => 6

end Shape

/-- The order of numbers. -/
def compareRat (v w : Rat) : Ordering := if v < w then .lt else if v = w then .eq else .gt

namespace Expr

mutual

/-- The order of expressions. -/
def compare : Expr → Expr → Ordering
  | ⟨s, b, _⟩, ⟨t, c, _⟩ => (Ord.compare s.rank t.rank).then (compareShape b c)

/-- The order of nodes, signs apart. -/
def compareShape : Shape Expr → Shape Expr → Ordering
  | .number v, .number w => compareRat v w
  | .var m, .var n => Ord.compare m n
  | .power a b, .power c d => (compare a c).then (compare b d)
  | .modulo a b, .modulo c d => (compare a c).then (compare b d)
  | .factorial a, .factorial c => compare a c
  | .call m as, .call n bs => (Ord.compare m n).then (compareFactors as bs)
  | .sum ps, .sum qs => compareTerms ps qs
  | b, c => Ord.compare b.rank c.rank

def compareFactors : List Expr → List Expr → Ordering
  | [], [] => .eq
  | [], _ :: _ => .lt
  | _ :: _, [] => .gt
  | a :: as, b :: bs => (compare a b).then (compareFactors as bs)

def compareTerms : List (Ratio Expr) → List (Ratio Expr) → Ordering
  | [], [] => .eq
  | [], _ :: _ => .lt
  | _ :: _, [] => .gt
  | ⟨a, b⟩ :: ps, ⟨c, d⟩ :: qs =>
    ((compareFactors a c).then (compareFactors b d)).then (compareTerms ps qs)

end

/-- Does the first expression sort no later than the second? -/
def le (a b : Expr) : Bool := (compare a b).isLE

end Expr

namespace Ratio

/-- Ratios compare by their numerators, then by their denominators. -/
def compare (r t : Ratio Expr) : Ordering :=
  (Expr.compareFactors r.numerator t.numerator).then (Expr.compareFactors r.denominator t.denominator)

/-- Does the first ratio sort no later than the second? -/
def le (r t : Ratio Expr) : Bool := (compare r t).isLE

end Ratio

/-! ## Equality of form is equality of bare trees -/

namespace Expr

mutual

theorem beq_iff : ∀ a b : Expr, beq a b = true ↔ a.bare = b.bare
  | ⟨s, .number v, _⟩, ⟨t, c, _⟩ => by cases c <;> simp [beq, Shape.map]
  | ⟨s, .var m, _⟩, ⟨t, c, _⟩ => by cases c <;> simp [beq, Shape.map]
  | ⟨s, .power a b, _⟩, ⟨t, c, _⟩ => by cases c <;> simp [beq, Shape.map, beq_iff a, beq_iff b, and_assoc]
  | ⟨s, .modulo a b, _⟩, ⟨t, c, _⟩ => by cases c <;> simp [beq, Shape.map, beq_iff a, beq_iff b, and_assoc]
  | ⟨s, .factorial a, _⟩, ⟨t, c, _⟩ => by cases c <;> simp [beq, Shape.map, beq_iff a]
  | ⟨s, .call m as, _⟩, ⟨t, c, _⟩ => by cases c <;> simp [beq, Shape.map, beqFactors_iff as, and_assoc]
  | ⟨s, .sum ps, _⟩, ⟨t, c, _⟩ => by cases c <;> simp [beq, Shape.map, beqTerms_iff ps]

theorem beqFactors_iff : ∀ as bs : List Expr, beqFactors as bs = true ↔ as.map bare = bs.map bare
  | [], bs => by cases bs <;> simp [beqFactors]
  | a :: as, bs => by cases bs <;> simp [beqFactors, beq_iff a, beqFactors_iff as]

theorem beqTerms_iff : ∀ ps qs : List (Ratio Expr),
    beqTerms ps qs = true ↔ ps.map (Ratio.map bare) = qs.map (Ratio.map bare)
  | [], qs => by cases qs <;> simp [beqTerms]
  | ⟨a, b⟩ :: ps, qs => by
    cases qs <;> simp [beqTerms, beqFactors_iff a, beqFactors_iff b, beqTerms_iff ps, Ratio.map, and_assoc]

end

end Expr

end Isolate
