import Isolate.Expr.Basic

/-!
# What an expression means

An `Interpretation` gives every name and every operator that is no arithmetic a meaning over the rational numbers. Under
it every expression has a value; the value is of use where the expression is defined, that is where no divisor in it is
zero.

* `Expr.value_eq` and `Expr.isDefined_iff` are the equations of both, by the operands of a node.
* `Ratio.value_neg`, `Ratio.value_mul`, `Ratio.value_inv`: the operations on ratios are those on their values.
-/

namespace Isolate

/-- A meaning for names, calls, powers, remainders and factorials. -/
structure Interpretation where
  var : String → Rat
  call : String → List Rat → Rat
  power : Rat → Rat → Rat
  modulo : Rat → Rat → Rat
  factorial : Rat → Rat

/-! ## Values -/

/-- The product of numbers. -/
def product (qs : List Rat) : Rat := qs.foldr (· * ·) 1

/-- The sum of numbers. -/
def total (qs : List Rat) : Rat := qs.foldr (· + ·) 0

@[simp] theorem product_nil : product [] = 1 := rfl

@[simp] theorem product_cons (q : Rat) (qs : List Rat) : product (q :: qs) = q * product qs := rfl

@[simp] theorem product_append (ps qs : List Rat) : product (ps ++ qs) = product ps * product qs := by
  induction ps with
  | nil => simp
  | cons p ps ih => simp [ih, Rat.mul_assoc]

@[simp] theorem total_nil : total [] = 0 := rfl

@[simp] theorem total_cons (q : Rat) (qs : List Rat) : total (q :: qs) = q + total qs := rfl

@[simp] theorem total_append (ps qs : List Rat) : total (ps ++ qs) = total ps + total qs := by
  induction ps with
  | nil => exact (Rat.zero_add _).symm
  | cons p ps ih => simp [ih, Rat.add_assoc]

/-- A product over a product. -/
def Ratio.quotient (r : Ratio Rat) : Rat := product r.numerator / product r.denominator

namespace Interpretation

/-- The value of a node, its sign apart, given the values of its operands. -/
def apply (I : Interpretation) : Shape Rat → Rat
  | .number q => q
  | .var name => I.var name
  | .power b e => I.power b e
  | .modulo a b => I.modulo a b
  | .factorial a => I.factorial a
  | .call name as => I.call name as
  | .sum ts => total (ts.map Ratio.quotient)

end Interpretation

namespace Expr

/-- The value of an expression. -/
def value (I : Interpretation) (e : Expr) : Rat := e.fold fun e b => e.sign.apply (I.apply b)

theorem value_eq (I : Interpretation) (e : Expr) : e.value I = e.sign.apply (I.apply (e.shape.map (value I))) :=
  fold_eq ..

/-- What is known of an expression does not touch its value. -/
@[simp] theorem value_bare (I : Interpretation) (e : Expr) : e.bare.value I = e.value I := by
  induction e using Expr.induction with
  | h e ih =>
    rw [value_eq I e, bare_eq, value_eq, Shape.map_map]
    exact congrArg _ (congrArg _ (Shape.map_congr ih))

end Expr

/-! ## Where an expression is defined -/

/-- The divisors of a node. -/
def Shape.divisors : Shape α → List α
  | .sum ts => ts.flatMap Ratio.denominator
  | _ => []

namespace Expr

/-- Is no divisor anywhere in an expression zero? -/
def IsDefined (I : Interpretation) (e : Expr) : Prop :=
  e.fold fun e b => (∀ a ∈ b.children, a) ∧ ∀ d ∈ e.shape.divisors, d.value I ≠ 0

theorem isDefined_iff (I : Interpretation) (e : Expr) :
    e.IsDefined I ↔ (∀ a ∈ e.children, a.IsDefined I) ∧ ∀ d ∈ e.shape.divisors, d.value I ≠ 0 := by
  rw [IsDefined, fold_eq]
  simp only [Shape.children_map, List.mem_map, forall_exists_index, and_imp, forall_apply_eq_imp_iff₂]
  rfl

end Expr

namespace Equation

/-- Have all sides the same value? -/
def Holds (I : Interpretation) (q : Equation) : Prop := ∀ a ∈ q.sides, ∀ b ∈ q.sides, a.value I = b.value I

/-- Are all sides defined? -/
def IsDefined (I : Interpretation) (q : Equation) : Prop := ∀ e ∈ q.sides, e.IsDefined I

end Equation

/-! ## Ratios -/

namespace Expr

@[simp] theorem value_neg (I : Interpretation) (e : Expr) : e.neg.value I = -e.value I := by
  rw [value_eq, value_eq I e]
  rcases e with ⟨s, b, c⟩
  cases s <;> simp [neg, Sign.apply, Sign.flip]

theorem value_number (I : Interpretation) (q : Rat) : (number q).value I = q := by
  rw [value_eq]
  rfl

end Expr

namespace Ratio

/-- The value of a ratio of factors. -/
def value (I : Interpretation) (t : Ratio Expr) : Rat := (t.map (Expr.value I)).quotient

theorem value_eq (I : Interpretation) (t : Ratio Expr) :
    t.value I = product (t.numerator.map (Expr.value I)) / product (t.denominator.map (Expr.value I)) := rfl

@[simp] theorem value_of (I : Interpretation) (e : Expr) : (of e).value I = e.value I := by
  simp only [value_eq, of, List.map_cons, List.map_nil, product_cons, product_nil]
  grind

theorem value_mul (I : Interpretation) (r t : Ratio Expr) : (r.mul t).value I = r.value I * t.value I := by
  simp only [value_eq, mul, List.map_append, product_append, Rat.div_def, Rat.inv_mul_rev]
  grind

theorem value_inv (I : Interpretation) (r : Ratio Expr) : r.inv.value I = (r.value I)⁻¹ := by
  simp only [value_eq, inv, Rat.div_def, Rat.inv_mul_rev, Rat.inv_inv]

theorem value_neg (I : Interpretation) (t : Ratio Expr) : t.neg.value I = -t.value I := by
  match t with
  | ⟨n :: ns, ds⟩ =>
    simp only [value_eq, neg, List.map_cons, product_cons, Expr.value_neg, Rat.div_def, Rat.neg_mul]
  | ⟨[], d :: ds⟩ =>
    simp only [value_eq, neg, List.map_cons, List.map_nil, product_cons, product_nil, Expr.value_neg]
    grind
  | ⟨[], []⟩ =>
    simp only [value_eq, neg, List.map_cons, List.map_nil, product_cons, product_nil, Expr.value_neg,
      Expr.value_number]
    grind

end Ratio

end Isolate
