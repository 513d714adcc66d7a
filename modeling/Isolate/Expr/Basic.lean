import Isolate.Sign

/-!
# Expressions

An expression is a signed node. The node's `Shape` is a number, a variable, an operator applied to operands, or a sum
of ratios of factors; it is a functor in the type of the operands, so that one recursor, `Expr.fold`, serves every
function that runs over a whole tree.

* `Expr.fold_eq` is the equation of the recursor: every operand is replaced by its own result.
* `Expr.induction` is the induction principle over direct operands.

An expression also holds what an analysis found out about it (`Summary`), if one was made. No operation on the value or
the form of an expression reads it, and `Expr.beq` ignores it.
-/

namespace Isolate

/-- A product of factors over a product of factors. An empty numerator stands for one. -/
structure Ratio (α : Type) where
  numerator : List α
  denominator : List α
  deriving DecidableEq, Repr, Inhabited

/-- What an expression is, apart from its sign, with operands in `α`. A `sum` without terms is zero. -/
inductive Shape (α : Type) where
  | number (value : Rat)
  | var (name : String)
  | power (base exponent : α)
  | modulo (dividend divisor : α)
  | factorial (operand : α)
  | call (name : String) (arguments : List α)
  | sum (terms : List (Ratio α))
  deriving Repr

/-- The names that occur in an expression, each list sorted and free of repeats, and whether the expression is built
from numbers alone. -/
structure Summary where
  vars : List String
  functions : List String
  isNumber : Bool
  deriving DecidableEq, Repr, Inhabited

/-- A signed node of an expression tree. -/
structure Expr where
  sign : Sign
  shape : Shape Expr
  summary : Option Summary

/-! ## Ratios and shapes as functors -/

namespace Ratio

/-- All factors, those of the numerator first. -/
def factors (r : Ratio α) : List α := r.numerator ++ r.denominator

def map (f : α → β) (r : Ratio α) : Ratio β := ⟨r.numerator.map f, r.denominator.map f⟩

@[simp] theorem map_id (r : Ratio α) : r.map id = r := by simp [map]

@[simp] theorem map_map (f : α → β) (g : β → γ) (r : Ratio α) : (r.map f).map g = r.map (g ∘ f) := by simp [map]

@[simp] theorem factors_map (f : α → β) (r : Ratio α) : (r.map f).factors = r.factors.map f := by
  simp [map, factors]

end Ratio

namespace Shape

def map (f : α → β) : Shape α → Shape β
  | number v => number v
  | var n => var n
  | power b e => power (f b) (f e)
  | modulo a b => modulo (f a) (f b)
  | factorial a => factorial (f a)
  | call n as => call n (as.map f)
  | sum ts => sum (ts.map (Ratio.map f))

/-- The direct operands, from left to right. -/
def children : Shape α → List α
  | number _ => []
  | var _ => []
  | power b e => [b, e]
  | modulo a b => [a, b]
  | factorial a => [a]
  | call _ as => as
  | sum ts => ts.flatMap Ratio.factors

@[simp] theorem map_id (b : Shape α) : b.map id = b := by
  cases b <;> simp [map, show Ratio.map (@id α) = id from funext Ratio.map_id]

@[simp] theorem map_map (f : α → β) (g : β → γ) (b : Shape α) : (b.map f).map g = b.map (g ∘ f) := by
  cases b <;> simp [map, Function.comp_def]

@[simp] theorem children_map (f : α → β) (b : Shape α) : (b.map f).children = b.children.map f := by
  cases b <;> simp [map, children, List.flatMap_map, List.map_flatMap]

/-- Two maps agree on a shape when they agree on its operands. -/
theorem map_congr {f g : α → β} {b : Shape α} (h : ∀ a ∈ b.children, f a = g a) : b.map f = b.map g := by
  cases b with
  | number v => rfl
  | var n => rfl
  | power a e => simp_all [map, children]
  | modulo a e => simp_all [map, children]
  | factorial a => simp_all [map, children]
  | call n as => simpa [map, children] using h
  | sum ts =>
    simp only [children, List.mem_flatMap, Ratio.factors, List.mem_append] at h
    simp only [map, sum.injEq, List.map_inj_left, Ratio.map, Ratio.mk.injEq]
    exact fun t ht => ⟨fun a ha => h a ⟨t, ht, .inl ha⟩, fun a ha => h a ⟨t, ht, .inr ha⟩⟩

end Shape

/-! ## Construction -/

instance : Inhabited Expr := ⟨⟨.pos, .sum [], none⟩⟩

namespace Ratio

/-- The ratio of one factor over nothing. -/
def of (e : α) : Ratio α := ⟨[e], []⟩

def mul (r t : Ratio α) : Ratio α := ⟨r.numerator ++ t.numerator, r.denominator ++ t.denominator⟩

/-- Numerator and denominator change places. -/
def inv (r : Ratio α) : Ratio α := ⟨r.denominator, r.numerator⟩

end Ratio

namespace Expr

/-- The positive expression of a shape, not analysed. -/
def ofShape (b : Shape Expr) : Expr := ⟨.pos, b, none⟩

def number (q : Rat) : Expr := ofShape (.number q)

def var (name : String) : Expr := ofShape (.var name)

def call (name : String) (arguments : List Expr) : Expr := ofShape (.call name arguments)

def sum (terms : List (Ratio Expr)) : Expr := ofShape (.sum terms)

/-- The other sign in front of the same node. -/
def neg (e : Expr) : Expr := { e with sign := e.sign.flip }

/-- The same node with a plus in front. -/
def abs (e : Expr) : Expr := { e with sign := .pos }

def add (a b : Expr) : Expr := sum [.of a, .of b]

def sub (a b : Expr) : Expr := a.add b.neg

def mul (a b : Expr) : Expr := sum [⟨[a, b], []⟩]

def div (a b : Expr) : Expr := sum [⟨[a], [b]⟩]

def pow (a b : Expr) : Expr := ofShape (.power a b)

/-- Has an analysis been made of this node? -/
def isAnalyzed (e : Expr) : Bool := e.summary.isSome

/-- The direct operands, from left to right. -/
def children (e : Expr) : List Expr := e.shape.children

/-- Is this the positive number one? -/
def isOne (e : Expr) : Bool :=
  match e.sign, e.shape with
  | .pos, .number v => v = 1
  | _, _ => false

end Expr

/-- The opposite ratio, by the sign of one factor: the first of the numerator, else the first of the denominator; the
empty ratio becomes minus one. -/
def Ratio.neg : Ratio Expr → Ratio Expr
  | ⟨n :: ns, ds⟩ => ⟨n.neg :: ns, ds⟩
  | ⟨[], d :: ds⟩ => ⟨[], d.neg :: ds⟩
  | ⟨[], []⟩ => ⟨[(Expr.number 1).neg], []⟩

/-! ## Recursion and induction -/

namespace Expr

mutual

/-- Recursion over a tree: `f` gets a node and its shape with every operand replaced by its own result. -/
def fold (f : Expr → Shape α → α) : Expr → α
  | ⟨s, .number v, c⟩ => f ⟨s, .number v, c⟩ (.number v)
  | ⟨s, .var n, c⟩ => f ⟨s, .var n, c⟩ (.var n)
  | ⟨s, .power b e, c⟩ => f ⟨s, .power b e, c⟩ (.power (fold f b) (fold f e))
  | ⟨s, .modulo a b, c⟩ => f ⟨s, .modulo a b, c⟩ (.modulo (fold f a) (fold f b))
  | ⟨s, .factorial a, c⟩ => f ⟨s, .factorial a, c⟩ (.factorial (fold f a))
  | ⟨s, .call n as, c⟩ => f ⟨s, .call n as, c⟩ (.call n (foldFactors f as))
  | ⟨s, .sum ts, c⟩ => f ⟨s, .sum ts, c⟩ (.sum (foldTerms f ts))

/-- The results of a list of factors. -/
def foldFactors (f : Expr → Shape α → α) : List Expr → List α
  | [] => []
  | e :: es => fold f e :: foldFactors f es

/-- The results of a list of terms. -/
def foldTerms (f : Expr → Shape α → α) : List (Ratio Expr) → List (Ratio α)
  | [] => []
  | ⟨ns, ds⟩ :: ts => ⟨foldFactors f ns, foldFactors f ds⟩ :: foldTerms f ts

end

theorem foldFactors_eq (f : Expr → Shape α → α) (es : List Expr) : foldFactors f es = es.map (fold f) := by
  induction es with
  | nil => rfl
  | cons e es ih => simp [foldFactors, ih]

theorem foldTerms_eq (f : Expr → Shape α → α) (ts : List (Ratio Expr)) :
    foldTerms f ts = ts.map (Ratio.map (fold f)) := by
  induction ts with
  | nil => rfl
  | cons t ts ih => simp [foldTerms, ih, foldFactors_eq, Ratio.map]

/-- The equation of the recursor. -/
theorem fold_eq (f : Expr → Shape α → α) (e : Expr) : fold f e = f e (e.shape.map (fold f)) := by
  rcases e with ⟨s, b, c⟩
  cases b <;> simp [fold, Shape.map, foldFactors_eq, foldTerms_eq]

theorem sizeOf_lt_of_mem_children {a e : Expr} (h : a ∈ e.children) : sizeOf a < sizeOf e := by
  rcases e with ⟨s, b, c⟩
  have step : sizeOf a < sizeOf b := by
    cases b with
    | number v => simp [children, Shape.children] at h
    | var n => simp [children, Shape.children] at h
    | power b e =>
      simp only [children, Shape.children, List.mem_cons, List.not_mem_nil, or_false] at h
      rcases h with rfl | rfl <;> (simp only [Shape.power.sizeOf_spec]; omega)
    | modulo b e =>
      simp only [children, Shape.children, List.mem_cons, List.not_mem_nil, or_false] at h
      rcases h with rfl | rfl <;> (simp only [Shape.modulo.sizeOf_spec]; omega)
    | factorial b => simp [children, Shape.children] at h; subst h; simp
    | call n as => have := List.sizeOf_lt_of_mem (show a ∈ as from h); simp; omega
    | sum ts =>
      simp only [children, Shape.children, List.mem_flatMap, Ratio.factors, List.mem_append] at h
      obtain ⟨⟨ns, ds⟩, ht, ha⟩ := h
      have ht := List.sizeOf_lt_of_mem ht
      rcases ha with ha | ha <;> have ha := List.sizeOf_lt_of_mem ha <;> simp at ha ht ⊢ <;> omega
  simp; omega

/-- A property of every tree whose direct operands have it is a property of all trees. -/
theorem induction {P : Expr → Prop} (h : ∀ e : Expr, (∀ a ∈ e.children, P a) → P e) (e : Expr) : P e :=
  h e fun a _ => induction h a
termination_by sizeOf e
decreasing_by exact sizeOf_lt_of_mem_children ‹_›

/-- The length of the longest way down to a leaf. -/
def height (e : Expr) : Nat := e.fold fun _ b => b.children.foldl (fun h n => max h (n + 1)) 0

/-- The same tree with every analysis forgotten. -/
def bare (e : Expr) : Expr := e.fold fun e b => ⟨e.sign, b, none⟩

theorem bare_eq (e : Expr) : e.bare = ⟨e.sign, e.shape.map bare, none⟩ := fold_eq ..

@[simp] theorem bare_mk (s : Sign) (b : Shape Expr) (c : Option Summary) :
    bare ⟨s, b, c⟩ = ⟨s, b.map bare, none⟩ := bare_eq _

end Expr

/-! ## Equations -/

/-- Expressions stated equal to each other. -/
structure Equation where
  sides : List Expr
  deriving Inhabited

namespace Equation

/-- Has an analysis been made of every side? -/
def isAnalyzed (q : Equation) : Bool := q.sides.all Expr.isAnalyzed

/-- The same equation with every analysis forgotten. -/
def bare (q : Equation) : Equation := ⟨q.sides.map Expr.bare⟩

end Equation

end Isolate
