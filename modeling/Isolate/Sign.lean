/-!
# Signs

The two signs form the group of order two under multiplication; `Sign.apply` lets a sign act on a rational number.
-/

namespace Isolate

/-- The sign in front of an expression. -/
inductive Sign where
  | pos
  | neg
  deriving DecidableEq, Repr, Inhabited

namespace Sign

/-- Like signs give plus, unlike signs give minus. -/
protected def mul : Sign → Sign → Sign
  | pos, s => s
  | neg, pos => neg
  | neg, neg => pos

instance : Mul Sign := ⟨Sign.mul⟩

/-- The other sign. -/
def flip : Sign → Sign
  | pos => neg
  | neg => pos

/-- The sign in front of a number. -/
def apply : Sign → Rat → Rat
  | pos, q => q
  | neg, q => -q

/-- The written form of a sign. -/
def text : Sign → String
  | pos => "+"
  | neg => "-"

/-- Reads exactly what `Sign.text` writes. -/
def ofText? : String → Option Sign
  | "+" => some pos
  | "-" => some neg
  | _ => none

/-- Plus sorts before minus. -/
def rank : Sign → Nat
  | pos => 0
  | neg => 1

@[simp] theorem flip_flip (s : Sign) : s.flip.flip = s := by cases s <;> rfl

@[simp] theorem pos_mul (s : Sign) : pos * s = s := rfl

@[simp] theorem neg_mul (s : Sign) : neg * s = s.flip := by cases s <;> rfl

theorem mul_comm (s t : Sign) : s * t = t * s := by cases s <;> cases t <;> rfl

theorem mul_assoc (s t u : Sign) : s * t * u = s * (t * u) := by cases s <;> cases t <;> cases u <;> rfl

@[simp] theorem mul_self (s : Sign) : s * s = pos := by cases s <;> rfl

@[simp] theorem ofText?_text (s : Sign) : ofText? s.text = some s := by cases s <;> rfl

end Sign

end Isolate
