import Isolate.Expr.Basic
import Isolate.Proofs.Writing.Lexemes

/-!
# The usual grammar

Calls and brackets bind most, then a factorial behind its operand, then powers, then a minus in front, then products,
quotients and remainders from left to right, and least sums and differences from left to right. `Reads` is this grammar:
what lexemes stand for, by how much they bind. It says what a text means; equation text (`Expr.ofText`) may say more than
that, and is partly worked out while it is read.

The grammar is unambiguous (`Reads.unique`). One pass from left to right shows it: at every lexeme it is settled what is
still to be done with the next operand (`Pending`), and where the lexemes end, this gives the only expression they can
stand for.

* `Reads.reaches`: the pass arrives at what the grammar reads, at every level.
-/

namespace Isolate

/-! ## The grammar -/

/-- How much an operator binds. -/
inductive Level where
  | atom
  | factorial
  | power
  | signed
  | product
  | sum

/-- The lexemes are read as the expression, where operators that bind less than the level stand in brackets. -/
inductive Reads : Level → List Lexeme → Expr → Prop
  | numeral (n : Nat) : Reads .atom [.numeral n] (.number n)
  | var (s : String) : Reads .atom [.name s] (.var s)
  | call (s : String) {args : List (List Lexeme × Expr)} (h : ∀ a ∈ args, Reads .sum a.1 a.2) :
    Reads .atom (.name s :: .opening :: ([Lexeme.comma].intercalate (args.map Prod.fst) ++ [.closing]))
      (.call s (args.map Prod.snd))
  | group (h : Reads .sum ls r) : Reads .atom (.opening :: (ls ++ [.closing])) r
  | ofAtom (h : Reads .atom ls r) : Reads .factorial ls r
  | factorial (h : Reads .factorial ls r) : Reads .factorial (ls ++ [.bang]) (.ofShape (.factorial r))
  | ofFactorial (h : Reads .factorial ls r) : Reads .power ls r
  | power (hb : Reads .factorial ls b) (he : Reads .power ms e) : Reads .power (ls ++ .caret :: ms) (b.pow e)
  | ofPower (h : Reads .power ls r) : Reads .signed ls r
  | neg (h : Reads .signed ls r) : Reads .signed (.minus :: ls) r.neg
  | ofSigned (h : Reads .signed ls r) : Reads .product ls r
  | mul (ha : Reads .product ls a) (hb : Reads .signed ms b) : Reads .product (ls ++ .times :: ms) (a.mul b)
  | div (ha : Reads .product ls a) (hb : Reads .signed ms b) : Reads .product (ls ++ .over :: ms) (a.div b)
  | modulo (ha : Reads .product ls a) (hb : Reads .signed ms b) :
    Reads .product (ls ++ .percent :: ms) (.ofShape (.modulo a b))
  | ofProduct (h : Reads .product ls r) : Reads .sum ls r
  | add (ha : Reads .sum ls a) (hb : Reads .product ms b) : Reads .sum (ls ++ .plus :: ms) (a.add b)
  | sub (ha : Reads .sum ls a) (hb : Reads .product ms b) : Reads .sum (ls ++ .minus :: ms) (a.sub b)

/-! ## One pass from left to right -/

/-- What is still to be done, in this order: with the next operand, with the next factor, and with the next term. -/
structure Pending where
  operand : Expr → Expr
  factor : Expr → Expr
  term : Expr → Expr

namespace Pending

/-- At the beginning of a text, or of a bracket. -/
def none : Pending := ⟨id, id, id⟩

/-- The product up to an operand. -/
def product (p : Pending) (e : Expr) : Expr := p.factor (p.operand e)

/-- The sum up to an operand. -/
def sum (p : Pending) (e : Expr) : Expr := p.term (p.product e)

end Pending

/-- What a bracket that is still open belongs to; a call has got some arguments. -/
inductive Opened where
  | group
  | call (name : String) (arguments : List Expr)

/-- The state of the pass: it waits for an operand, or it has got one. Open brackets come with what was to be done in
front of them. -/
inductive Reading where
  | awaiting (p : Pending) (outer : List (Opened × Pending))
  | holding (e : Expr) (p : Pending) (outer : List (Opened × Pending))

namespace Reading

/-- One lexeme. -/
def step : Reading → Lexeme → Option Reading
  | awaiting p outer, .numeral n => some (holding (.number n) p outer)
  | awaiting p outer, .name s => some (holding (.var s) p outer)
  | awaiting p outer, .minus => some (awaiting { p with operand := fun e => p.operand e.neg } outer)
  | awaiting p outer, .opening => some (awaiting .none ((.group, p) :: outer))
  | awaiting _ ((.call s args, p) :: outer), .closing => some (holding (.call s args) p outer)
  | holding e p outer, .bang => some (holding (.ofShape (.factorial e)) p outer)
  | holding e p outer, .caret => some (awaiting { p with operand := fun a => p.operand (e.pow a) } outer)
  | holding e p outer, .times => some (awaiting { p with operand := id, factor := (p.product e).mul } outer)
  | holding e p outer, .over => some (awaiting { p with operand := id, factor := (p.product e).div } outer)
  | holding e p outer, .percent =>
    some (awaiting { p with operand := id, factor := fun a => .ofShape (.modulo (p.product e) a) } outer)
  | holding e p outer, .plus => some (awaiting ⟨id, id, (p.sum e).add⟩ outer)
  | holding e p outer, .minus => some (awaiting ⟨id, id, (p.sum e).sub⟩ outer)
  | holding ⟨_, .var s, _⟩ p outer, .opening => some (awaiting .none ((.call s [], p) :: outer))
  | holding e p ((.group, q) :: outer), .closing => some (holding (p.sum e) q outer)
  | holding e p ((.call s args, q) :: outer), .closing => some (holding (.call s (args ++ [p.sum e])) q outer)
  | holding e p ((.call s args, q) :: outer), .comma => some (awaiting .none ((.call s (args ++ [p.sum e]), q) :: outer))
  | _, _ => none

/-- The lexemes of a text, one after the other. -/
def run (s : Reading) (ls : List Lexeme) : Option Reading := ls.foldlM step s

theorem run_append (s : Reading) (ls ms : List Lexeme) : s.run (ls ++ ms) = (s.run ls).bind (run · ms) :=
  List.foldlM_append

theorem run_cons (s : Reading) (l : Lexeme) (ls : List Lexeme) : s.run (l :: ls) = (s.step l).bind (run · ls) := rfl

/-- The expression that was read, if the text ends here. -/
def result : Reading → Option Expr
  | holding e p [] => some (p.sum e)
  | _ => none

end Reading

open Reading

/-- After the lexemes the pass has got an operand that completes the expression, at the level. -/
def Level.Reaches : Level → List Lexeme → Expr → Prop
  | .atom, ls, r | .factorial, ls, r => ∀ p outer, (awaiting p outer).run ls = some (holding r p outer)
  | .power, ls, r | .signed, ls, r => ∀ p outer, ∃ e f,
    (awaiting p outer).run ls = some (holding e { p with operand := f } outer) ∧ f e = p.operand r
  | .product, ls, r => ∀ term outer, ∃ e p,
    (awaiting ⟨id, id, term⟩ outer).run ls = some (holding e p outer) ∧ p.term = term ∧ p.product e = r
  | .sum, ls, r => ∀ outer, ∃ e p, (awaiting .none outer).run ls = some (holding e p outer) ∧ p.sum e = r

namespace Level.Reaches

variable {l : Lexeme} {ls ms : List Lexeme} {a b : Expr} {f : Expr → Expr → Expr}

/-- An operator between factors. -/
theorem product_step (hl : ∀ e p outer,
    (holding e p outer).step l = some (awaiting { p with operand := id, factor := f (p.product e) } outer))
    (ha : product.Reaches ls a) (hb : signed.Reaches ms b) : product.Reaches (ls ++ l :: ms) (f a b) := by
  intro term outer
  obtain ⟨e, p, hls, hterm, hproduct⟩ := ha term outer
  obtain ⟨e', g, hms, hg⟩ := hb { p with operand := id, factor := f (p.product e) } outer
  refine ⟨e', ⟨g, f (p.product e), p.term⟩, ?_, hterm, ?_⟩
  · rw [run_append, hls, Option.bind_some, run_cons, hl, Option.bind_some, hms]
  · show f (p.product e) (g e') = f a b
    rw [hg, hproduct]
    rfl

/-- An operator between terms. -/
theorem sum_step (hl : ∀ e p outer, (holding e p outer).step l = some (awaiting ⟨id, id, f (p.sum e)⟩ outer))
    (ha : sum.Reaches ls a) (hb : product.Reaches ms b) : sum.Reaches (ls ++ l :: ms) (f a b) := by
  intro outer
  obtain ⟨e, p, hls, hsum⟩ := ha outer
  obtain ⟨e', q, hms, hterm, hproduct⟩ := hb (f (p.sum e)) outer
  refine ⟨e', q, ?_, ?_⟩
  · rw [run_append, hls, Option.bind_some, run_cons, hl, Option.bind_some, hms]
  · rw [Pending.sum, hproduct, hterm, hsum]

/-- The rest of a call, when some arguments have been read. -/
theorem arguments {args : List (List Lexeme × Expr)} (h : ∀ a ∈ args, sum.Reaches a.1 a.2) (s : String)
    (done : List Expr) (p : Pending) (outer : List (Opened × Pending)) :
    (awaiting .none ((.call s done, p) :: outer)).run
      ([Lexeme.comma].intercalate (args.map Prod.fst) ++ [.closing]) =
      some (holding (.call s (done ++ args.map Prod.snd)) p outer) := by
  induction args generalizing done with
  | nil =>
    simp only [List.map_nil, List.append_nil]
    rfl
  | cons a args ih =>
    obtain ⟨ha, hargs⟩ := List.forall_mem_cons.mp h
    obtain ⟨e, q, hrun, hsum⟩ := ha ((.call s done, p) :: outer)
    cases args with
    | nil =>
      simp only [List.map_cons, List.map_nil, List.intercalate_singleton]
      rw [run_append, hrun, ← hsum]
      rfl
    | cons b args =>
      have hrest := ih hargs (done ++ [q.sum e])
      simp only [List.map_cons, List.intercalate_cons_cons, List.append_assoc] at hrest ⊢
      rw [run_append, hrun, Option.bind_some, ← hsum]
      exact hrest

end Level.Reaches

/-- **The pass arrives at what the grammar reads.** -/
theorem Reads.reaches {l : Level} {ls : List Lexeme} {r : Expr} (h : Reads l ls r) : l.Reaches ls r := by
  induction h with
  | numeral n => exact fun p outer => rfl
  | var s => exact fun p outer => rfl
  | call s h ih =>
    intro p outer
    exact Level.Reaches.arguments ih s [] p outer
  | group h ih =>
    intro p outer
    obtain ⟨e, q, hrun, hsum⟩ := ih ((.group, p) :: outer)
    rw [run_cons, step, Option.bind_some, run_append, hrun, ← hsum]
    rfl
  | ofAtom h ih => exact ih
  | factorial h ih =>
    intro p outer
    rw [run_append, ih p outer]
    rfl
  | ofFactorial h ih => exact fun p outer => ⟨_, p.operand, ih p outer, rfl⟩
  | @power ls b ms e hb he ihb ihe =>
    intro p outer
    obtain ⟨a, f, hrun, hf⟩ := ihe { p with operand := fun a => p.operand (b.pow a) } outer
    refine ⟨a, f, ?_, hf⟩
    rw [run_append, ihb p outer, Option.bind_some, run_cons, step, Option.bind_some, hrun]
  | ofPower h ih => exact ih
  | neg h ih =>
    intro p outer
    obtain ⟨a, f, hrun, hf⟩ := ih { p with operand := fun e => p.operand e.neg } outer
    exact ⟨a, f, hrun, hf⟩
  | ofSigned h ih =>
    intro term outer
    obtain ⟨e, f, hrun, hf⟩ := ih ⟨id, id, term⟩ outer
    exact ⟨e, _, hrun, rfl, hf⟩
  | mul ha hb iha ihb => exact iha.product_step (fun _ _ _ => rfl) ihb
  | div ha hb iha ihb => exact iha.product_step (fun _ _ _ => rfl) ihb
  | modulo ha hb iha ihb => exact iha.product_step (f := fun a b => .ofShape (.modulo a b)) (fun _ _ _ => rfl) ihb
  | ofProduct h ih =>
    intro outer
    obtain ⟨e, p, hrun, hterm, hproduct⟩ := ih id outer
    refine ⟨e, p, hrun, ?_⟩
    rw [Pending.sum, hterm, hproduct]
    rfl
  | add ha hb iha ihb => exact iha.sum_step (fun _ _ _ => rfl) ihb
  | sub ha hb iha ihb => exact iha.sum_step (fun _ _ _ => rfl) ihb

/-- **The grammar is unambiguous.** -/
theorem Reads.unique {ls : List Lexeme} {r r' : Expr} (h : Reads .sum ls r) (h' : Reads .sum ls r') : r = r' := by
  have hresult : ∀ {r}, Reads .sum ls r → ((awaiting .none []).run ls).bind result = some r := by
    intro r h
    obtain ⟨e, p, hrun, hsum⟩ := h.reaches []
    rw [hrun, ← hsum]
    rfl
  exact Option.some.inj ((hresult h).symm.trans (hresult h'))

end Isolate
