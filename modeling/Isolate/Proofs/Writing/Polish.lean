import Isolate.Expr.Printing
import Isolate.Proofs.Matching.Mentions
import Isolate.Proofs.Meaning.Terms
import Isolate.Proofs.Records.Numerals

/-!
# Reverse Polish notation on a stack

The words of a text in reverse Polish notation tell a machine with a stack of numbers what to do: numbers and variables
are put on the stack, operators and functions take their operands from it and put their result there (`Polish.step`).
The machine halts early if operands are missing or if it has to divide by zero (`Polish.Halt`).

What an expression is written as *pushes* its value, whatever is on the stack and whatever comes behind
(`Polish.Pushes`), because each way to build tokens from tokens keeps this. So the machine never runs out of operands.

* `Expr.pushes_polishTokens`: the tokens of an expression push its value where it is defined.
* `Expr.run_polish`: the machine ends with the value alone, and halts for a divisor that is zero just where the
  expression is not defined.
-/

namespace Isolate

namespace Polish

/-! ## The machine -/

/-- Why the machine halts before the end. -/
inductive Halt where
  | underflow
  | zeroDivisor
  deriving DecidableEq, Repr

inductive Operator where
  | power
  | modulo
  | factorial
  | multiply
  | divide
  | add
  | negate
  deriving DecidableEq, Repr

namespace Operator

def ofText? : String → Option Operator
  | "^" => some power
  | "%" => some modulo
  | "!" => some factorial
  | "*" => some multiply
  | "/" => some divide
  | "+" => some add
  | "neg" => some negate
  | _ => none

/-- The operands are on top of the stack, the last one uppermost. -/
def perform (I : Interpretation) : Operator → List Rat → Except Halt (List Rat)
  | power, y :: x :: st => .ok (I.power x y :: st)
  | modulo, y :: x :: st => .ok (I.modulo x y :: st)
  | factorial, x :: st => .ok (I.factorial x :: st)
  | multiply, y :: x :: st => .ok (x * y :: st)
  | divide, y :: x :: st => if y = 0 then .error .zeroDivisor else .ok (x / y :: st)
  | add, y :: x :: st => .ok ((x + y) :: st)
  | negate, x :: st => .ok (-x :: st)
  | _, _ => .error .underflow

end Operator

/-- The number of arguments of the names that are functions; the other names are variables. -/
abbrev Signature := String → Option Nat

/-- The number that is written like this. -/
def numeral? (t : String) : Option Rat :=
  match Number.ofText t with
  | .ok q => if Number.text q = t then some q else none
  | .error _ => none

/-- What the machine does for one token. -/
def step (I : Interpretation) (sig : Signature) (st : List Rat) (t : String) : Except Halt (List Rat) :=
  match numeral? t, Operator.ofText? t, sig t with
  | some q, _, _ => .ok (q :: st)
  | none, some o, _ => o.perform I st
  | none, none, some n => if n ≤ st.length then .ok (I.call t (st.take n).reverse :: st.drop n) else .error .underflow
  | none, none, none => .ok (I.var t :: st)

/-- The stack at the end. -/
def run (I : Interpretation) (sig : Signature) (ts : List String) (st : List Rat) : Except Halt (List Rat) :=
  ts.foldlM (step I sig) st

/-- What stands between blanks. -/
def words (s : String) : List String := ((s.split ' ').toList.map (·.copy)).filter (· ≠ "")

/-- The text is one word. -/
structure IsSolid (t : String) : Prop where
  ne_empty : t ≠ ""
  no_blank : ' ' ∉ t.toList

instance (t : String) : Decidable (IsSolid t) :=
  decidable_of_iff (t ≠ "" ∧ ' ' ∉ t.toList) ⟨fun h => ⟨h.1, h.2⟩, fun h => ⟨h.ne_empty, h.no_blank⟩⟩

/-- The name is one word, and it is neither an operator nor a number. -/
structure IsWord (name : String) : Prop extends IsSolid name where
  no_operator : Operator.ofText? name = none
  no_numeral : ∀ q, name ≠ Number.text q

variable {I : Interpretation} {sig : Signature} {t : String} {ts us : List String} {st : List Rat} {D E G : Prop}
  {x y z : Rat}

theorem run_cons (t : String) (ts : List String) (st : List Rat) :
    run I sig (t :: ts) st = step I sig st t >>= run I sig ts := List.foldlM_cons ..

/-! ## Tokens -/

@[simp] theorem numeral?_text (q : Rat) : numeral? (Number.text q) = some q := by simp [numeral?, Number.ofText_text]

theorem numeral?_eq_none (h : ∀ q, t ≠ Number.text q) : numeral? t = none := by
  unfold numeral?
  split
  · exact if_neg fun heq => h _ heq.symm
  · rfl

theorem step_text (q : Rat) : step I sig st (Number.text q) = .ok (q :: st) := by rw [step, numeral?_text]

theorem step_operator {o : Operator} (hnum : numeral? t = none) (ho : Operator.ofText? t = some o) :
    step I sig st t = o.perform I st := by
  rw [step, hnum, ho]

theorem IsWord.of_isOk (hsolid : IsSolid t) (hop : Operator.ofText? t = none) (hnum : (Number.ofText t).isOk = false) :
    IsWord t where
  toIsSolid := hsolid
  no_operator := hop
  no_numeral q hq := by
    rw [hq, Number.ofText_text] at hnum
    cases hnum

theorem IsWord.step_var (h : IsWord t) (hsig : sig t = none) : step I sig st t = .ok (I.var t :: st) := by
  rw [step, numeral?_eq_none h.no_numeral, h.no_operator, hsig]

theorem IsWord.step_call (h : IsWord t) {qs : List Rat} (hsig : sig t = some qs.length) :
    step I sig (qs.reverse ++ st) t = .ok (I.call t qs :: st) := by
  have hlen : qs.length ≤ (qs.reverse ++ st).length := by simp
  rw [step, numeral?_eq_none h.no_numeral, h.no_operator, hsig]
  simp only [hlen, if_true]
  rw [List.take_left' (by simp), List.drop_left' (by simp), List.reverse_reverse]

/-! ## Tokens that push a number -/

/-- Where the condition holds, the tokens put the number on the stack; elsewhere they halt for a divisor zero. -/
structure Pushes (I : Interpretation) (sig : Signature) (ts : List String) (D : Prop) (x : Rat) : Prop where
  run_eq : D → ∀ rest st, run I sig (ts ++ rest) st = run I sig rest (x :: st)
  halts : ¬D → ∀ rest st, run I sig (ts ++ rest) st = .error .zeroDivisor

namespace Pushes

theorem congr (h : Pushes I sig ts D x) (hiff : E ↔ D) (heq : x = y) : Pushes I sig ts E y := by
  obtain rfl := heq
  exact ⟨fun hE => h.run_eq (hiff.mp hE), fun hE => h.halts (mt hiff.mpr hE)⟩

theorem single (h : ∀ st, step I sig st t = .ok (x :: st)) : Pushes I sig [t] True x where
  run_eq _ rest st := by
    rw [List.singleton_append, run_cons, h]
    rfl
  halts h := absurd trivial h

theorem unary (hx : Pushes I sig ts D x) (h : ∀ st, step I sig (x :: st) t = .ok (y :: st)) :
    Pushes I sig (ts ++ [t]) D y where
  run_eq hD rest st := by
    rw [List.append_assoc, hx.run_eq hD, List.singleton_append, run_cons, h]
    rfl
  halts hD rest st := by rw [List.append_assoc, hx.halts hD]

/-- An operator with two operands, which may refuse them. -/
theorem binary_if (hx : Pushes I sig ts D x) (hy : Pushes I sig us E y)
    (h : G → ∀ st, step I sig (y :: x :: st) t = .ok (z :: st))
    (hrefuse : ¬G → ∀ st, step I sig (y :: x :: st) t = .error .zeroDivisor) :
    Pushes I sig (ts ++ us ++ [t]) (D ∧ E ∧ G) z where
  run_eq hall rest st := by
    obtain ⟨hD, hE, hG⟩ := hall
    rw [List.append_assoc, List.append_assoc, hx.run_eq hD, hy.run_eq hE, List.singleton_append, run_cons, h hG]
    rfl
  halts hnot rest st := by
    rw [List.append_assoc, List.append_assoc]
    by_cases hD : D
    · rw [hx.run_eq hD]
      by_cases hE : E
      · rw [hy.run_eq hE, List.singleton_append, run_cons, hrefuse fun hG => hnot ⟨hD, hE, hG⟩]
        rfl
      · rw [hy.halts hE]
    · rw [hx.halts hD]

theorem binary (hx : Pushes I sig ts D x) (hy : Pushes I sig us E y)
    (h : ∀ st, step I sig (y :: x :: st) t = .ok (z :: st)) : Pushes I sig (ts ++ us ++ [t]) (D ∧ E) z := by
  refine (binary_if hx hy (G := True) (fun _ => h) fun hno => absurd trivial hno).congr ?_ rfl
  rw [and_true]

section Lists

variable {α : Type} {as : List α} {tokens : α → List String} {P : α → Prop} {value : α → Rat}

/-- Operands one behind the other, each with the operator that joins it to those before. -/
theorem chain {f : Rat → Rat → Rat} (ht : ∀ x y st, step I sig (y :: x :: st) t = .ok (f x y :: st))
    (h : ∀ a ∈ as, Pushes I sig (tokens a) (P a) (value a)) (hx : Pushes I sig ts D x) :
    Pushes I sig (ts ++ as.flatMap fun a => tokens a ++ [t]) (D ∧ ∀ a ∈ as, P a)
      (as.foldl (fun x a => f x (value a)) x) := by
  induction as generalizing ts D x with
  | nil => simpa using hx
  | cons a as ih =>
    have hfirst := hx.binary (h a List.mem_cons_self) (ht x (value a))
    have hrest := ih (fun b hb => h b (List.mem_cons_of_mem a hb)) hfirst
    rw [List.flatMap_cons, ← List.append_assoc, ← List.append_assoc]
    exact hrest.congr (by rw [List.forall_mem_cons, and_assoc]) rfl

/-- Operands one behind the other, all of them left on the stack. -/
theorem run_flatMap (h : ∀ a ∈ as, Pushes I sig (tokens a) (P a) (value a)) (hall : ∀ a ∈ as, P a)
    (rest : List String) (st : List Rat) :
    run I sig (as.flatMap tokens ++ rest) st = run I sig rest ((as.map value).reverse ++ st) := by
  induction as generalizing st with
  | nil => rfl
  | cons a as ih =>
    obtain ⟨ha, has⟩ := List.forall_mem_cons.mp hall
    rw [List.flatMap_cons, List.append_assoc, (h a List.mem_cons_self).run_eq ha,
      ih (fun b hb => h b (List.mem_cons_of_mem a hb)) has, List.map_cons, List.reverse_cons, List.append_assoc]
    rfl

theorem halts_flatMap (h : ∀ a ∈ as, Pushes I sig (tokens a) (P a) (value a)) (hnot : ¬∀ a ∈ as, P a)
    (rest : List String) (st : List Rat) :
    run I sig (as.flatMap tokens ++ rest) st = .error .zeroDivisor := by
  induction as generalizing st with
  | nil => exact absurd (List.forall_mem_nil P) hnot
  | cons a as ih =>
    have ha := h a List.mem_cons_self
    rw [List.flatMap_cons, List.append_assoc]
    by_cases hP : P a
    · rw [ha.run_eq hP]
      exact ih (fun b hb => h b (List.mem_cons_of_mem a hb)) (fun has => hnot (List.forall_mem_cons.mpr ⟨hP, has⟩)) _
    · exact ha.halts hP _ _

/-- A function behind its arguments. -/
theorem call (h : ∀ a ∈ as, Pushes I sig (tokens a) (P a) (value a)) (hname : IsWord t)
    (hsig : sig t = some as.length) :
    Pushes I sig (as.flatMap tokens ++ [t]) (∀ a ∈ as, P a) (I.call t (as.map value)) where
  run_eq hall rest st := by
    rw [List.append_assoc, run_flatMap h hall, List.singleton_append, run_cons,
      hname.step_call (by rw [hsig, List.length_map])]
    rfl
  halts hnot rest st := by rw [List.append_assoc, halts_flatMap h hnot]

end Lists

end Pushes

end Polish

open Polish

/-! ## Expressions -/

/-- The name of the node itself, if it has one, is what the signature says. -/
def Shape.Fits (sig : Signature) : Shape α → Prop
  | var name => IsWord name ∧ sig name = none
  | call name as => IsWord name ∧ sig name = some as.length
  | _ => True

namespace Expr

variable {I : Interpretation} {sig : Signature} {e : Expr}

theorem polishTokens_eq (e : Expr) : e.polishTokens =
    match e.sign with
    | .pos => (e.shape.map polishTokens).polish
    | .neg => (e.shape.map polishTokens).polish ++ ["neg"] := fold_eq ..

/-- The tokens of the expression push its value where it is defined. -/
def IsPushed (I : Interpretation) (sig : Signature) (e : Expr) : Prop :=
  Pushes I sig e.polishTokens (e.IsDefined I) (e.value I)

theorem foldl_mul (es : List Expr) (q : Rat) :
    es.foldl (fun x a => x * a.value I) q = q * product (es.map (value I)) := by
  induction es generalizing q with
  | nil => simp
  | cons e es ih => rw [List.foldl_cons, ih, List.map_cons, product_cons, mul_assoc]

theorem foldl_add (ts : List (Ratio Expr)) (q : Rat) :
    ts.foldl (fun x t => x + t.value I) q = q + total (ts.map (Ratio.value I)) := by
  induction ts generalizing q with
  | nil => simp
  | cons t ts ih => rw [List.foldl_cons, ih, List.map_cons, total_cons, add_assoc]

theorem pushes_factors {es : List Expr} (h : ∀ a ∈ es, a.IsPushed I sig) :
    Pushes I sig (polishFactors (es.map polishTokens)) (∀ a ∈ es, a.IsDefined I) (product (es.map (value I))) := by
  cases es with
  | nil =>
    have hone : Number.text 1 = "1" := by decide
    have hpush : Pushes I sig [Number.text 1] True 1 := .single fun st => step_text 1
    rw [hone] at hpush
    exact hpush.congr (by simp) rfl
  | cons f fs =>
    obtain ⟨hf, hfs⟩ := List.forall_mem_cons.mp h
    have htimes : ∀ x y st, step I sig (y :: x :: st) "*" = .ok (x * y :: st) := fun x y st =>
      step_operator (o := .multiply) (by decide) rfl
    have hchain := hf.chain htimes hfs
    rw [List.map_cons, polishFactors, List.flatMap_map]
    exact hchain.congr List.forall_mem_cons (foldl_mul fs _)

theorem pushes_term {t : Ratio Expr} (h : ∀ a ∈ t.factors, a.IsPushed I sig) :
    Pushes I sig (t.map polishTokens).polish (t.IsDefined I) (t.value I) := by
  have hn := pushes_factors fun a ha => h a (List.mem_append_left _ ha)
  have hd := pushes_factors fun a ha => h a (List.mem_append_right _ ha)
  obtain ⟨ns, ds⟩ := t
  cases ds with
  | nil =>
    rw [Ratio.polish]
    simp only [Ratio.map, List.map_nil, List.isEmpty_nil, if_true, List.append_nil]
    exact hn.congr (by simp [Ratio.isDefined_iff]) (by simp [Ratio.value_eq])
  | cons d ds =>
    have hquotient := hn.binary_if hd (t := "/") (G := product ((d :: ds).map (value I)) ≠ 0)
      (fun hne st => (step_operator (o := .divide) (by decide) rfl).trans (if_neg hne))
      (fun hzero st => (step_operator (o := .divide) (by decide) rfl).trans (if_pos (not_not.mp hzero)))
    rw [Ratio.polish]
    simp only [Ratio.map, List.map_cons, List.isEmpty_cons, Bool.false_eq_true, if_false]
    rw [← List.append_assoc]
    refine hquotient.congr ?_ (Ratio.value_eq I _).symm
    rw [Ratio.isDefined_iff, product_ne_zero, List.forall_mem_map]
    exact and_congr_right' forall₂_and

theorem pushes_sum {ts : List (Ratio Expr)} (h : ∀ t ∈ ts, ∀ a ∈ t.factors, a.IsPushed I sig) :
    Pushes I sig (Shape.sum (ts.map (Ratio.map polishTokens))).polish (∀ t ∈ ts, t.IsDefined I)
      (total (ts.map (Ratio.value I))) := by
  cases ts with
  | nil =>
    have hzero : Number.text 0 = "0" := by decide
    have hpush : Pushes I sig [Number.text 0] True 0 := .single fun st => step_text 0
    rw [hzero] at hpush
    exact hpush.congr (by simp) rfl
  | cons t ts =>
    obtain ⟨ht, hts⟩ := List.forall_mem_cons.mp h
    have hplus : ∀ x y st, step I sig (y :: x :: st) "+" = .ok ((x + y) :: st) := fun x y st =>
      step_operator (o := .add) (by decide) rfl
    have hchain := (pushes_term ht).chain hplus fun t ht => pushes_term (hts t ht)
    rw [List.map_cons, Shape.polish, List.flatMap_map]
    exact hchain.congr List.forall_mem_cons (foldl_add ts _)

/-- Without divisors of its own, a node is defined where its operands are. -/
theorem isDefined_of_divisors (h : e.shape.divisors = []) : e.IsDefined I ↔ ∀ a ∈ e.children, a.IsDefined I := by
  rw [isDefined_iff, h]
  simp

/-- A node pushes its value if its operands push theirs. -/
theorem pushes_shape (hfits : e.shape.Fits sig) (h : ∀ a ∈ e.children, a.IsPushed I sig) :
    Pushes I sig (e.shape.map polishTokens).polish (e.IsDefined I) (I.apply (e.shape.map (value I))) := by
  have hdefined : e.shape.divisors = [] → (e.IsDefined I ↔ ∀ a ∈ e.shape.children, a.IsDefined I) :=
    isDefined_of_divisors
  rw [children] at h
  cases hshape : e.shape with
  | number q =>
    rw [hshape] at hdefined
    exact (Pushes.single fun st => step_text q).congr ((hdefined rfl).trans (by simp [Shape.children])) rfl
  | var n =>
    rw [hshape] at hdefined hfits
    exact (Pushes.single fun st => hfits.1.step_var hfits.2).congr
      ((hdefined rfl).trans (by simp [Shape.children])) rfl
  | power b x =>
    rw [hshape] at hdefined h
    have hb := h b (by simp [Shape.children])
    have hx := h x (by simp [Shape.children])
    exact (hb.binary hx fun st => step_operator (o := .power) (by decide) rfl).congr
      ((hdefined rfl).trans (by simp [Shape.children])) rfl
  | modulo a b =>
    rw [hshape] at hdefined h
    have ha := h a (by simp [Shape.children])
    have hb := h b (by simp [Shape.children])
    exact (ha.binary hb fun st => step_operator (o := .modulo) (by decide) rfl).congr
      ((hdefined rfl).trans (by simp [Shape.children])) rfl
  | factorial a =>
    rw [hshape] at hdefined h
    have ha := h a (by simp [Shape.children])
    exact (ha.unary fun st => step_operator (o := .factorial) (by decide) rfl).congr
      ((hdefined rfl).trans (by simp [Shape.children])) rfl
  | call n as =>
    rw [hshape] at hdefined hfits h
    have hpushed : ∀ a ∈ as, Pushes I sig a.polishTokens (a.IsDefined I) (a.value I) := h
    rw [Shape.map, Shape.polish, ← List.flatMap_def]
    exact (Pushes.call hpushed hfits.1 hfits.2).congr (hdefined rfl) rfl
  | sum ts =>
    rw [hshape] at h
    have hterms : e.IsDefined I ↔ ∀ t ∈ ts, t.IsDefined I := (isDefined_of_shape hshape).trans
      (isDefined_sum (s := .pos) (c := none))
    refine (pushes_sum fun t ht a ha => h a (List.mem_flatMap.mpr ⟨t, ht, ha⟩)).congr hterms ?_
    simp only [Shape.map, Interpretation.apply, List.map_map]
    rfl

/-- **The tokens of an expression push its value**, on any stack and in front of any tokens. -/
theorem pushes_polishTokens (hfits : e.Everywhere fun a => a.shape.Fits sig) : e.IsPushed I sig := by
  induction e using Expr.induction with
  | h e ih =>
    obtain ⟨hnode, hchildren⟩ := everywhere_iff.mp hfits
    have hshape := pushes_shape hnode fun a ha => ih a ha (hchildren a ha)
    unfold IsPushed
    rw [polishTokens_eq, value_eq]
    cases e.sign with
    | pos => exact hshape
    | neg => exact hshape.unary fun st => step_operator (o := .negate) (by decide) rfl

end Expr

/-! ## The words of the text -/

namespace Polish

theorem isSolid_text (q : Rat) : IsSolid (Number.text q) where
  ne_empty h := by
    have hread := Number.ofText_text q
    rw [h] at hread
    exact absurd hread (by simp [show Number.ofText "" = .error .badNumeral by decide])
  no_blank := by
    unfold Number.text
    split
    · rw [Number.toList_toString]
      exact (Number.isPlain_integerText _).2
    · show ' ' ∉ (toString q.num ++ "/" ++ toString (q.den : Int)).toList
      rw [String.toList_append, String.toList_append, Number.toList_toString, Number.toList_toString]
      have hnum := (Number.isPlain_integerText q.num).2
      have hden := (Number.isPlain_integerText q.den).2
      simp [hnum, hden]

/-- The words between blanks are the tokens that have been put there. -/
theorem words_intercalate (h : ∀ t ∈ ts, IsSolid t) : words (" ".intercalate ts) = ts := by
  have hblank : " " = String.singleton ' ' := by decide
  rw [words, hblank, String.toList_split_intercalate fun t ht => (h t ht).no_blank]
  split
  · rename_i hnil
    rw [hnil]
    rfl
  · exact List.filter_eq_self.mpr fun t ht => by simpa using (h t ht).ne_empty

/-- Words one behind the other, each with a mark behind it. -/
theorem isSolid_flatMap {α : Type} {as : List α} {tokens : α → List String} (ht : IsSolid t)
    (h : ∀ a ∈ as, ∀ u ∈ tokens a, IsSolid u) : ∀ u ∈ as.flatMap fun a => tokens a ++ [t], IsSolid u := by
  intro u hu
  obtain ⟨a, ha, hu⟩ := List.mem_flatMap.mp hu
  rcases List.mem_append.mp hu with hu | hu
  · exact h a ha u hu
  · rwa [List.mem_singleton.mp hu]

theorem isSolid_factors {tss : List (List String)} (h : ∀ ts ∈ tss, ∀ t ∈ ts, IsSolid t) :
    ∀ t ∈ polishFactors tss, IsSolid t := by
  cases tss with
  | nil => exact (by decide : ∀ t ∈ ["1"], IsSolid t)
  | cons ts tss =>
    obtain ⟨hts, htss⟩ := List.forall_mem_cons.mp h
    exact List.forall_mem_append.mpr ⟨hts, isSolid_flatMap (by decide) htss⟩

theorem isSolid_term {r : Ratio (List String)} (h : ∀ ts ∈ r.factors, ∀ t ∈ ts, IsSolid t) :
    ∀ t ∈ r.polish, IsSolid t := by
  have hn := isSolid_factors fun ts hts => h ts (List.mem_append_left _ hts)
  have hd := isSolid_factors fun ts hts => h ts (List.mem_append_right _ hts)
  refine List.forall_mem_append.mpr ⟨hn, ?_⟩
  split
  · exact List.forall_mem_nil _
  · exact List.forall_mem_append.mpr ⟨hd, by decide⟩

/-- The tokens of a node are words if those of its operands are, and its name. -/
theorem isSolid_polish {b : Shape (List String)} (hname : ∀ k name, b.Has k name → IsSolid name)
    (h : ∀ ts ∈ b.children, ∀ t ∈ ts, IsSolid t) : ∀ t ∈ b.polish, IsSolid t := by
  cases b with
  | number q => simpa [Shape.polish] using isSolid_text q
  | var n => simpa [Shape.polish] using hname .var n ⟨rfl, rfl⟩
  | power b x =>
    have hb := h b (by simp [Shape.children])
    have hx := h x (by simp [Shape.children])
    exact List.forall_mem_append.mpr ⟨List.forall_mem_append.mpr ⟨hb, hx⟩, by decide⟩
  | modulo a b =>
    have ha := h a (by simp [Shape.children])
    have hb := h b (by simp [Shape.children])
    exact List.forall_mem_append.mpr ⟨List.forall_mem_append.mpr ⟨ha, hb⟩, by decide⟩
  | factorial a =>
    have ha := h a (by simp [Shape.children])
    exact List.forall_mem_append.mpr ⟨ha, by decide⟩
  | call n as =>
    have has : ∀ t ∈ as.flatten, IsSolid t := fun t ht => by
      obtain ⟨ts, hts, ht⟩ := List.mem_flatten.mp ht
      exact h ts hts t ht
    exact List.forall_mem_append.mpr ⟨has, by simpa using hname .call n ⟨rfl, rfl⟩⟩
  | sum rs =>
    have hterm : ∀ r ∈ rs, ∀ t ∈ r.polish, IsSolid t := fun r hr =>
      isSolid_term fun ts hts => h ts (List.mem_flatMap.mpr ⟨r, hr, hts⟩)
    cases rs with
    | nil => exact (by decide : ∀ t ∈ ["0"], IsSolid t)
    | cons r rs =>
      obtain ⟨hr, hrs⟩ := List.forall_mem_cons.mp hterm
      exact List.forall_mem_append.mpr ⟨hr, isSolid_flatMap (by decide) hrs⟩

end Polish

namespace Expr

variable {I : Interpretation} {sig : Signature} {e : Expr}

theorem isSolid_polishTokens (h : ∀ k name, e.Mentions k name → IsSolid name) : ∀ t ∈ e.polishTokens, IsSolid t := by
  induction e using Expr.induction with
  | h e ih =>
    have hnode : ∀ t ∈ (e.shape.map polishTokens).polish, IsSolid t := by
      refine isSolid_polish (fun k name hhas => h k name ?_) ?_
      · rw [Shape.has_map] at hhas
        exact mentions_iff.mpr (.inl hhas)
      · rw [Shape.children_map]
        refine List.forall_mem_map.mpr fun a ha => ih a ha fun k name hm => h k name ?_
        exact mentions_iff.mpr (.inr ⟨a, ha, hm⟩)
    rw [polishTokens_eq]
    cases e.sign with
    | pos => exact hnode
    | neg => exact List.forall_mem_append.mpr ⟨hnode, by decide⟩

/-! ## The signature of an expression -/

/-- The functions that are called in an expression, each with the number of its arguments. -/
def calls (e : Expr) : List (String × Nat) :=
  e.fold fun _ b => match b with
    | .call n as => (n, as.length) :: as.flatten
    | b => b.children.flatten

/-- What the expression calls are functions, and all other names are variables. -/
def signature (e : Expr) : Signature := fun name => e.calls.lookup name

/-- No name is taken for an operator or a number, none is that of both a variable and a function, and the calls of one
function have as many arguments. -/
structure HasClearNames (e : Expr) : Prop where
  isWord : ∀ k name, e.Mentions k name → IsWord name
  apart : ∀ name, e.Mentions .var name → ¬e.Mentions .call name
  arity : ∀ name m n, (name, m) ∈ e.calls → (name, n) ∈ e.calls → m = n

theorem mem_calls {name : String} {n : Nat} : (name, n) ∈ e.calls ↔
    (∃ as, e.shape = .call name as ∧ as.length = n) ∨ ∃ a ∈ e.children, (name, n) ∈ a.calls := by
  have hchildren : ∀ b : Shape Expr, (name, n) ∈ (b.map calls).children.flatten ↔
      ∃ a ∈ b.children, (name, n) ∈ a.calls := fun b => by simp [Shape.children_map]
  rw [calls, fold_eq, children, ← hchildren]
  cases e.shape with
  | call m as => simp [Shape.map, Shape.children, eq_comm, calls]
  | _ => simp [Shape.map, Shape.children, calls]

theorem mentions_of_mem_calls {name : String} {n : Nat} (h : (name, n) ∈ e.calls) : e.Mentions .call name := by
  induction e using Expr.induction with
  | h e ih =>
    rcases mem_calls.mp h with ⟨as, hshape, -⟩ | ⟨a, ha, hmem⟩
    · exact mentions_iff.mpr (.inl (by rw [hshape]; exact ⟨rfl, rfl⟩))
    · exact mentions_iff.mpr (.inr ⟨a, ha, ih a ha hmem⟩)

/-- A signature fits an expression if it is right for its variables and for its calls. -/
theorem everywhere_fits (hword : ∀ k name, e.Mentions k name → IsWord name)
    (hvar : ∀ name, e.Mentions .var name → sig name = none) (hcall : ∀ p ∈ e.calls, sig p.1 = some p.2) :
    e.Everywhere fun a => a.shape.Fits sig := by
  induction e using Expr.induction with
  | h e ih =>
    refine everywhere_iff.mpr ⟨?_, fun a ha => ih a ha
      (fun k name hm => hword k name (mentions_iff.mpr (.inr ⟨a, ha, hm⟩)))
      (fun name hm => hvar name (mentions_iff.mpr (.inr ⟨a, ha, hm⟩)))
      fun p hp => hcall p (mem_calls.mpr (.inr ⟨a, ha, hp⟩))⟩
    have hhas : ∀ k name, e.shape.Has k name → e.Mentions k name := fun k name h => mentions_iff.mpr (.inl h)
    cases hshape : e.shape with
    | var name =>
      have hm := hhas .var name (by rw [hshape]; exact ⟨rfl, rfl⟩)
      exact ⟨hword .var name hm, hvar name hm⟩
    | call name as =>
      have hm := hhas .call name (by rw [hshape]; exact ⟨rfl, rfl⟩)
      exact ⟨hword .call name hm, hcall (name, as.length) (mem_calls.mpr (.inl ⟨as, hshape, rfl⟩))⟩
    | _ => trivial

/-- The signature of an expression with clear names fits it. -/
theorem HasClearNames.everywhere_fits (h : e.HasClearNames) : e.Everywhere fun a => a.shape.Fits e.signature := by
  have hmem : ∀ name n, e.signature name = some n → (name, n) ∈ e.calls := by
    intro name n hn
    obtain ⟨before, after, heq, -⟩ := List.lookup_eq_some_iff.mp hn
    rw [heq]
    exact List.mem_append_right _ List.mem_cons_self
  refine Expr.everywhere_fits h.isWord (fun name hm => ?_) fun p hp => ?_
  · cases hn : e.signature name with
    | none => rfl
    | some n => exact absurd (mentions_of_mem_calls (hmem name n hn)) (h.apart name hm)
  · cases hn : e.signature p.1 with
    | none =>
      have hne := List.lookup_eq_none_iff.mp hn p hp
      simp at hne
    | some n => rw [h.arity p.1 n p.2 (hmem p.1 n hn) hp]

/-- **Reverse Polish notation is unambiguous and correct.** The machine that gets the words of the text ends with one
number on the stack, the value of the expression. It halts before that only where the expression is not defined, and
then for a divisor that is zero. -/
theorem run_polish (h : e.HasClearNames) (I : Interpretation) :
    (e.IsDefined I → run I e.signature (words e.polish) [] = .ok [e.value I]) ∧
      (¬e.IsDefined I → run I e.signature (words e.polish) [] = .error .zeroDivisor) := by
  have hwords : words e.polish = e.polishTokens ++ [] := by
    rw [polish, words_intercalate (isSolid_polishTokens fun k name hm => (h.isWord k name hm).toIsSolid),
      List.append_nil]
  have hpushed : e.IsPushed I e.signature := pushes_polishTokens h.everywhere_fits
  rw [hwords]
  exact ⟨fun hdef => hpushed.run_eq hdef [] [], fun hnot => hpushed.halts hnot [] []⟩

/-- The expression `f(x, 3/2) / -a`. -/
def callOverMinus : Expr := (call "f" [.var "x", .number (3 / 2)]).div (var "a").neg

theorem mentions_callOverMinus {k : Kind} {name : String} (h : callOverMinus.Mentions k name) :
    (k, name) ∈ [(.var, "x"), (.var, "a"), (.call, "f")] := by
  have hneg : (var "a").neg.Mentions k name ↔ k = .var ∧ "a" = name := by
    rw [mentions_iff]
    simp [neg, var, ofShape, children, Shape.Has, Shape.children]
  rw [callOverMinus, div, sum, ofShape, mentions_iff] at h
  simp [children, Shape.Has, Shape.children, Ratio.factors, hneg] at h
  rcases h with (⟨rfl, rfl⟩ | ⟨rfl, rfl⟩) | ⟨rfl, rfl⟩ <;> decide

theorem hasClearNames_callOverMinus : callOverMinus.HasClearNames where
  isWord k name hm := by
    have hwords : ∀ p ∈ [(Kind.var, "x"), (.var, "a"), (.call, "f")],
        IsSolid p.2 ∧ Operator.ofText? p.2 = none ∧ (Number.ofText p.2).isOk = false := by decide
    obtain ⟨hsolid, hop, hnum⟩ := hwords _ (mentions_callOverMinus hm)
    exact .of_isOk hsolid hop hnum
  apart name hv hc := by
    have hv := mentions_callOverMinus hv
    have hc := mentions_callOverMinus hc
    simp only [List.mem_cons, Prod.mk.injEq, reduceCtorEq, false_and, true_and, false_or, List.not_mem_nil,
      or_false] at hv hc
    rw [hc] at hv
    exact absurd hv (by decide)
  arity name m n hm hn := by
    have hcalls : callOverMinus.calls = [("f", 2)] := by decide
    rw [hcalls, List.mem_singleton, Prod.mk.injEq] at hm hn
    exact hm.2.trans hn.2.symm

/-- Names stand for two, and calls are sums. -/
def allTwo : Interpretation := ⟨fun _ => 2, fun _ => total, fun b _ => b, fun a _ => a, id⟩

theorem run_polish_callOverMinus : callOverMinus.HasClearNames ∧ callOverMinus.IsDefined allTwo ∧
    callOverMinus.polish = "x 3/2 f a neg /" ∧
    run allTwo callOverMinus.signature (words callOverMinus.polish) [] = .ok [-7 / 4] := by
  have hdefined : callOverMinus.IsDefined allTwo := by
    have hcall : (call "f" [.var "x", .number (3 / 2)]).IsDefined allTwo := by
      refine (isDefined_of_divisors rfl).mpr fun a ha => ?_
      rcases List.mem_pair.mp ha with rfl | rfl
      · exact isDefined_var ..
      · exact isDefined_number ..
    have hminus : (var "a").neg.IsDefined allTwo ∧ (var "a").neg.value allTwo ≠ 0 := ⟨isDefined_var .., by decide⟩
    rw [callOverMinus, div, sum, ofShape, isDefined_sum, List.forall_mem_singleton, Ratio.isDefined_iff]
    exact ⟨List.forall_mem_singleton.mpr hcall, List.forall_mem_singleton.mpr hminus⟩
  have hvalue : callOverMinus.value allTwo = -7 / 4 := by decide +kernel
  refine ⟨hasClearNames_callOverMinus, hdefined, by decide +kernel, ?_⟩
  rw [(run_polish hasClearNames_callOverMinus allTwo).1 hdefined, hvalue]

end Expr

end Isolate
