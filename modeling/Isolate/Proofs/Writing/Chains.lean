import Isolate.Proofs.Meaning.Terms
import Isolate.Proofs.Writing.Grammar

/-!
# Chains of factors

Products and quotients from left to right, without remainders, are *chains* (`Chain`). A chain may stand where a factor
is expected behind a sign of multiplication, and behind a minus, though the grammar reads something else there: it takes
the first factor only, and goes on with the others afterwards. For a chain the value is the same.

* `Chain.mul_chain`: a chain behind a factor.
* `Chain.neg` and `Chain.of_minus`: a chain behind a minus, and the chain without its minus in front.
* `Expr.ReadsAs` and `Expr.ChainsAs`: lexemes that are read as something with the meaning of an expression.
-/

namespace Isolate

variable {I : Interpretation}

/-! ## The meaning of what is read -/

namespace Expr

variable {a a' b b' c : Expr}

theorem value_add (a b : Expr) : (a.add b).value I = a.value I + b.value I := by
  rw [add, sum, ofShape, value_sum]
  simp [Sign.apply]

theorem value_mul (a b : Expr) : (a.mul b).value I = a.value I * b.value I := by
  rw [mul, sum, ofShape, value_sum]
  simp [Sign.apply, Ratio.value_eq]

theorem value_div (a b : Expr) : (a.div b).value I = a.value I / b.value I := by
  rw [div, sum, ofShape, value_sum]
  simp [Sign.apply, Ratio.value_eq]

theorem isDefined_add : (a.add b).IsDefined I ↔ a.IsDefined I ∧ b.IsDefined I := by
  rw [add, sum, ofShape, isDefined_sum]
  simp [Ratio.isDefined_of]

theorem isDefined_mul : (a.mul b).IsDefined I ↔ a.IsDefined I ∧ b.IsDefined I := by
  rw [mul, sum, ofShape, isDefined_sum]
  simp [Ratio.isDefined_iff]

theorem isDefined_div : (a.div b).IsDefined I ↔ a.IsDefined I ∧ b.IsDefined I ∧ b.value I ≠ 0 := by
  rw [div, sum, ofShape, isDefined_sum]
  simp [Ratio.isDefined_iff]

theorem Keeps.neg (h : a.Keeps I b) : a.neg.Keeps I b.neg := fun hd => by
  obtain ⟨hb, hv⟩ := h ((isDefined_neg a).mp hd)
  exact ⟨(isDefined_neg b).mpr hb, by rw [value_neg, value_neg, hv]⟩

theorem Keeps.add (ha : a.Keeps I a') (hb : b.Keeps I b') : (a.add b).Keeps I (a'.add b') := fun hd => by
  obtain ⟨hda, hdb⟩ := isDefined_add.mp hd
  exact ⟨isDefined_add.mpr ⟨(ha hda).1, (hb hdb).1⟩, by rw [value_add, value_add, (ha hda).2, (hb hdb).2]⟩

theorem Keeps.sub (ha : a.Keeps I a') (hb : b.Keeps I b') : (a.sub b).Keeps I (a'.sub b') := ha.add hb.neg

theorem Keeps.mul (ha : a.Keeps I a') (hb : b.Keeps I b') : (a.mul b).Keeps I (a'.mul b') := fun hd => by
  obtain ⟨hda, hdb⟩ := isDefined_mul.mp hd
  exact ⟨isDefined_mul.mpr ⟨(ha hda).1, (hb hdb).1⟩, by rw [value_mul, value_mul, (ha hda).2, (hb hdb).2]⟩

theorem Keeps.div (ha : a.Keeps I a') (hb : b.Keeps I b') : (a.div b).Keeps I (a'.div b') := fun hd => by
  obtain ⟨hda, hdb, h0⟩ := isDefined_div.mp hd
  refine ⟨isDefined_div.mpr ⟨(ha hda).1, (hb hdb).1, ?_⟩, by rw [value_div, value_div, (ha hda).2, (hb hdb).2]⟩
  rwa [(hb hdb).2]

/-! ## Factors in another order of work -/

theorem keeps_mul_mul (a b c : Expr) : (a.mul (b.mul c)).Keeps I ((a.mul b).mul c) := fun hd => by
  simp only [isDefined_mul] at hd ⊢
  exact ⟨⟨⟨hd.1, hd.2.1⟩, hd.2.2⟩, by simp only [value_mul, mul_assoc]⟩

theorem keeps_mul_div (a b c : Expr) : (a.mul (b.div c)).Keeps I ((a.mul b).div c) := fun hd => by
  simp only [isDefined_mul, isDefined_div] at hd ⊢
  exact ⟨⟨⟨hd.1, hd.2.1⟩, hd.2.2⟩, by simp only [value_mul, value_div, mul_div_assoc]⟩

theorem keeps_neg_mul (a b : Expr) : (a.mul b).neg.Keeps I (a.neg.mul b) := fun hd => by
  simp only [isDefined_neg, isDefined_mul] at hd ⊢
  exact ⟨hd, by simp only [value_neg, value_mul, neg_mul]⟩

theorem keeps_neg_div (a b : Expr) : (a.div b).neg.Keeps I (a.neg.div b) := fun hd => by
  simp only [isDefined_neg, isDefined_div] at hd ⊢
  exact ⟨hd, by simp only [value_neg, value_div, neg_div]⟩

theorem neg_neg (e : Expr) : e.neg.neg = e := by
  obtain ⟨s, b, c⟩ := e
  cases s <;> rfl

end Expr

/-! ## What lexemes begin with -/

/-- Is there no minus in front at the level? -/
def Level.isUnsigned : Level → Bool
  | atom | factorial | power => true
  | signed | product | sum => false

/-- Nothing is read from no lexemes, and no minus begins what binds more than a minus. -/
theorem Reads.exists_cons {l : Level} {ls : List Lexeme} {r : Expr} (h : Reads l ls r) :
    ∃ x xs, ls = x :: xs ∧ (l.isUnsigned = true → x ≠ .minus) := by
  induction h with
  | numeral n => exact ⟨_, _, rfl, fun _ => nofun⟩
  | var s => exact ⟨_, _, rfl, fun _ => nofun⟩
  | call s h ih => exact ⟨_, _, rfl, fun _ => nofun⟩
  | group h ih => exact ⟨_, _, rfl, fun _ => nofun⟩
  | neg h ih => exact ⟨_, _, rfl, nofun⟩
  | ofAtom h ih => exact ih
  | ofFactorial h ih => exact ih
  | ofPower h ih | ofSigned h ih | ofProduct h ih =>
    obtain ⟨x, xs, rfl, -⟩ := ih
    exact ⟨x, xs, rfl, nofun⟩
  | factorial h ih =>
    obtain ⟨x, xs, rfl, hx⟩ := ih
    exact ⟨x, _, rfl, hx⟩
  | power hb he ihb ihe =>
    obtain ⟨x, xs, rfl, hx⟩ := ihb
    exact ⟨x, _, rfl, hx⟩
  | mul ha hb iha ihb | div ha hb iha ihb | modulo ha hb iha ihb | add ha hb iha ihb | sub ha hb iha ihb =>
    obtain ⟨x, xs, rfl, -⟩ := iha
    exact ⟨x, _, rfl, nofun⟩

/-- A minus in front of what is read is the last thing to be done. -/
theorem Reads.of_minus {ls : List Lexeme} {r : Expr} (h : Reads .signed (.minus :: ls) r) : Reads .signed ls r.neg := by
  cases h with
  | ofPower h =>
    obtain ⟨x, xs, heq, hx⟩ := h.exists_cons
    exact absurd (List.cons.inj heq).1.symm (hx rfl)
  | neg h =>
    rw [Expr.neg_neg]
    exact h

/-! ## Chains -/

/-- Products and quotients from left to right. -/
inductive Chain : List Lexeme → Expr → Prop
  | signed (h : Reads .signed ls r) : Chain ls r
  | mul (ha : Chain ls a) (hb : Reads .signed ms b) : Chain (ls ++ .times :: ms) (a.mul b)
  | div (ha : Chain ls a) (hb : Reads .signed ms b) : Chain (ls ++ .over :: ms) (a.div b)

variable {ls ms : List Lexeme}

namespace Chain

variable {a b r : Expr}

theorem reads (h : Chain ls r) : Reads .product ls r := by
  induction h with
  | signed h => exact .ofSigned h
  | mul ha hb ih => exact .mul ih hb
  | div ha hb ih => exact .div ih hb

/-- A chain behind a factor. -/
theorem mul_chain (ha : Chain ls a) (hb : Chain ms b) :
    ∃ r, Chain (ls ++ .times :: ms) r ∧ ∀ I, (a.mul b).Keeps I r := by
  induction hb with
  | signed h => exact ⟨_, ha.mul h, fun I => .refl _⟩
  | @mul ms b ns c hb hc ih =>
    obtain ⟨r, hr, hkeeps⟩ := ih
    refine ⟨r.mul c, ?_, fun I => (Expr.keeps_mul_mul a b c).trans ((hkeeps I).mul (.refl c))⟩
    simpa using hr.mul hc
  | @div ms b ns c hb hc ih =>
    obtain ⟨r, hr, hkeeps⟩ := ih
    refine ⟨r.div c, ?_, fun I => (Expr.keeps_mul_div a b c).trans ((hkeeps I).div (.refl c))⟩
    simpa using hr.div hc

/-- A chain behind a minus. -/
theorem neg (h : Chain ls a) : ∃ r, Chain (.minus :: ls) r ∧ ∀ I, a.neg.Keeps I r := by
  induction h with
  | signed h => exact ⟨_, .signed (.neg h), fun I => .refl _⟩
  | @mul ls a ms b ha hb ih =>
    obtain ⟨r, hr, hkeeps⟩ := ih
    exact ⟨r.mul b, hr.mul hb, fun I => (Expr.keeps_neg_mul a b).trans ((hkeeps I).mul (.refl b))⟩
  | @div ls a ms b ha hb ih =>
    obtain ⟨r, hr, hkeeps⟩ := ih
    exact ⟨r.div b, hr.div hb, fun I => (Expr.keeps_neg_div a b).trans ((hkeeps I).div (.refl b))⟩

theorem exists_cons (h : Chain ls a) : ∃ x xs, ls = x :: xs := by
  obtain ⟨x, xs, rfl, -⟩ := h.reads.exists_cons
  exact ⟨x, xs, rfl⟩

/-- A chain without the minus in front of it. -/
theorem of_minus (h : Chain (.minus :: ls) a) : ∃ r, Chain ls r ∧ ∀ I, a.neg.Keeps I r := by
  generalize hms : Lexeme.minus :: ls = ms at h
  induction h generalizing ls with
  | signed h =>
    subst hms
    exact ⟨_, .signed h.of_minus, fun I => .refl _⟩
  | @mul ms a ns b ha hb ih =>
    obtain ⟨x, xs, rfl⟩ := ha.exists_cons
    obtain ⟨rfl, rfl⟩ := List.cons.inj hms
    obtain ⟨r, hr, hkeeps⟩ := ih rfl
    exact ⟨r.mul b, hr.mul hb, fun I => (Expr.keeps_neg_mul a b).trans ((hkeeps I).mul (.refl b))⟩
  | @div ms a ns b ha hb ih =>
    obtain ⟨x, xs, rfl⟩ := ha.exists_cons
    obtain ⟨rfl, rfl⟩ := List.cons.inj hms
    obtain ⟨r, hr, hkeeps⟩ := ih rfl
    exact ⟨r.div b, hr.div hb, fun I => (Expr.keeps_neg_div a b).trans ((hkeeps I).div (.refl b))⟩

end Chain

/-! ## Lexemes for expressions -/

namespace Expr

variable {a b e : Expr} {l : Level}

/-- The lexemes are read, at the level, as something with the meaning of the expression. -/
def ReadsAs (l : Level) (e : Expr) (ls : List Lexeme) : Prop := ∃ r, Reads l ls r ∧ ∀ I, e.Keeps I r

/-- The lexemes are a chain with the meaning of the expression. -/
def ChainsAs (e : Expr) (ls : List Lexeme) : Prop := ∃ r, Chain ls r ∧ ∀ I, e.Keeps I r

theorem ReadsAs.of_keeps (h : a.ReadsAs l ls) (hkeeps : ∀ I, b.Keeps I a) : b.ReadsAs l ls := by
  obtain ⟨r, hr, ha⟩ := h
  exact ⟨r, hr, fun I => (hkeeps I).trans (ha I)⟩

theorem ReadsAs.neg (h : e.ReadsAs .signed ls) : e.neg.ReadsAs .signed (.minus :: ls) := by
  obtain ⟨r, hr, he⟩ := h
  exact ⟨r.neg, .neg hr, fun I => (he I).neg⟩

theorem ReadsAs.signed (h : e.ReadsAs .atom ls) : e.ReadsAs .signed ls := by
  obtain ⟨r, hr, he⟩ := h
  exact ⟨r, .ofPower (.ofFactorial (.ofAtom hr)), he⟩

theorem ReadsAs.group (h : e.ReadsAs .sum ls) : e.ReadsAs .atom (.opening :: (ls ++ [.closing])) := by
  obtain ⟨r, hr, he⟩ := h
  exact ⟨r, .group hr, he⟩

theorem ReadsAs.chain (h : e.ReadsAs .signed ls) : e.ChainsAs ls := by
  obtain ⟨r, hr, he⟩ := h
  exact ⟨r, .signed hr, he⟩

theorem ReadsAs.add (ha : a.ReadsAs .sum ls) (hb : b.ChainsAs ms) : (a.add b).ReadsAs .sum (ls ++ .plus :: ms) := by
  obtain ⟨r, hr, hra⟩ := ha
  obtain ⟨t, ht, htb⟩ := hb
  exact ⟨r.add t, hr.add ht.reads, fun I => (hra I).add (htb I)⟩

theorem ReadsAs.sub (ha : a.ReadsAs .sum ls) (hb : b.ChainsAs ms) : (a.sub b).ReadsAs .sum (ls ++ .minus :: ms) := by
  obtain ⟨r, hr, hra⟩ := ha
  obtain ⟨t, ht, htb⟩ := hb
  exact ⟨r.sub t, hr.sub ht.reads, fun I => (hra I).sub (htb I)⟩

theorem ChainsAs.of_keeps (h : a.ChainsAs ls) (hkeeps : ∀ I, b.Keeps I a) : b.ChainsAs ls := by
  obtain ⟨r, hr, ha⟩ := h
  exact ⟨r, hr, fun I => (hkeeps I).trans (ha I)⟩

theorem ChainsAs.sum (h : e.ChainsAs ls) : e.ReadsAs .sum ls := by
  obtain ⟨r, hr, he⟩ := h
  exact ⟨r, .ofProduct hr.reads, he⟩

theorem ChainsAs.neg (h : e.ChainsAs ls) : e.neg.ChainsAs (.minus :: ls) := by
  obtain ⟨r, hr, he⟩ := h
  obtain ⟨s, hs, hneg⟩ := hr.neg
  exact ⟨s, hs, fun I => (he I).neg.trans (hneg I)⟩

theorem ChainsAs.of_minus (h : e.ChainsAs (.minus :: ls)) : e.neg.ChainsAs ls := by
  obtain ⟨r, hr, he⟩ := h
  obtain ⟨s, hs, hneg⟩ := hr.of_minus
  exact ⟨s, hs, fun I => (he I).neg.trans (hneg I)⟩

theorem ChainsAs.mul (ha : a.ChainsAs ls) (hb : b.ChainsAs ms) : (a.mul b).ChainsAs (ls ++ .times :: ms) := by
  obtain ⟨r, hr, hra⟩ := ha
  obtain ⟨t, ht, htb⟩ := hb
  obtain ⟨s, hs, hrt⟩ := hr.mul_chain ht
  exact ⟨s, hs, fun I => ((hra I).mul (htb I)).trans (hrt I)⟩

theorem ChainsAs.div (ha : a.ChainsAs ls) (hb : b.ReadsAs .signed ms) : (a.div b).ChainsAs (ls ++ .over :: ms) := by
  obtain ⟨r, hr, hra⟩ := ha
  obtain ⟨t, ht, htb⟩ := hb
  exact ⟨r.div t, hr.div ht, fun I => (hra I).div (htb I)⟩

theorem ChainsAs.ne_nil (h : e.ChainsAs ls) : ls ≠ [] := by
  obtain ⟨r, hr, -⟩ := h
  obtain ⟨x, xs, rfl⟩ := hr.exists_cons
  exact List.cons_ne_nil x xs

end Expr

end Isolate
