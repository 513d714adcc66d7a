import Isolate.Number
import Mathlib.Algebra.Ring.Rat
import Mathlib.Data.List.TakeWhile

/-!
# Written numbers read back

A rational number is written by digits, a minus and a bar (`Number.integerText`), and none of these is lost on the way
back: the reader of decimal literals gives an integer from its digits (`Number.decimal?_integerText`), and where there
is a bar it divides what stands on both sides of it.

* `Number.ofText_text`: what is written for a rational number is read as that number.
-/

namespace Isolate

open Text

/-! ## Digits -/

theorem Text.bounds_of_isDigit {c : Char} (h : c.isDigit = true) : 48 ≤ c.toNat ∧ c.toNat ≤ 57 := by
  simpa [Char.isDigit, UInt32.le_iff_toNat_le] using h

theorem Text.digit?_of_isDigit {c : Char} (h : c.isDigit = true) : digit? c = some (c.toNat - 48) := by
  have hbounds := bounds_of_isDigit h
  have hascii : c.toNat < 128 := by omega
  simp [digit?, hascii, hbounds]

theorem Text.not_isBlank_of_isDigit {c : Char} (h : c.isDigit = true) : isBlank c = false := by
  have hbounds := bounds_of_isDigit h
  simp only [isBlank, Bool.or_eq_false_iff, Bool.and_eq_false_iff, decide_eq_false_iff_not, beq_eq_false_iff_ne]
  omega

/-- Nothing is left out of a text without characters of the kind. -/
theorem Text.trimBy_eq_self {p : Char → Bool} {cs : List Char} (h : ∀ c ∈ cs, p c = false) : trimBy p cs = cs := by
  have hdrop : ∀ ds : List Char, (∀ c ∈ ds, p c = false) → ds.dropWhile p = ds := fun ds hds =>
    List.dropWhile_eq_self_iff.mpr fun hl => by simp [hds _ (List.getElem_mem hl)]
  rw [trimBy, hdrop cs h, hdrop cs.reverse (by simpa using h), List.reverse_reverse]

namespace Number

variable {cs ds : List Char}

theorem digitRun_of_isDigit (h : ∀ c ∈ cs, c.isDigit = true) (after : Bool) :
    digitRun after cs = (cs.map fun c => c.toNat - 48, []) := by
  induction cs generalizing after with
  | nil => rfl
  | cons c cs ih =>
    obtain ⟨hc, hcs⟩ := List.forall_mem_cons.mp h
    rw [digitRun, digit?_of_isDigit hc, ih hcs]
    rfl

theorem ofDigits_toDigits (n : Nat) : ofDigits ((Nat.toDigits 10 n).map fun c => c.toNat - 48) = n := by
  rw [ofDigits, List.foldl_map]
  exact Nat.ofDigitChars_eq_foldl.symm.trans Nat.ofDigitChars_ten_toDigits

theorem isDigit_of_mem_toDigits {n : Nat} {c : Char} (h : c ∈ Nat.toDigits 10 n) : c.isDigit = true :=
  Nat.isDigit_of_mem_toDigits (by omega) (by omega) h

/-- Digits have no sign in front. -/
theorem signed_of_isDigit (h : ∀ c ∈ cs, c.isDigit = true) : signed cs = (false, cs) := by
  unfold signed
  split
  · exact absurd (h _ List.mem_cons_self) (by decide)
  · exact absurd (h _ List.mem_cons_self) (by decide)
  · rfl

/-! ## Integers -/

/-- An integer by its digits, with a minus in front if it is negative. -/
def integerText : Int → List Char
  | .ofNat n => Nat.toDigits 10 n
  | .negSucc n => '-' :: Nat.toDigits 10 (n + 1)

theorem toList_toString (n : Int) : (toString n).toList = integerText n := by
  cases n with
  | ofNat n => exact Nat.toList_repr
  | negSucc n =>
    show ("-" ++ (n + 1).repr).toList = _
    rw [String.toList_append, Nat.toList_repr]
    rfl

/-- The characters of an integer are digits, but for a minus. -/
theorem isDigit_of_mem_integerText {n : Int} {c : Char} (h : c ∈ integerText n) : c.isDigit = true ∨ c = '-' := by
  cases n with
  | ofNat n => exact .inl (isDigit_of_mem_toDigits h)
  | negSucc n =>
    rcases List.mem_cons.mp h with h | h
    · exact .inr h
    · exact .inl (isDigit_of_mem_toDigits h)

theorem not_mem_integerText {n : Int} {c : Char} (hdigit : c.isDigit = false) (hminus : c ≠ '-') :
    c ∉ integerText n := by
  intro h
  rcases isDigit_of_mem_integerText h with h | h
  · rw [hdigit] at h
    cases h
  · exact hminus h

theorem trim_integerText (n : Int) : trim (integerText n) = integerText n := by
  refine trimBy_eq_self fun c hc => ?_
  rcases isDigit_of_mem_integerText hc with h | rfl
  · exact not_isBlank_of_isDigit h
  · decide

/-- What is read from digits, with a sign that has been read before. -/
theorem decimal?_of_signed {b : Bool} {n : Nat} (h : signed (trim cs) = (b, Nat.toDigits 10 n)) :
    decimal? cs = some (if b then -(n : Rat) else n) := by
  have hdigits : ∀ c ∈ Nat.toDigits 10 n, c.isDigit = true := fun c => isDigit_of_mem_toDigits
  have hsome : ((Nat.toDigits 10 n).map fun c => c.toNat - 48).isEmpty = false := by
    simp [Nat.toDigits_ne_nil]
  have hone : tenTo 0 = 1 := by decide
  unfold decimal?
  simp only [h, digitRun_of_isDigit hdigits, fraction, exponent?, hsome]
  simp [hone, ofDigits_toDigits]

/-- **The text of an integer is read as the integer.** -/
theorem decimal?_integerText (n : Int) : decimal? (integerText n) = some (n : Rat) := by
  cases n with
  | ofNat n =>
    rw [decimal?_of_signed (b := false) (n := n)]
    · simp
    · rw [trim_integerText]
      exact signed_of_isDigit fun c => isDigit_of_mem_toDigits
  | negSucc n =>
    rw [decimal?_of_signed (b := true) (n := n + 1)]
    · simp [Int.negSucc_eq]
    · rw [trim_integerText]
      rfl

/-! ## Rational numbers -/

/-- A text without spaces and bars. -/
def IsPlain (cs : List Char) : Prop := '/' ∉ cs ∧ ' ' ∉ cs

theorem isPlain_integerText (n : Int) : IsPlain (integerText n) :=
  ⟨not_mem_integerText (by decide) (by decide), not_mem_integerText (by decide) (by decide)⟩

theorem filter_of_isPlain (h : IsPlain cs) : cs.filter (· ≠ ' ') = cs :=
  List.filter_eq_self.mpr fun c hc => by simpa using fun heq : c = ' ' => h.2 (heq ▸ hc)

/-- Without a bar, a literal is read. -/
theorem ofText_whole (h : IsPlain cs) {q : Rat} (hq : decimal? cs = some q) :
    ofText (String.ofList cs) = .ok q := by
  have hcount : cs.count '/' = 0 := List.count_eq_zero.mpr h.1
  have hbar : cs.contains '/' = false := by simpa using h.1
  unfold ofText
  simp only [String.toList_ofList, hcount, filter_of_isPlain h, hbar, hq]
  rfl

/-- What stands on the two sides of a bar is divided. -/
theorem ofText_quotient (hc : IsPlain cs) (hd : IsPlain ds) {p q : Rat} (hp : decimal? cs = some p)
    (hq : decimal? ds = some q) (hne : q ≠ 0) : ofText (String.ofList (cs ++ '/' :: ds)) = .ok (p / q) := by
  have hcount : (cs ++ '/' :: ds).count '/' = 1 := by
    rw [List.count_append, List.count_cons, List.count_eq_zero.mpr hc.1, List.count_eq_zero.mpr hd.1]
    rfl
  have hfilter : (cs ++ '/' :: ds).filter (· ≠ ' ') = cs ++ '/' :: ds := by
    rw [List.filter_append, filter_of_isPlain hc, List.filter_cons_of_pos (by decide), filter_of_isPlain hd]
  have hbar : (cs ++ '/' :: ds).contains '/' = true := by simp
  have hbefore : ∀ c ∈ cs, decide (c ≠ '/') = true := fun c hmem => by
    simpa using fun heq : c = '/' => hc.1 (heq ▸ hmem)
  have hleft : (cs ++ '/' :: ds).takeWhile (· ≠ '/') = cs := by
    rw [List.takeWhile_append_of_pos hbefore, List.takeWhile_cons_of_neg (by decide), List.append_nil]
  have hright : (cs ++ '/' :: ds).dropWhile (· ≠ '/') = '/' :: ds := by
    rw [List.dropWhile_append_of_pos hbefore, List.dropWhile_cons_of_neg (by decide)]
  unfold ofText
  simp only [String.toList_ofList, hcount, hfilter, hbar, hleft, hright, List.drop_one, List.tail_cons, hp, hq, hne]
  rfl

/-- **What is written for a rational number is read as that number.** -/
theorem ofText_text (q : Rat) : ofText (text q) = .ok q := by
  have hnum := decimal?_integerText q.num
  unfold text
  split
  · rename_i hden
    have htext : toString q.num = String.ofList (integerText q.num) := by
      rw [← toList_toString, String.ofList_toList]
    rw [htext, ofText_whole (isPlain_integerText _) hnum]
    exact congrArg Except.ok (Rat.coe_int_num_of_den_eq_one hden)
  · have hden : decimal? (Nat.toDigits 10 q.den) = some ((q.den : Int) : Rat) := decimal?_integerText q.den
    have htext : s!"{q.num}/{q.den}" = String.ofList (integerText q.num ++ '/' :: Nat.toDigits 10 q.den) := by
      rw [← String.toList_inj, String.toList_ofList]
      show (toString q.num ++ "/" ++ toString q.den).toList = _
      rw [String.toList_append, String.toList_append, toList_toString, List.append_assoc]
      exact congrArg (fun cs => integerText q.num ++ '/' :: cs) Nat.toList_repr
    have hplain : IsPlain (Nat.toDigits 10 q.den) := isPlain_integerText q.den
    rw [htext, ofText_quotient (isPlain_integerText _) hplain hnum hden (by simp)]
    exact congrArg Except.ok (by simpa using Rat.num_div_den q)

end Number

end Isolate
