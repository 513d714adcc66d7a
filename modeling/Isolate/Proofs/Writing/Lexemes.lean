import Mathlib.Data.String.Basic

/-!
# Lexemes

A formula is read lexeme by lexeme. Blanks and the signs of the language are breaks; what stands between two breaks is
one lexeme, a numeral if it is made of digits, else a name. Blanks are no lexemes themselves.

* `lexemes_between`: breaks between two texts part their lexemes.
* `lexemes_name` and `lexemes_repr`: names and numerals are one lexeme.
-/

namespace Isolate

/-- What a formula is made of. -/
inductive Lexeme where
  | numeral (n : Nat)
  | name (s : String)
  | plus
  | minus
  | times
  | over
  | percent
  | caret
  | bang
  | comma
  | opening
  | closing
  deriving DecidableEq, Repr

namespace Lexeme

/-- The lexeme of a sign. -/
def ofSign? : Char → Option Lexeme
  | '+' => some .plus
  | '-' => some .minus
  | '*' => some .times
  | '/' => some .over
  | '%' => some .percent
  | '^' => some .caret
  | '!' => some .bang
  | ',' => some .comma
  | '(' => some .opening
  | ')' => some .closing
  | _ => none

/-- Does the character end a word? -/
def isBreak (c : Char) : Bool := c = ' ' || (ofSign? c).isSome

/-- The lexeme of a word, none if nothing was read. -/
def ofWord : List Char → List Lexeme
  | [] => []
  | cs => [if cs.all Char.isDigit then numeral (Nat.ofDigitChars 10 cs 0) else name (String.ofList cs)]

/-- The lexemes of a text, when the beginning of a word has been read. -/
def scan (word : List Char) : List Char → List Lexeme
  | [] => ofWord word
  | c :: cs => if isBreak c then ofWord word ++ (ofSign? c).toList ++ scan [] cs else scan (word ++ [c]) cs

end Lexeme

open Lexeme

/-- The lexemes of a text. -/
def lexemes (s : String) : List Lexeme := scan [] s.toList

/-- A name without breaks that is no numeral; every identifier is one. -/
def IsName (s : String) : Prop := s.toList.any isBreak = false ∧ s.toList.all Char.isDigit = false

instance : DecidablePred IsName := fun s =>
  inferInstanceAs (Decidable (s.toList.any isBreak = false ∧ s.toList.all Char.isDigit = false))

/-! ## Words and breaks -/

namespace Lexeme

variable {word cs ds : List Char}

theorem scan_word (h : cs.any isBreak = false) : scan word cs = ofWord (word ++ cs) := by
  induction cs generalizing word with
  | nil => rw [scan, List.append_nil]
  | cons c cs ih =>
    obtain ⟨hc, hcs⟩ := Bool.or_eq_false_iff.mp h
    rw [scan, hc, if_neg Bool.false_ne_true, ih hcs, List.append_assoc, List.singleton_append]

theorem isBreak_of_isDigit {c : Char} (h : c.isDigit = true) : isBreak c = false := by
  cases hc : isBreak c with
  | false => rfl
  | true =>
    unfold isBreak ofSign? at hc
    split at hc <;> simp_all

/-- A word ends where a break begins. -/
theorem scan_append (h : ds.head?.all isBreak = true) : scan word (cs ++ ds) = scan word cs ++ scan [] ds := by
  induction cs generalizing word with
  | nil =>
    cases ds with
    | nil => simp [scan, ofWord]
    | cons d ds =>
      have hd : isBreak d = true := h
      simp [scan, hd, ofWord]
  | cons c cs ih =>
    rw [List.cons_append, scan, scan]
    split
    · rw [ih, List.append_assoc, List.append_assoc, List.append_assoc]
    · exact ih

/-- No word is begun by breaks. -/
theorem scan_breaks_append (h : cs.all isBreak = true) : scan [] (cs ++ ds) = scan [] cs ++ scan [] ds := by
  induction cs with
  | nil => rfl
  | cons c cs ih =>
    obtain ⟨hc, hcs⟩ := (Bool.and_eq_true _ _).mp h
    rw [List.cons_append, scan, scan, if_pos hc, if_pos hc, ih hcs, List.append_assoc, List.append_assoc,
      List.append_assoc]

end Lexeme

/-! ## Texts -/

variable {s t u : String}

theorem lexemes_name (h : IsName s) : lexemes s = [name s] := by
  have hne : s.toList ≠ [] := fun hnil => by
    have := h.2
    rw [hnil] at this
    cases this
  rw [lexemes, scan_word h.1, List.nil_append]
  obtain ⟨c, cs, hcs⟩ := List.exists_cons_of_ne_nil hne
  rw [hcs, ofWord, ← hcs, h.2, if_neg Bool.false_ne_true, String.ofList_toList]
  exact fun hnil => by cases hnil

theorem lexemes_repr (n : Nat) : lexemes n.repr = [numeral n] := by
  have hdigits : ∀ c ∈ Nat.toDigits 10 n, c.isDigit = true := fun c hc =>
    Nat.isDigit_of_mem_toDigits (by omega) (by omega) hc
  have hword : (Nat.toDigits 10 n).any isBreak = false :=
    List.any_eq_false.mpr fun c hc => by rw [isBreak_of_isDigit (hdigits c hc)]; exact Bool.false_ne_true
  obtain ⟨c, cs, hcs⟩ := List.exists_cons_of_ne_nil (Nat.toDigits_ne_nil (n := n) (b := 10))
  rw [lexemes, Nat.toList_repr, scan_word hword, List.nil_append, hcs, ofWord,
    ← hcs, if_pos (List.all_eq_true.mpr hdigits), Nat.ofDigitChars_ten_toDigits]
  exact fun hnil => by cases hnil

theorem lexemes_breaks_append (hu : u.toList.all isBreak = true) : lexemes (u ++ t) = lexemes u ++ lexemes t := by
  rw [lexemes, String.toList_append, scan_breaks_append hu]
  rfl

theorem lexemes_append_breaks (hu : u.toList.head?.all isBreak = true) :
    lexemes (s ++ u) = lexemes s ++ lexemes u := by
  rw [lexemes, String.toList_append, scan_append hu]
  rfl

/-- Breaks between two texts part their lexemes. -/
theorem lexemes_between (hu : u.toList.all isBreak = true) (hne : u ≠ "") :
    lexemes (s ++ u ++ t) = lexemes s ++ lexemes u ++ lexemes t := by
  have hfirst : (u ++ t).toList.head?.all isBreak = true := by
    obtain ⟨d, ds, hds⟩ := List.exists_cons_of_ne_nil (mt String.toList_eq_nil_iff.mp hne)
    rw [hds, List.all_cons, Bool.and_eq_true] at hu
    rw [String.toList_append, hds]
    exact hu.1
  rw [String.append_assoc, lexemes_append_breaks hfirst, lexemes_breaks_append hu, List.append_assoc]

end Isolate
