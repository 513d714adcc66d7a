import Isolate.Fault
import Isolate.Text.Blank
import Isolate.Text.Digit

/-!
# Written numbers

A rational number is written as a fraction in lowest terms, the denominator left out when it is one (`Number.text`).
Read are decimal literals, with or without a point and an exponent, and quotients of two of them (`Number.ofText`).
Digits of every script count, and a single underscore may stand between two digits.
-/

namespace Isolate.Number

/-! ## Writing -/

/-- A rational number in lowest terms. -/
def text (q : Rat) : String := if q.den = 1 then toString q.num else s!"{q.num}/{q.den}"

/-! ## Digits -/

/-- Splits off the digits in front of a text, single underscores allowed between digits; `after` tells whether a digit
has just been read. -/
def digitRun (after : Bool) : List Char → List Nat × List Char
  | [] => ([], [])
  | c :: cs =>
    match Text.digit? c with
    | some d =>
      let (ds, rest) := digitRun true cs
      (d :: ds, rest)
    | none => if after && c = '_' && (cs.head?.bind Text.digit?).isSome then digitRun false cs else ([], c :: cs)

/-- The number that digits stand for, the highest first. -/
def ofDigits (ds : List Nat) : Nat := ds.foldl (fun n d => 10 * n + d) 0

/-- An optional sign in front of a text. -/
def signed : List Char → Bool × List Char
  | '+' :: cs => (false, cs)
  | '-' :: cs => (true, cs)
  | cs => (false, cs)

/-! ## Integers -/

/-- An integer: blanks around it, a sign, and digits. -/
def integer? (cs : List Char) : Option Int :=
  let (negative, cs) := signed (Text.trimBy Text.isMargin cs)
  match digitRun false cs with
  | (d :: ds, []) => let n : Int := ofDigits (d :: ds); some (if negative then -n else n)
  | _ => none

/-! ## Decimal literals -/

/-- The digits behind a point, none if there is no point. -/
def fraction : List Char → List Nat × List Char
  | '.' :: cs => digitRun false cs
  | cs => ([], cs)

/-- The exponent at the end of a literal; `none` if something else stands there. -/
def exponent? : List Char → Option Int
  | [] => some 0
  | c :: cs =>
    if c = 'e' ∨ c = 'E' then
      let (negative, cs) := signed cs
      match digitRun false cs with
      | (d :: ds, []) => let n : Int := ofDigits (d :: ds); some (if negative then -n else n)
      | _ => none
    else none

/-- Ten to an integer power. -/
def tenTo : Int → Rat
  | .ofNat n => (Nat.pow 10 n : Rat)
  | .negSucc n => 1 / (Nat.pow 10 (n + 1) : Rat)

/-- A decimal literal: blanks around it, a sign, digits with a point before, between or behind them, an exponent. -/
def decimal? (cs : List Char) : Option Rat := do
  let (negative, cs) := signed (Text.trim cs)
  let (whole, rest) := digitRun false cs
  let (part, rest) := fraction rest
  let exponent ← exponent? rest
  if whole.isEmpty && part.isEmpty then none
  let value := (ofDigits (whole ++ part) : Rat) * tenTo (exponent - part.length)
  return if negative then -value else value

/-- Reads a decimal literal, or the quotient of two; spaces do not count. -/
def ofText (s : String) : Except Fault Rat :=
  if 1 < s.toList.count '/' then .error .badNumeral
  else
    let cs := s.toList.filter (· ≠ ' ')
    if cs.contains '/' then
      match decimal? (cs.takeWhile (· ≠ '/')), decimal? ((cs.dropWhile (· ≠ '/')).drop 1) with
      | some p, some q => if q = 0 then .error .divisionByZero else .ok (p / q)
      | _, _ => .error .badQuotient
    else
      match decimal? cs with
      | some q => .ok q
      | none => .error .badNumeral

end Isolate.Number
