import Isolate.Json.Basic

/-!
# Reading JSON text

A reader by descent. Every step takes at least one character, so the length of the text bounds the descent.
-/

namespace Isolate.Json

/-- Between two tokens. -/
def isGap (c : Char) : Bool := c = ' ' || c = '\t' || c = '\n' || c = '\r'

def skipGap (cs : List Char) : List Char := cs.dropWhile isGap

/-! ## Strings -/

def hexDigit? (c : Char) : Option Nat :=
  let n := c.toNat
  if 48 ≤ n && n ≤ 57 then some (n - 48)
  else if 97 ≤ n && n ≤ 102 then some (n - 87)
  else if 65 ≤ n && n ≤ 70 then some (n - 55)
  else none

/-- The character that a one-letter escape stands for. -/
def simpleEscape? : Char → Option Char
  | '"' => some '"'
  | '\\' => some '\\'
  | '/' => some '/'
  | 'b' => some '\x08'
  | 'f' => some '\x0c'
  | 'n' => some '\n'
  | 'r' => some '\r'
  | 't' => some '\t'
  | _ => none

/-- The code units of a string up to its closing quote, and the rest of the text. -/
def units : List Char → Option (List Nat × List Char)
  | [] => none
  | '"' :: rest => some ([], rest)
  | '\\' :: 'u' :: a :: b :: c :: d :: rest => do
    let n := 4096 * (← hexDigit? a) + 256 * (← hexDigit? b) + 16 * (← hexDigit? c) + (← hexDigit? d)
    let (us, rest) ← units rest
    return (n :: us, rest)
  | '\\' :: e :: rest => do
    let c ← simpleEscape? e
    let (us, rest) ← units rest
    return (c.toNat :: us, rest)
  | c :: rest => do
    if c.toNat < 32 || c = '\\' then none
    let (us, rest) ← units rest
    return (c.toNat :: us, rest)

/-- The characters of a sequence of code units: a high and a low surrogate are one character. -/
def joinUnits : List Nat → List Char
  | [] => []
  | [n] => [if 0xd800 ≤ n && n < 0xe000 then '\ufffd' else Char.ofNat n]
  | m :: n :: rest =>
    if 0xd800 ≤ m && m < 0xdc00 && 0xdc00 ≤ n && n < 0xe000 then
      Char.ofNat (0x10000 + (m - 0xd800) * 0x400 + (n - 0xdc00)) :: joinUnits rest
    else (if 0xd800 ≤ m && m < 0xe000 then '\ufffd' else Char.ofNat m) :: joinUnits (n :: rest)

/-- A string whose opening quote has been read. -/
def stringBody? (cs : List Char) : Option (String × List Char) := do
  let (us, rest) ← units cs
  return (String.ofList (joinUnits us), rest)

/-! ## Numbers -/

def isAsciiDigit (c : Char) : Bool := c.isDigit

/-- The digits of the whole part: a zero alone, or any that start with another digit. -/
def wholeDigits? : List Char → Option (List Char × List Char)
  | '0' :: rest => some (['0'], rest)
  | cs =>
    match cs.takeWhile isAsciiDigit with
    | [] => none
    | ds => some (ds, cs.dropWhile isAsciiDigit)

/-- A point with digits, if it is there. -/
def pointPart : List Char → List Char × List Char
  | '.' :: rest =>
    match rest.takeWhile isAsciiDigit with
    | [] => ([], '.' :: rest)
    | ds => ('.' :: ds, rest.dropWhile isAsciiDigit)
  | cs => ([], cs)

/-- An exponent with digits, if it is there. -/
def exponentPart (cs : List Char) : List Char × List Char :=
  match cs with
  | e :: rest =>
    if e = 'e' || e = 'E' then
      let (sign, rest) := match rest with
        | '+' :: rest => (['+'], rest)
        | '-' :: rest => (['-'], rest)
        | rest => ([], rest)
      match rest.takeWhile isAsciiDigit with
      | [] => ([], cs)
      | ds => (e :: sign ++ ds, rest.dropWhile isAsciiDigit)
    else ([], cs)
  | [] => ([], [])

/-- A number without its sign. -/
def unsigned? (negative : Bool) (cs : List Char) : Option (Json × List Char) := do
  let (whole, rest) ← wholeDigits? cs
  let (part, rest) := pointPart rest
  let (power, rest) := exponentPart rest
  let minus := if negative then ['-'] else []
  if part.isEmpty && power.isEmpty then
    let n : Int := Number.ofDigits (whole.filterMap Text.digit?)
    return (integer (if negative then -n else n), rest)
  else return (decimal (String.ofList (minus ++ whole ++ part ++ power)), rest)

/-! ## Values -/

/-- What is left behind a fixed word. -/
def afterWord? : List Char → List Char → Option (List Char)
  | [], cs => some cs
  | w :: ws, c :: cs => if w = c then afterWord? ws cs else none
  | _ :: _, [] => none

/-- The fixed words. -/
def words : List (String × Json) :=
  [("null", null), ("true", bool true), ("false", bool false), ("NaN", decimal "NaN"),
    ("Infinity", decimal "Infinity"), ("-Infinity", decimal "-Infinity")]

/-- A number, a string or a fixed word. -/
def scalar? : List Char → Option (Json × List Char)
  | '"' :: rest => (stringBody? rest).map fun (s, rest) => (string s, rest)
  | cs =>
    match words.findSome? fun (w, v) => (afterWord? w.toList cs).map (v, ·) with
    | some found => some found
    | none =>
      match cs with
      | '-' :: rest => unsigned? true rest
      | cs => unsigned? false cs

mutual

/-- A value at the front of a text. -/
def value? : Nat → List Char → Option (Json × List Char)
  | 0, _ => none
  | fuel + 1, cs =>
    match skipGap cs with
    | '[' :: rest =>
      match skipGap rest with
      | ']' :: rest => some (array [], rest)
      | rest => (items? fuel rest).map fun (vs, rest) => (array vs, rest)
    | '\x7b' :: rest =>
      match skipGap rest with
      | '\x7d' :: rest => some (object [], rest)
      | rest => (entries? fuel [] rest).map fun (es, rest) => (object es, rest)
    | cs => scalar? cs

/-- The items of a list up to its closing bracket. -/
def items? : Nat → List Char → Option (List Json × List Char)
  | 0, _ => none
  | fuel + 1, cs => do
    let (v, rest) ← value? fuel cs
    match skipGap rest with
    | ',' :: rest =>
      let (vs, rest) ← items? fuel rest
      return (v :: vs, rest)
    | ']' :: rest => return ([v], rest)
    | _ => none

/-- The entries of a record up to its closing brace, added to those read so far. -/
def entries? : Nat → List (String × Json) → List Char → Option (List (String × Json) × List Char)
  | 0, _, _ => none
  | fuel + 1, entries, cs =>
    match skipGap cs with
    | '"' :: rest => do
      let (key, rest) ← stringBody? rest
      match skipGap rest with
      | ':' :: rest =>
        let (v, rest) ← value? fuel rest
        match skipGap rest with
        | ',' :: rest => entries? fuel (put key v entries) rest
        | '\x7d' :: rest => return (put key v entries, rest)
        | _ => none
      | _ => none
    | _ => none

end

/-- Reads a text that holds one value. -/
def parse (s : String) : Except Fault Json :=
  match value? (s.length + 1) s.toList with
  | some (v, rest) => if (skipGap rest).isEmpty then .ok v else .error .badJson
  | none => .error .badJson

end Isolate.Json
