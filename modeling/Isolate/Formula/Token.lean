import Isolate.Scalar.Basic
import Isolate.Text.Letter

/-!
# Tokens of equation text

Numbers, names and operator signs, with blanks between them. An integer may be written to base sixteen, eight or two; a
number with a point or an exponent is rounded to its digits. A number with `j` behind it is imaginary. What stands
behind `#` in a line is left out.
-/

namespace Isolate

/-- An operator sign. Both `^` and `**` are `power`. -/
inductive Mark where
  | plus
  | minus
  | times
  | over
  | percent
  | power
  | bang
  | comma
  | opening
  | closing
  | less
  | greater
  deriving DecidableEq, Repr

inductive Token where
  | integer (n : Nat)
  | decimal (s : Scalar)
  | imaginary
  | name (s : String)
  | mark (m : Mark)
  | lineEnd
  deriving DecidableEq, Repr

namespace Token

/-! ## Numbers -/

/-- A digit of a number in equation text; only those of ASCII count. -/
def isDigit (c : Char) : Bool := c.isDigit

/-- Splits off digits, single underscores allowed between them. -/
def digits (after : Bool) : List Char → List Char × List Char
  | [] => ([], [])
  | c :: cs =>
    if isDigit c then
      let (ds, rest) := digits true cs
      (c :: ds, rest)
    else if after && c = '_' && (cs.head?.any isDigit) then digits false cs
    else ([], c :: cs)

def valueOf (ds : List Char) : Nat := Number.ofDigits (ds.filterMap Text.digit?)

/-- An exponent with digits, if it is there, and what is left. -/
def exponent (cs : List Char) : Option (Int × List Char) :=
  match cs with
  | e :: rest =>
    if e = 'e' || e = 'E' then
      let (negative, rest) := Number.signed rest
      match digits false rest with
      | ([], _) => none
      | (ds, rest) => some (if negative then -(valueOf ds : Int) else valueOf ds, rest)
    else none
  | [] => none

/-- An integer; zeros at its front that other digits follow are a number of their own. -/
def wholeNumber (ds : List Char) : List Token :=
  let zeros := ds.takeWhile (· = '0')
  let others := ds.dropWhile (· = '0')
  if zeros.isEmpty || others.isEmpty then [integer (valueOf ds)] else [integer 0, integer (valueOf others)]

/-- The base of a number by the letter behind its first zero. -/
def baseOf? : Char → Option Nat
  | 'x' | 'X' => some 16
  | 'o' | 'O' => some 8
  | 'b' | 'B' => some 2
  | _ => none

/-- A digit to a base. -/
def digitIn? (base : Nat) (c : Char) : Option Nat :=
  let n :=
    if c.isDigit then c.toNat - '0'.toNat
    else if c.isAlpha then c.toLower.toNat - 'a'.toNat + 10
    else base
  if n < base then some n else none

/-- Splits off digits to a base, each of which may have an underscore in front. -/
def digitsIn (base : Nat) : List Char → List Nat × List Char
  | '_' :: c :: cs =>
    match digitIn? base c with
    | some d =>
      let (ds, rest) := digitsIn base cs
      (d :: ds, rest)
    | none => ([], '_' :: c :: cs)
  | c :: cs =>
    match digitIn? base c with
    | some d =>
      let (ds, rest) := digitsIn base cs
      (d :: ds, rest)
    | none => ([], c :: cs)
  | [] => ([], [])

/-- An integer to another base than ten, and what is left. -/
def basedNumber? : List Char → Option (Token × List Char)
  | '0' :: letter :: cs =>
    match (baseOf? letter).map fun base => (base, digitsIn base cs) with
    | some (_, [], _) => none
    | some (base, ds, rest) => some (integer (ds.foldl (fun n d => n * base + d) 0), rest)
    | none => none
  | _ => none

/-- A number with a point or an exponent. As many digits count as are written from the first one that is not zero on;
without a point, an integer has all its digits. -/
def decimalNumber (ds : List Char) (pointed : Bool) (power : Int) : Token :=
  let q : Rat := (valueOf ds : Rat) * Number.tenTo power
  let written := ((ds.filterMap Text.digit?).dropWhile (· = 0)).length
  decimal (Scalar.ofDecimal (if pointed ∨ q.den ≠ 1 then written else max written (Rounding.width q.num.natAbs)) q)

/-- The number at the front of a text that starts with a digit, or with a point and a digit. -/
def number (cs : List Char) : List Token × List Char :=
  let (whole, rest) := digits false cs
  let (part, rest, pointed) := match rest with
    | '.' :: more =>
      let (part, rest) := digits false more
      (part, rest, true)
    | rest => ([], rest, false)
  let (power, rest, raised) := match exponent rest with
    | some (n, rest) => (n, rest, true)
    | none => (0, rest, false)
  let tokens :=
    if pointed || raised then [decimalNumber (whole ++ part) pointed (power - part.length)]
    else wholeNumber whole
  match rest with
  | 'j' :: rest => ([imaginary], rest)
  | 'J' :: rest => ([imaginary], rest)
  | rest => (tokens, rest)

/-! ## Marks -/

def markOf? : Char → Option Mark
  | '+' => some .plus
  | '-' => some .minus
  | '*' => some .times
  | '/' => some .over
  | '%' => some .percent
  | '^' => some .power
  | '!' => some .bang
  | ',' => some .comma
  | '(' => some .opening
  | ')' => some .closing
  | '<' => some .less
  | '>' => some .greater
  | _ => none

/-- A blank between two tokens. -/
def isGap (c : Char) : Bool := c = ' ' || c = '\t' || c = '\x0c'

def isLineEnd (c : Char) : Bool := c = '\n' || c = '\r'

/-- Does a number start here? -/
def startsNumber : List Char → Bool
  | c :: d :: _ => isDigit c || (c = '.' && isDigit d)
  | [c] => isDigit c
  | [] => false

/-- Reads at most `fuel` tokens; `none` if something is no token. -/
def scanWithin : Nat → List Char → Option (List Token)
  | 0, _ => none
  | fuel + 1, cs =>
    match cs with
    | [] => some []
    | c :: rest =>
      if isGap c then scanWithin fuel rest
      else if isLineEnd c then (scanWithin fuel rest).map (lineEnd :: ·)
      else if c = '#' then scanWithin fuel (rest.dropWhile fun c => !isLineEnd c)
      else if startsNumber cs then
        let (tokens, rest) := match basedNumber? cs with
          | some (token, rest) => ([token], rest)
          | none => number cs
        (scanWithin fuel rest).map (tokens ++ ·)
      else if Text.isLetter c then
        let word := rest.takeWhile Text.isNameChar
        (scanWithin fuel (rest.drop word.length)).map (name (String.ofList (c :: word)) :: ·)
      else
        match c, rest with
        | '*', '*' :: rest => (scanWithin fuel rest).map (mark .power :: ·)
        | c, rest => do
          let m ← markOf? c
          (scanWithin fuel rest).map (mark m :: ·)

/-- The tokens of a text. -/
def scan (cs : List Char) : Option (List Token) := scanWithin (cs.length + 1) cs

/-! ## Bare names -/

def isWordStart (c : Char) : Bool := c.isAlpha || c = '_'

def isWordChar (c : Char) : Bool := c.isAlphanum || c = '_'

/-- The words of ASCII letters, digits and underscores in a text that no opening bracket follows. -/
def bareWords : Nat → List Char → List String
  | 0, _ => []
  | _ + 1, [] => []
  | fuel + 1, c :: cs =>
    if isWordStart c then
      let word := c :: cs.takeWhile isWordChar
      let rest := cs.drop (word.length - 1)
      let others := bareWords fuel rest
      if (rest.dropWhile Text.isBlank).head? = some '(' then others else String.ofList word :: others
    else bareWords fuel cs

end Token

end Isolate
