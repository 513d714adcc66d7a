import Isolate.Text.Printable

/-!
# Quoted text

How a piece of text is shown inside a message: in single quotes, or in double quotes if it holds a single quote and no
double one. A backslash, the quote in use and the characters without a printed form are escaped.
-/

namespace Isolate.Text

/-- The `width` lowest hexadecimal digits of a number. -/
def hex (width n : Nat) : List Char :=
  ((List.range width).map fun i => Nat.digitChar (n >>> (4 * i) % 16)).reverse

/-- A character by its code point, in two, four or eight digits. -/
def codeEscape (c : Char) : List Char :=
  if c.toNat < 0x100 then '\\' :: 'x' :: hex 2 c.toNat
  else if c.toNat < 0x10000 then '\\' :: 'u' :: hex 4 c.toNat
  else '\\' :: 'U' :: hex 8 c.toNat

/-- One character between quotes of the given kind. -/
def escape (quote c : Char) : List Char :=
  if c = quote || c = '\\' then ['\\', c]
  else if c = '\n' then ['\\', 'n']
  else if c = '\r' then ['\\', 'r']
  else if c = '\t' then ['\\', 't']
  else if isPrintable c then [c]
  else codeEscape c

/-- The quote that a text is shown in. -/
def quoteFor (cs : List Char) : Char := if cs.contains '\'' && !cs.contains '"' then '"' else '\''

/-- A text as messages show it. -/
def quoted (s : String) : String :=
  let quote := quoteFor s.toList
  String.ofList (quote :: s.toList.flatMap (escape quote) ++ [quote])

end Isolate.Text
