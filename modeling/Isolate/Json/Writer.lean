import Isolate.Json.Basic
import Isolate.Text.Quoted

/-!
# Writing JSON text

Everything beyond printable ASCII is escaped by UTF-16 code units. Without an indentation a value stands on one line,
with a blank after every comma and colon; with one, every item starts a new line, also when the indentation is zero.
-/

namespace Isolate.Json

/-- One code unit as an escape. -/
def unitEscape (n : Nat) : List Char := '\\' :: 'u' :: Text.hex 4 n

/-- One character of a string. -/
def charText (c : Char) : List Char :=
  if c = '"' || c = '\\' then ['\\', c]
  else if c = '\n' then ['\\', 'n']
  else if c = '\r' then ['\\', 'r']
  else if c = '\t' then ['\\', 't']
  else if c = '\x0c' then ['\\', 'f']
  else if c = '\x08' then ['\\', 'b']
  else
    let n := c.toNat
    if 32 ≤ n && n < 127 then [c]
    else if n < 0x10000 then unitEscape n
    else unitEscape (0xd800 + (n - 0x10000) / 0x400) ++ unitEscape (0xdc00 + (n - 0x10000) % 0x400)

def stringText (s : String) : String := String.ofList ('"' :: s.toList.flatMap charText ++ ['"'])

/-- The break before an item at a depth of nesting. -/
def lineBreak (indent : Option Nat) (depth : Nat) : String :=
  match indent with
  | none => ""
  | some width => String.ofList ('\n' :: List.replicate (width * depth) ' ')

/-- What stands between two items at a depth of nesting. -/
def separator (indent : Option Nat) (depth : Nat) : String :=
  match indent with
  | none => ", "
  | some _ => "," ++ lineBreak indent depth

/-- Items in brackets; brackets around nothing stand together. -/
def bracketed (indent : Option Nat) (depth : Nat) (opening closing : String) : List String → String
  | [] => opening ++ closing
  | items =>
    opening ++ lineBreak indent (depth + 1) ++ (separator indent (depth + 1)).intercalate items ++
      lineBreak indent depth ++ closing

mutual

/-- A value at a depth of nesting. -/
def render (indent : Option Nat) (depth : Nat) : Json → String
  | null => "null"
  | bool b => if b then "true" else "false"
  | integer n => toString n
  | decimal text => text
  | string s => stringText s
  | array items => bracketed indent depth "[" "]" (renderItems indent depth items)
  | object entries => bracketed indent depth "\x7b" "\x7d" (renderEntries indent depth entries)

def renderItems (indent : Option Nat) (depth : Nat) : List Json → List String
  | [] => []
  | v :: vs => render indent (depth + 1) v :: renderItems indent depth vs

def renderEntries (indent : Option Nat) (depth : Nat) : List (String × Json) → List String
  | [] => []
  | (k, v) :: es => (stringText k ++ ": " ++ render indent (depth + 1) v) :: renderEntries indent depth es

end

/-- The text of a value. -/
def toText (indent : Option Nat) (j : Json) : String := render indent 0 j

end Isolate.Json
