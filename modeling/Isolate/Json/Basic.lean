import Isolate.Number

/-!
# JSON values

Trees of records, lists and scalars, the form in which expressions and graphs travel. A record keeps its entries in the
order in which their keys first appeared; a later entry for the same key replaces the value. A number with a point or an
exponent stays the text it was written as, so nothing is rounded.
-/

namespace Isolate

/-- A JSON value. -/
inductive Json where
  | null
  | bool (b : Bool)
  | integer (n : Int)
  /-- A number written with a point or an exponent. -/
  | decimal (text : String)
  | string (s : String)
  | array (items : List Json)
  | object (entries : List (String × Json))
  deriving Repr, Inhabited

namespace Json

/-- Sets an entry: in place if the key is there, at the end if not. -/
def put (key : String) (value : α) : List (String × α) → List (String × α)
  | [] => [(key, value)]
  | (k, v) :: rest => if k = key then (k, value) :: rest else (k, v) :: put key value rest

/-- The entry of a record. -/
def get? (key : String) : Json → Option Json
  | object entries => entries.lookup key
  | _ => none

/-- The entry of a record that has to be there. -/
def get (key : String) : Json → Except Fault Json
  | object entries =>
    match entries.lookup key with
    | some v => .ok v
    | none => .error (.missingKey key)
  | _ => .error .wrongType

/-- What a value holds one by one: the items of a list, the keys of a record, the characters of a text. -/
def members : Json → Except Fault (List Json)
  | array items => .ok items
  | object entries => .ok (entries.map fun (key, _) => string key)
  | string s => .ok (s.toList.map fun c => string c.toString)
  | _ => .error .wrongType

/-- The members of an entry; a missing one has none. -/
def getList (key : String) (j : Json) : Except Fault (List Json) :=
  match j with
  | object entries =>
    match entries.lookup key with
    | none => .ok []
    | some v => v.members
  | _ => .error .notRecord

def text : Json → Except Fault String
  | string s => .ok s
  | _ => .error .wrongType

/-! ## How messages show a value -/

/-- The digits of a decimal without zeros at their ends, and the power of ten of the first one. -/
def significant (text : String) : Bool × List Nat × Int :=
  let (negative, cs) := Number.signed text.toList
  let (whole, rest) := Number.digitRun false cs
  let (part, rest) := Number.fraction rest
  let exponent := (Number.exponent? rest).getD 0
  let digits := whole ++ part
  let leading := (digits.takeWhile (· = 0)).length
  let digits := ((digits.drop leading).reverse.dropWhile (· = 0)).reverse
  (negative, digits, exponent + whole.length - leading - 1)

/-- A decimal as messages show it: positional from 0.0001 up to below ten to the sixteenth, else with an exponent. -/
def decimalText (text : String) : String :=
  match significant text with
  | (negative, [], _) => if negative then "-0.0" else "0.0"
  | (negative, digits, first) =>
    let minus := if negative then "-" else ""
    let shown (ds : List Nat) : String := String.join (ds.map toString)
    if -4 ≤ first && first < 16 then
      if first < 0 then minus ++ "0." ++ shown (List.replicate (-first - 1).toNat 0 ++ digits)
      else
        let width := first.toNat + 1
        let whole := digits.take width ++ List.replicate (width - digits.length) 0
        let part := digits.drop width
        minus ++ shown whole ++ "." ++ (if part.isEmpty then "0" else shown part)
    else
      let part := digits.drop 1
      let power := toString first.natAbs
      minus ++ shown (digits.take 1) ++ (if part.isEmpty then "" else "." ++ shown part) ++
        (if first < 0 then "e-" else "e+") ++ (if power.length < 2 then "0" ++ power else power)

mutual

/-- A value as messages show it. -/
def shown : Json → String
  | null => "None"
  | bool b => if b then "True" else "False"
  | integer n => toString n
  | decimal text =>
    if text = "NaN" then "nan"
    else if text = "Infinity" then "inf"
    else if text = "-Infinity" then "-inf"
    else decimalText text
  | string s => Text.quoted s
  | array items => "[" ++ ", ".intercalate (shownItems items) ++ "]"
  | object entries => "\x7b" ++ ", ".intercalate (shownEntries entries) ++ "\x7d"

def shownItems : List Json → List String
  | [] => []
  | v :: vs => shown v :: shownItems vs

def shownEntries : List (String × Json) → List String
  | [] => []
  | (k, v) :: es => (Text.quoted k ++ ": " ++ shown v) :: shownEntries es

end

/-- The name that messages give to the kind of a value. -/
def kindName : Json → String
  | null => "NoneType"
  | bool _ => "bool"
  | integer _ => "int"
  | decimal _ => "float"
  | string _ => "str"
  | array _ => "list"
  | object _ => "dict"

end Json

end Isolate
