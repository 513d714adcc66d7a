import Isolate.Expr.Basic
import Isolate.Json.Basic

/-!
# Expressions as records

An expression is a record with its sign and one entry for its node: `number`, `variable`, `power`, `modulo`,
`factorial`, `function` or `expression`. A reader takes the first of these it finds, in that order, ignores other
entries, and takes a missing sign for a plus. What an analysis noted is not written.
-/

namespace Isolate

/-! ## Writing -/

def Ratio.toJson (r : Ratio Json) : Json :=
  .object [("numerator", .array r.numerator), ("denominator", .array r.denominator)]

/-- The entry for a node. -/
def Shape.toEntry : Shape Json → String × Json
  | number v => ("number", .string (Number.text v))
  | var n => ("variable", .string n)
  | power b e => ("power", .object [("base", b), ("power", e)])
  | modulo a b => ("modulo", .object [("lhs", a), ("rhs", b)])
  | factorial a => ("factorial", .object [("child", a)])
  | call n as => ("function", .object [("name", .string n), ("arguments", .array as)])
  | sum ts => ("expression", .array (ts.map Ratio.toJson))

def Expr.toJson (e : Expr) : Json := e.fold fun e b => .object [("sign", .string e.sign.text), b.toEntry]

def Equation.toJson (q : Equation) : Json := .object [("sides", .array (q.sides.map Expr.toJson))]

/-! ## Reading -/

/-- A number as data: an integer, a decimal as it is written, or a text. -/
def Number.ofJson : Json → Except Fault Rat
  | .bool _ => .error .booleanNumber
  | .integer n => .ok n
  | .decimal text => Number.ofText text
  | .string s => Number.ofText s
  | j => .error (.notNumber j.shown)

/-- The sign entry of a record. -/
def Sign.ofRecord (j : Json) : Except Fault Sign :=
  match j with
  | .object entries =>
    match entries.lookup "sign" with
    | none => .ok .pos
    | some (.string s) => (Sign.ofText? s).elim (.error .badSign) .ok
    | some _ => .error .badSign
  | _ => .error .notRecord

/-- The names of a record's entries, in order. -/
def Json.sortedKeys : Json → List String
  | .object entries => (entries.map (·.1)).mergeSort fun a b => a ≤ b
  | _ => []

namespace Expr

/-- Reads an expression from a record that is nested no deeper than `fuel`. -/
def ofJsonWithin : Nat → Json → Except Fault Expr
  | 0, _ => .error .wrongType
  | fuel + 1, j => do
    let read := ofJsonWithin fuel
    let sign ← Sign.ofRecord j
    let shape : Shape Expr ← (do
      if let some v := j.get? "number" then return .number (← Number.ofJson v)
      if let some v := j.get? "variable" then return .var (← v.text)
      if let some v := j.get? "power" then return .power (← read (← v.get "base")) (← read (← v.get "power"))
      if let some v := j.get? "modulo" then return .modulo (← read (← v.get "lhs")) (← read (← v.get "rhs"))
      if let some v := j.get? "factorial" then return .factorial (← read (← v.get "child"))
      if let some v := j.get? "function" then
        return .call (← (← v.get "name").text) (← (← v.getList "arguments").mapM read)
      if let some v := j.get? "expression" then
        return .sum (← (← v.members).mapM fun t => do
          return ⟨← (← t.getList "numerator").mapM read, ← (← t.getList "denominator").mapM read⟩)
      throw (.unknownPayload j.sortedKeys))
    return ⟨sign, shape, none⟩

end Expr

mutual

/-- The length of the longest way down to a scalar. -/
def Json.depth : Json → Nat
  | .array items => 1 + Json.depthItems items
  | .object entries => 1 + Json.depthEntries entries
  | _ => 1

def Json.depthItems : List Json → Nat
  | [] => 0
  | v :: vs => max (Json.depth v) (Json.depthItems vs)

def Json.depthEntries : List (String × Json) → Nat
  | [] => 0
  | (_, v) :: es => max (Json.depth v) (Json.depthEntries es)

end

/-- Reads an expression. -/
def Expr.ofJson (j : Json) : Except Fault Expr := ofJsonWithin j.depth j

/-- Reads a ratio of expressions. -/
def Ratio.ofJson (j : Json) : Except Fault (Ratio Expr) := do
  return ⟨← (← j.getList "numerator").mapM Expr.ofJson, ← (← j.getList "denominator").mapM Expr.ofJson⟩

/-- Reads an equation; missing sides are none. -/
def Equation.ofJson (j : Json) : Except Fault Equation := do
  return ⟨← (← j.getList "sides").mapM Expr.ofJson⟩

end Isolate
