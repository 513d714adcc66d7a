import Isolate.Graph.Basic
import Isolate.Expr.Encoding
import Isolate.Expr.Printing
import Isolate.Json.Reader
import Isolate.Json.Writer

/-!
# Graphs as records, text and drawings

A graph is written as a record of its nodes and edges. Read back, nodes come in the order of their ids as they are
given, and the next number is one more than the largest. `Graph.dot` describes a drawing.
-/

namespace Isolate.Graph

/-! ## Writing -/

def edgeJson : Int × Int × List String → Json
  | (source, target, conditions) =>
    .object [("source", .integer source), ("target", .integer target),
      ("constraints", .array (conditions.map .string))]

def toJson (g : Graph) : Except Fault Json := do
  let nodes := (← g.equations).map fun (i, q) => Json.object [("id", .integer i), ("equation", q.toJson)]
  return .object [("nodes", .array nodes), ("edges", .array (g.edges.map edgeJson))]

/-- The record as text, with an indentation if one is given. -/
def toText (indent : Option Nat) (g : Graph) : Except Fault String := g.toJson.map (Json.toText indent)

/-! ## Reading -/

/-- A number as data is cut to an integer. -/
def truncate (q : Rat) : Int := Int.tdiv q.num q.den

/-- An id as an integer. -/
def indexOf : Json → Except Fault Int
  | .integer n => .ok n
  | .bool b => .ok (if b then 1 else 0)
  | .decimal text => (Number.ofText text).map truncate
  | .string s =>
    match Number.integer? s.toList with
    | some n => .ok n
    | none => .error (.badInteger (Text.quoted s))
  | _ => .error .wrongType

/-- An id that sorts as a number. -/
def numericKey? : Json → Option Rat
  | .integer n => some n
  | .bool b => some (if b then 1 else 0)
  | .decimal text => (Number.ofText text).toOption
  | _ => none

/-- An id that sorts as text. -/
def textKey? : Json → Option String
  | .string s => some s
  | _ => none

/-- Sorts nodes by their ids, which must be all numbers or all texts. -/
def sortById (nodes : List (Json × Json)) : Except Fault (List (Json × Json)) :=
  let byNumber := nodes.filterMap fun n => (numericKey? n.1).map (·, n)
  let byText := nodes.filterMap fun n => (textKey? n.1).map (·, n)
  if byNumber.length = nodes.length then .ok ((byNumber.mergeSort fun a b => a.1 ≤ b.1).map (·.2))
  else if byText.length = nodes.length then .ok ((byText.mergeSort fun a b => a.1 ≤ b.1).map (·.2))
  else if nodes.length ≤ 1 then .ok nodes
  else .error .wrongType

/-- One more than the largest number, zero if there is none. -/
def nextAfter : List GraphNode → Int
  | [] => 0
  | n :: ns => ns.foldl (fun next n => max next (n.index + 1)) (n.index + 1)

def ofJson (j : Json) : Except Fault Graph := do
  let nodes ← (← j.getList "nodes").mapM fun n => do return (← n.get "id", n)
  let g ← (← sortById nodes).foldlM (fun g (id, n) => do
    let index ← indexOf id
    return put g index (← Equation.ofJson (← n.get "equation"))) empty
  let g ← (← j.getList "edges").foldlM (fun g e => do
    let source ← indexOf (← e.get "source")
    let target ← indexOf (← e.get "target")
    return addEdge g source target (← (← e.getList "constraints").mapM Json.text)) g
  return { g with next := nextAfter g.nodes }

def ofText (s : String) : Except Fault Graph := do ofJson (← Json.parse s)

/-! ## Drawing -/

/-- A text inside the quotes of a drawing. -/
def escapeLabel (s : String) : String :=
  String.ofList (s.toList.flatMap fun c => if c = '\\' || c = '"' then ['\\', c] else [c])

/-- The description of a drawing: nodes labelled by their equations, edges by their conditions. -/
def dot (g : Graph) : Except Fault String := do
  let label (s : String) : String := "[label=\"" ++ escapeLabel s ++ "\"];"
  let nodes := (← g.equations).map fun (i, q) => s!"    {i} " ++ label q.text
  let edges := g.edges.map fun (a, b, conditions) => s!"    {a} -- {b} " ++ label (", ".intercalate conditions)
  return "\n".intercalate ("graph solve \x7b" :: nodes ++ edges ++ ["\x7d"])

end Isolate.Graph
