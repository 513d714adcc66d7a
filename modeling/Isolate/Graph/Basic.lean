import Isolate.Expr.Basic
import Isolate.Fault

/-!
# Solve graphs

An undirected graph whose nodes hold equations and whose edges hold conditions. Nodes get increasing numbers, so that a
node added below another has the larger number. Nodes, and the neighbours of each, are kept in the order in which they
were added; an edge that is stated again keeps its place and gets the new conditions. An edge may name a node that has
not been added: it is then there without an equation.
-/

namespace Isolate

/-- A node with its neighbours and the conditions on the way to each. -/
structure GraphNode where
  index : Int
  equation : Option Equation
  neighbours : List (Int × List String)

structure Graph where
  nodes : List GraphNode
  /-- The number of the next node. -/
  next : Int

namespace Graph

def empty : Graph := ⟨[], 0⟩

instance : Inhabited Graph := ⟨empty⟩

def node? (g : Graph) (index : Int) : Option GraphNode := g.nodes.find? (·.index = index)

def contains (g : Graph) (index : Int) : Bool := (g.node? index).isSome

def size (g : Graph) : Nat := g.nodes.length

/-- Changes the node of a number. -/
def modifyNode (g : Graph) (index : Int) (f : GraphNode → GraphNode) : Graph :=
  { g with nodes := g.nodes.map fun n => if n.index = index then f n else n }

/-- The node of a number, there at the end of the graph if it was not there before. -/
def ensure (g : Graph) (index : Int) : Graph :=
  if g.contains index then g else { g with nodes := g.nodes ++ [⟨index, none, []⟩] }

/-- Gives a node an equation; the node is added if it is not there. -/
def put (g : Graph) (index : Int) (q : Equation) : Graph :=
  (g.ensure index).modifyNode index fun n => { n with equation := some q }

/-- Adds a node and gives its number. -/
def addNode (g : Graph) (q : Equation) : Graph × Int := ({ g.put g.next q with next := g.next + 1 }, g.next)

/-- The graph of one equation, and its number. -/
def single (q : Equation) : Graph × Int := empty.addNode q

/-- Sets the conditions on the way to a neighbour. -/
def setNeighbour (index : Int) (conditions : List String) : List (Int × List String) → List (Int × List String)
  | [] => [(index, conditions)]
  | (i, cs) :: rest => if i = index then (i, conditions) :: rest else (i, cs) :: setNeighbour index conditions rest

/-- States an edge; its ends are added if they are not there. -/
def addEdge (g : Graph) (a b : Int) (conditions : List String) : Graph :=
  let link (g : Graph) (a b : Int) : Graph :=
    g.modifyNode a fun n => { n with neighbours := setNeighbour b conditions n.neighbours }
  link (link ((g.ensure a).ensure b) a b) b a

/-- Adds an equation below a node and gives its number. -/
def addPath (g : Graph) (q : Equation) (conditions : List String) (parent : Int) : Except Fault (Graph × Int) :=
  if g.contains parent then
    let (g, child) := g.addNode q
    .ok (g.addEdge parent child conditions, child)
  else .error (.noParent parent)

/-! ## Reading a graph -/

/-- The equation of a node. -/
def GraphNode.held (n : GraphNode) : Except Fault Equation :=
  match n.equation with
  | some q => .ok q
  | none => .error (.missingKey "equation")

def get (g : Graph) (index : Int) : Except Fault Equation :=
  match g.node? index with
  | some n => GraphNode.held n
  | none => .error .noNode

/-- Replaces the equation of a node that is there. -/
def set (g : Graph) (index : Int) (q : Equation) : Except Fault Graph :=
  if g.contains index then .ok (g.modifyNode index fun n => { n with equation := some q }) else .error .noNode

/-- All nodes with their equations. -/
def equations (g : Graph) : Except Fault (List (Int × Equation)) :=
  g.nodes.mapM fun n => do return (n.index, ← GraphNode.held n)

/-- The edges of a list of nodes, those to nodes already passed left out; the smaller number comes first. -/
def edgesFrom (passed : List Int) : List GraphNode → List (Int × Int × List String)
  | [] => []
  | n :: ns =>
    ((n.neighbours.filter fun (i, _) => !passed.contains i).map fun (i, conditions) =>
      (min n.index i, max n.index i, conditions)) ++ edgesFrom (n.index :: passed) ns

/-- Every edge once. -/
def edges (g : Graph) : List (Int × Int × List String) := edgesFrom [] g.nodes

/-- The conditions between two neighbours. -/
def conditions (g : Graph) (a b : Int) : Except Fault (List String) :=
  match (g.node? a).bind fun n => n.neighbours.lookup b with
  | some conditions => .ok conditions
  | none => .error .noEdge

/-! ## Paths -/

/-- One round of a breadth-first search: every way in the queue, last node first, is prolonged by the neighbours that
have not been seen. -/
def prolong (g : Graph) : List Int → List (List Int) → List Int × List (List Int)
  | seen, [] => (seen, [])
  | seen, way :: queue =>
    let steps := match way.head?.bind g.node? with
      | some n => (n.neighbours.map (·.1)).filter fun i => !seen.contains i
      | none => []
    let (seen, longer) := prolong g (seen ++ steps) queue
    (seen, steps.map (· :: way) ++ longer)

/-- A shortest way to the target, last node first. -/
def searchPath (g : Graph) (target : Int) : Nat → List Int → List (List Int) → Option (List Int)
  | 0, _, _ => none
  | fuel + 1, seen, queue =>
    match queue.find? fun way => way.head? = some target with
    | some way => some way
    | none =>
      let (seen, queue) := g.prolong seen queue
      searchPath g target fuel seen queue

/-- The nodes of a shortest path. -/
def path (g : Graph) (source target : Int) : Except Fault (List Int) :=
  if g.contains source && g.contains target then
    match g.searchPath target (g.size + 1) [source] [[source]] with
    | some way => .ok way.reverse
    | none => .error .noPath
  else .error .notInGraph

end Graph

end Isolate
