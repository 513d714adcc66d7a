import Isolate.Solve.Strategy
import Isolate.Graph.Encoding

/-!
# The search

From the root on, the equation of every node is normalised and every strategy is tried on a copy. What it makes becomes
a node below, joined by the conditions of the strategy. A node that is like the one above it, up to renaming and order,
is a leaf; any other is expanded in its turn.

The search works on a graph and a log, which are both left as they are when it fails (`Search`). `Graph.solve` searches
from an equation that is alone in its graph.
-/

namespace Isolate

/-- What the search works on. -/
structure SearchState where
  graph : Graph
  log : List LogEntry

/-- A part of the search: it ends with a result or a fault, and leaves a graph and a log behind in both cases. -/
abbrev Search (α : Type) := ExceptT Fault (StateM SearchState) α

namespace Search

/-- What a search is asked for. -/
structure Task where
  strategies : List Strategy
  config : Config
  target : Option String

def report (entries : List LogEntry) : Search Unit := modify fun s => { s with log := s.log ++ entries }

def debug (text : String) : Search Unit := report [⟨.debug, .search, text⟩]

/-- Adds a node below another one. -/
def addBelow (parent : Int) (q : Equation) (conditions : List String) : Search Int := do
  match (← get).graph.addPath q conditions parent with
  | .error fault => throw fault
  | .ok (graph, child) =>
    modify fun s => { s with graph }
    return child

/-- Normalises an equation by the rules of the configuration. -/
def normalize (task : Task) (q : Equation) : Search (Equation × Nat) :=
  match q.normalize Equation.usualPasses task.config.mode task.config.maxRounds with
  | (_, .error fault) => throw fault
  | (q, .ok rounds) => do
    report [Equation.settledEntry rounds]
    return (q.analyze, rounds)

/-- Tries a strategy on an equation. A shape that cannot be undone leaves it unchanged, if the configuration says so. -/
def attempt (task : Task) (index : Int) (q : Equation) (strategy : Strategy) : Search (Equation × List String) := do
  let tried := strategy.apply task.config task.target q
  report tried.log
  match tried.outcome with
  | .ok conditions => return (tried.equation, conditions)
  | .error fault =>
    if fault.isSkippable && task.config.onUnsupported = .skip then
      let reason := fault.message?.getD ""
      report [⟨.warning, .search, s!"strategy {strategy.name} skipped at node {index}: {reason}"⟩]
      return (q, [])
    else throw fault

/-- The report of a step that made progress. -/
def progressEntry (index child : Int) (strategy : Strategy) (q : Equation) (conditions : List String) : LogEntry :=
  let suffix := if conditions.isEmpty then "" else " [" ++ ", ".intercalate conditions ++ "]"
  ⟨.info, .search, s!"node {index} -> {child} via {strategy.name}: {q.text}{suffix}"⟩

/-- What the strategies made of a node: its equation as it is by then, the leaves, and the nodes to be expanded. -/
structure Branches where
  equation : Equation
  leaves : List Int
  marked : List Int

/-- Tries one strategy after the other at a node. -/
def branch (task : Task) (index : Int) : List Strategy → Branches → Search Branches
  | [], b => return b
  | strategy :: rest, b => do
    let (q, rounds) ← normalize task b.equation
    debug s!"node {index} normalized in {rounds} round(s): {q.text}"
    if strategy.isApplicable q then
      let (candidate, conditions) ← attempt task index q strategy
      let child ← addBelow index candidate conditions
      if Equation.isLike task.config.mode candidate q then
        branch task index rest ⟨q, b.leaves ++ [child], b.marked⟩
      else
        report [progressEntry index child strategy candidate conditions]
        branch task index rest ⟨q, b.leaves, b.marked ++ [child]⟩
    else
      debug s!"strategy {strategy.name} not applicable at node {index}"
      branch task index rest ⟨q, b.leaves, b.marked⟩

/-- Expands a node, and all nodes below it to at most `levels` levels, and gives the leaves. A node at which nothing
could be tried is its own leaf. -/
def expand (task : Task) : Nat → Int → Search (List Int)
  | 0, _ => throw (.depthLimit task.config.maxDepth)
  | levels + 1, index => do
    let q ← match (← get).graph.get index with
      | .ok q => pure q
      | .error fault => throw fault
    let b ← branch task index task.strategies ⟨q, [], []⟩
    let here := if b.leaves.isEmpty && b.marked.isEmpty then [index] else b.leaves
    let below ← b.marked.mapM (expand task levels)
    match (← get).graph.set index b.equation with
    | .ok graph => modify fun s => { s with graph }
    | .error fault => throw fault
    return here ++ below.flatten

/-- Expands a node that is at the given depth. -/
def expandAt (task : Task) (depth index : Int) : Search (List Int) :=
  expand task (task.config.maxDepth - depth + 1).toNat index

end Search

/-! ## Solving -/

/-- A graph that has been searched, with its root and leaves. -/
structure Solved where
  graph : Graph
  root : Int
  leaves : List Int

namespace Solved

/-- Goes down a path from a node, with the conditions gathered so far; one that is known is not added again. -/
def gather (g : Graph) (parent : Int) (gathered : List String) : List Int → Except Fault (List (Int × List String))
  | [] => .ok []
  | child :: rest => do
    let news := (← g.conditions parent child).filter fun c => !gathered.contains c
    let gathered := gathered ++ news
    return (child, gathered) :: (← gather g child gathered rest)

/-- The nodes from the root to a leaf, with the conditions gathered on the way to each. -/
def path (s : Solved) (leaf : Int) : Except Fault (List (Int × List String)) := do
  match ← s.graph.path s.root leaf with
  | [] => return []
  | root :: rest => return (root, []) :: (← gather s.graph root [] rest)

/-- The conditions of a leaf. -/
def conditions (s : Solved) (leaf : Int) : Except Fault (List String) := do
  return ((← s.path leaf).getLast?.map (·.2)).getD []

/-- The equations of the leaves with their conditions. -/
def solutions (s : Solved) : Except Fault (List (Equation × List String)) :=
  s.leaves.mapM fun leaf => do return (← s.graph.get leaf, ← s.conditions leaf)

def toJson (s : Solved) : Except Fault Json := do
  return .object [("root", .integer s.root), ("leaves", .array (s.leaves.map .integer)),
    ("graph", ← s.graph.toJson)]

end Solved

/-- Searches from an equation; the log is complete also when the search fails. -/
def Equation.solve (task : Search.Task) (q : Equation) : Except Fault Solved × List LogEntry :=
  let (graph, root) := Graph.single q
  match (Search.expandAt task 0 root).run.run ⟨graph, []⟩ with
  | (.error fault, s) => (.error fault, s.log)
  | (.ok leaves, s) =>
    let drawing := match s.graph.dot with
      | .ok text => text
      | .error _ => ""
    (.ok ⟨s.graph, root, leaves⟩, s.log ++ [⟨.debug, .search, "solve graph:\n" ++ drawing⟩])

end Isolate
