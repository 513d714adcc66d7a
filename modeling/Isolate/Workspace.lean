import Isolate.Solve.Search
import Isolate.Formula.Reading

/-!
# Workspaces

A workspace holds contexts, and a context holds equations with the results of solving them. Callers name both by
handles, which are never given out twice. Two handles may stand for one context.

* `Workspace.solve` solves the equations of a context one after the other and keeps each result; if one fails, the
  results before it stay.
-/

namespace Isolate

/-- A named set of equations, in the order in which they were added, and the latest result for each. -/
structure Context where
  name : String
  equations : List (String × Equation)
  results : List (String × Solved)

structure Workspace where
  config : Config
  strategies : List Strategy
  /-- All contexts that were ever made. -/
  contexts : List Context
  /-- What the handles in use stand for, by its place among the contexts. -/
  handles : List (String × Nat)
  nextContext : Nat
  nextEquation : Nat

namespace Context

def get (c : Context) (handle : String) : Except Fault Equation :=
  match c.equations.lookup handle with
  | some q => .ok q
  | none => .error (.noEquation handle c.name)

/-- Takes an equation out, and its result before that: the result is gone also if there is no such equation. -/
def remove (c : Context) (handle : String) : Context × Except Fault Equation :=
  let c := { c with results := c.results.filter (·.1 ≠ handle) }
  match c.equations.lookup handle with
  | some q => ({ c with equations := c.equations.filter (·.1 ≠ handle) }, .ok q)
  | none => (c, .error (.unknownHandle handle))

/-- Solves equations one after the other and keeps their results; gives the results up to the first fault. -/
def solveEach (task : Search.Task) :
    List (String × Equation) → Context → Context × Except Fault (List (String × Solved))
  | [], c => (c, .ok [])
  | (handle, q) :: rest, c =>
    match (q.solve task).1 with
    | .error fault => (c, .error fault)
    | .ok solved =>
      let (c, others) := solveEach task rest { c with results := Json.put handle solved c.results }
      (c, others.map ((handle, solved) :: ·))

end Context

namespace Workspace

def new (config : Config) (strategies : List Strategy) : Workspace := ⟨config, strategies, [], [], 0, 0⟩

/-- The place of the context that a handle stands for. -/
def place (w : Workspace) (handle : String) : Except Fault Nat :=
  match w.handles.lookup handle with
  | some i => .ok i
  | none => .error (.noContext handle)

def get (w : Workspace) (handle : String) : Except Fault Context := do
  return w.contexts.getD (← w.place handle) ⟨"", [], []⟩

/-- Gives out a handle for a place. -/
def issue (w : Workspace) (place : Nat) : Workspace × String :=
  let handle := s!"c{w.nextContext}"
  ({ w with handles := w.handles ++ [(handle, place)], nextContext := w.nextContext + 1 }, handle)

/-- Adds an empty context. -/
def addContext (w : Workspace) (name : String) : Workspace × String :=
  issue { w with contexts := w.contexts ++ [⟨name, [], []⟩] } w.contexts.length

/-- Gives out another handle for a context. -/
def addSame (w : Workspace) (handle : String) : Except Fault (Workspace × String) := do
  return w.issue (← w.place handle)

/-- Forgets what a handle stands for, and gives the context. -/
def removeContext (w : Workspace) (handle : String) : Except Fault (Workspace × Context) :=
  match w.get handle with
  | .ok c => .ok ({ w with handles := w.handles.filter (·.1 ≠ handle) }, c)
  | .error _ => .error (.unknownHandle handle)

/-- Replaces the context that a handle stands for. -/
def update (w : Workspace) (handle : String) (c : Context) : Workspace :=
  match w.handles.lookup handle with
  | some i => { w with contexts := w.contexts.set i c }
  | none => w

/-- Adds an equation to a context. -/
def addEquation (w : Workspace) (context : String) (q : Equation) : Except Fault (Workspace × String) := do
  let c ← w.get context
  let handle := s!"e{w.nextEquation}"
  let w := w.update context { c with equations := c.equations ++ [(handle, q)] }
  return ({ w with nextEquation := w.nextEquation + 1 }, handle)

/-- Reads an equation and adds it to a context, which has to be there. -/
def addText (w : Workspace) (context text : String) : Except Fault (Workspace × String) := do
  let _ ← w.get context
  w.addEquation context (← Equation.ofText text)

def getEquation (w : Workspace) (context handle : String) : Except Fault Equation := do (← w.get context).get handle

/-- Takes an equation out of a context. -/
def withdraw (w : Workspace) (context handle : String) : Workspace × Except Fault Equation :=
  match w.get context with
  | .error fault => (w, .error fault)
  | .ok c =>
    let (c, q) := c.remove handle
    (w.update context c, q)

/-- Takes an equation out of a context, or does nothing at all. -/
def removeEquation (w : Workspace) (context handle : String) : Except Fault (Workspace × Equation) :=
  match w.withdraw context handle with
  | (w, .ok q) => .ok (w, q)
  | (_, .error fault) => .error fault

/-- Solves every equation of a context. -/
def solve (w : Workspace) (context : String) (target : Option String) :
    Workspace × Except Fault (List (String × Solved)) :=
  match w.get context with
  | .error fault => (w, .error fault)
  | .ok c =>
    let (c, results) := c.solveEach ⟨w.strategies, w.config, target⟩ c.equations
    (w.update context c, results)

end Workspace

end Isolate
