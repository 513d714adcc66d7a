import Isolate.CommandLine.Arguments
import Isolate.Formula.Reading
import Isolate.Solve.Verify

/-!
# A run from the command line

A run reads its arguments and its environment, solves one equation and writes a line for every solution. It is a
function of both; `Outcome` says what is to be printed, written and returned.
-/

namespace Isolate

/-- What a run leaves behind. -/
structure Outcome where
  exit : Nat
  /-- The last word of a run that fails. -/
  message : Option String := none
  /-- The lines of the output. -/
  output : List String := []
  /-- The lines of the log. -/
  log : List String := []
  /-- The files to be written, by path. -/
  files : List (String × String) := []

namespace CommandLine

def demoEquation : String := "2*x + 3 = 7"

def usageText : String :=
  "usage: isolate [EQUATION] [--demo] [--target NAME] [--json FILE] [--rpn] [--verify]\n" ++
  "  [--log-level WARNING|INFO|DEBUG] [--max-depth N] [--max-iterations N]\n" ++
  "  [--match-mode bijective|any_pair] [--on-unsupported raise|skip]"

/-- A run that ends with an error. -/
def failure (log : List String) (text : String) : Outcome :=
  { exit := 1, message := some ("Error: " ++ text), log }

/-- The text to be solved; a blank one is as good as none. -/
def chosenText (a : Arguments) : String :=
  match a.equation with
  | none => demoEquation
  | some text => if a.demo || text.toList.all Text.isBlank then demoEquation else text

/-- The configuration of a run: the environment, and then the arguments. -/
def configuration (a : Arguments) (environment : String → Option String) : Except Fault Config := do
  (← (← Settings.ofEnvironment environment).check).override a.overrides

/-- The name whose value is checked: the target, or the one that is answered for. -/
def checkedName (a : Arguments) (answer : Equation) : Option String :=
  match a.target with
  | none => answer.answered?
  | some name => if name.isEmpty then answer.answered? else some name

/-- The line of a solution, and what is to be logged about it. -/
def line (a : Arguments) (q answer : Equation) (conditions : List String) :
    Except Fault (String × List LogEntry) := do
  let text := if a.polish then answer.polish else answer.text
  let text := if conditions.isEmpty then text else text ++ "    where " ++ ", ".intercalate conditions
  if a.verify then
    let verdict ← match checkedName a answer with
      | some name => q.verdict answer name
      | none => pure .fails
    return (text ++ (if verdict.isPositive then "    [verified]" else "    [unverified]"), verdict.log)
  return (text, [])

/-- The files of a run. -/
def files (a : Arguments) (solved : Solved) : Except Fault (List (String × String)) := do
  match a.jsonPath with
  | none => return []
  | some path => if path.isEmpty then return [] else return [(path, ← solved.graph.toText (some 2))]

/-- Solves an equation and reports. -/
def report (a : Arguments) (config : Config) : Except Fault Outcome := do
  match Equation.ofText (chosenText a) with
  | .error fault => if fault.isSolverFault then return failure [] (fault.message?.getD "") else throw fault
  | .ok q =>
    let (result, log) := q.solve ⟨[.applyInverse], config, a.target⟩
    match result with
    | .error fault =>
      if fault.isSolverFault then return failure (LogEntry.lines a.level log) (fault.message?.getD "") else throw fault
    | .ok solved =>
      let lines ← (← solved.solutions).mapM fun (answer, conditions) => line a q answer conditions
      let log := log ++ lines.flatMap (·.2)
      return { exit := 0, output := lines.map (·.1), log := LogEntry.lines a.level log, files := ← files a solved }

/-- A run. A fault that is not the solver's own is not reported, but handed on. -/
def run (arguments : List String) (environment : String → Option String) : Except Fault Outcome :=
  match Arguments.read arguments with
  | .error .help => .ok { exit := 0, output := [usageText] }
  | .error .usage => .ok { exit := 2 }
  | .ok a =>
    if a.demo && a.equation.isSome then .ok (failure [] "an equation cannot be combined with --demo")
    else match configuration a environment with
      | .error fault => .ok (failure [] (fault.message?.getD ""))
      | .ok config => report a config

end CommandLine

end Isolate
