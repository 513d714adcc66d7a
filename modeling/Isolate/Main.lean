import Isolate.CommandLine.Run

/-!
# The program

Gathers arguments and environment, and carries out what `Isolate.CommandLine.run` decides.
-/

open Isolate

/-- The variables of the environment that a run looks at. -/
def environmentNames : List String :=
  ["INVSOLVER_MAX_NORMALIZE_ITERATIONS", "INVSOLVER_MAX_DEPTH", "INVSOLVER_MATCH_MODE", "INVSOLVER_ON_UNSUPPORTED",
    "INVSOLVER_UNKNOWN_INVERSE_FORMAT"]

def main (arguments : List String) : IO UInt32 := do
  let found ← environmentNames.filterMapM fun name => do return (← IO.getEnv name).map (name, ·)
  match CommandLine.run arguments fun name => found.lookup name with
  | .error fault =>
    IO.eprintln (fault.message?.getD "the equation cannot be worked with")
    return 1
  | .ok outcome =>
    for line in outcome.log do IO.eprintln line
    for line in outcome.output do IO.println line
    for (path, text) in outcome.files do IO.FS.writeFile path text
    if let some message := outcome.message then IO.eprintln message
    if outcome.exit = 2 then IO.eprintln CommandLine.usageText
    return outcome.exit.toUInt32
