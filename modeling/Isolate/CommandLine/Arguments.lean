import Isolate.Config
import Isolate.Log

/-!
# Command line arguments

One argument is the equation; the others are switches. A switch may be shortened as long as no other begins alike, and a
value stands behind it, as the next argument or behind an equals sign. An argument with a dash in front is no switch if
it has a blank in it or is a number, or if it stands behind `--`.

* `Arguments.read` gives the settings of a run, or tells that the arguments make none (`Misuse`).
-/

namespace Isolate

inductive Switch where
  | help
  | demo
  | target
  | json
  | png
  | rpn
  | verify
  | logLevel
  | maxDepth
  | maxIterations
  | matchMode
  | onUnsupported
  deriving DecidableEq, Repr

namespace Switch

/-- All switches as they are written. -/
def table : List (String × Switch) :=
  [("-h", help), ("--help", help), ("--demo", demo), ("--target", target), ("--json", json), ("--png", png),
    ("--rpn", rpn), ("--verify", verify), ("--log-level", logLevel), ("--max-depth", maxDepth),
    ("--max-iterations", maxIterations), ("--match-mode", matchMode), ("--on-unsupported", onUnsupported)]

/-- Does a value stand behind the switch? -/
def takesValue : Switch → Bool
  | help | demo | rpn | verify => false
  | _ => true

end Switch

/-- Why arguments do not lead to a run. -/
inductive Misuse where
  /-- The arguments do not follow the rules. -/
  | usage
  /-- Help was asked for. -/
  | help
  deriving DecidableEq, Repr

/-- What the arguments of a run say. -/
structure Arguments where
  equation : Option String := none
  demo : Bool := false
  target : Option String := none
  jsonPath : Option String := none
  pngPath : Option String := none
  polish : Bool := false
  verify : Bool := false
  level : LogLevel := .warning
  overrides : Overrides := {}

/-! ## Kinds of arguments -/

/-- What an argument is, seen for itself. -/
inductive ArgumentKind where
  | plain
  | switch (s : Switch) (value : Option String)
  | unknown
  | ambiguous
  deriving DecidableEq, Repr

namespace ArgumentKind

/-- A minus and digits, with a point before the last of them at most. -/
def isNumber (cs : List Char) : Bool :=
  let isDigit (c : Char) : Bool := (Text.digit? c).isSome
  match cs with
  | '-' :: cs =>
    match cs.dropWhile isDigit with
    | [] => !cs.isEmpty
    | '.' :: part => !part.isEmpty && part.all isDigit
    | _ => false
  | _ => false

/-- An argument cut at its first equals sign. -/
def cut (cs : List Char) : String × Option String :=
  match cs.dropWhile (· ≠ '=') with
  | [] => (String.ofList cs, none)
  | _ :: value => (String.ofList (cs.takeWhile (· ≠ '=')), some (String.ofList value))

/-- An argument that is not written like a whole switch. -/
def ofOther (cs : List Char) : ArgumentKind :=
  if isNumber cs || cs.contains ' ' then plain else unknown

/-- What the arguments say about a switch in one piece, written out or shortened. -/
def ofDashed (cs : List Char) : ArgumentKind :=
  match cut cs with
  | (name, value) =>
    match Switch.table.lookup name with
    | some s => switch s value
    | none =>
      match cs with
      | '-' :: '-' :: _ =>
        match Switch.table.filter fun (written, _) => name.toList.isPrefixOf written.toList with
        | [] => ofOther cs
        | [(_, s)] => switch s value
        | _ => ambiguous
      | '-' :: 'h' :: '-' :: _ => switch .help (some "")
      | '-' :: 'h' :: _ => switch .help none
      | _ => ofOther cs

def of (argument : String) : ArgumentKind :=
  match argument.toList with
  | '-' :: c :: cs => ofDashed ('-' :: c :: cs)
  | _ => plain

end ArgumentKind

/-! ## Reading -/

namespace Arguments

/-- Notes the value of a switch. -/
def setValue (a : Arguments) (s : Switch) (value : String) : Except Misuse Arguments :=
  let integer : Except Misuse Int :=
    match Number.integer? value.toList with
    | some n => .ok n
    | none => .error .usage
  match s with
  | .target => .ok { a with target := some value }
  | .json => .ok { a with jsonPath := some value }
  | .png => .ok { a with pngPath := some value }
  | .logLevel =>
    match LogLevel.ofName? value with
    | some level => .ok { a with level }
    | none => .error .usage
  | .maxDepth => integer.map fun n => { a with overrides := { a.overrides with maxDepth := some n } }
  | .maxIterations => integer.map fun n => { a with overrides := { a.overrides with maxRounds := some n } }
  | .matchMode =>
    if (MatchMode.ofName? value).isSome then .ok { a with overrides := { a.overrides with mode := some value } }
    else .error .usage
  | .onUnsupported =>
    if (UnsupportedPolicy.ofName? value).isSome then
      .ok { a with overrides := { a.overrides with onUnsupported := some value } }
    else .error .usage
  | _ => .error .usage

/-- Notes a switch without a value. -/
def setFlag (a : Arguments) (s : Switch) : Except Misuse Arguments :=
  match s with
  | .demo => .ok { a with demo := true }
  | .rpn => .ok { a with polish := true }
  | .verify => .ok { a with verify := true }
  | .help => .error .help
  | _ => .error .usage

/-- How far the arguments have been read. -/
structure Reading where
  arguments : Arguments := {}
  /-- Was something found that has no meaning? It is only reported at the end. -/
  surplus : Bool := false
  /-- May the equation still be given, or was it given just before? -/
  isOpen : Bool := true

/-- Notes an argument that is no switch. -/
def Reading.addPlain (r : Reading) (argument : String) : Reading :=
  match r.arguments.equation with
  | none => { r with arguments := { r.arguments with equation := some argument } }
  | some _ => { r with surplus := true }

/-- Notes a switch. -/
def Reading.addSwitch (r : Reading) (result : Except Misuse Arguments) : Except Misuse Reading := do
  return { r with arguments := ← result, isOpen := r.arguments.equation.isNone }

/-- Reads the arguments from left to right. -/
def readFrom (r : Reading) : List String → Except Misuse Reading
  | [] => .ok r
  | "--" :: rest =>
    .ok (rest.foldl Reading.addPlain { r with surplus := r.surplus || !r.isOpen })
  | argument :: rest =>
    match ArgumentKind.of argument with
    | .plain => readFrom (r.addPlain argument) rest
    | .unknown => readFrom { r with surplus := true, isOpen := r.arguments.equation.isNone } rest
    | .ambiguous => .error .usage
    | .switch s (some value) => do
      readFrom (← r.addSwitch (if s.takesValue then r.arguments.setValue s value else .error .usage)) rest
    | .switch s none =>
      if s.takesValue then
        match rest with
        | [] => .error .usage
        | value :: rest =>
          if value ≠ "--" && ArgumentKind.of value = .plain then do
            readFrom (← r.addSwitch (r.arguments.setValue s value)) rest
          else .error .usage
      else do readFrom (← r.addSwitch (r.arguments.setFlag s)) rest

/-- Reads the arguments of a run. A switch that is short for several is found out before anything else. -/
def read (arguments : List String) : Except Misuse Arguments := do
  if (arguments.takeWhile (· ≠ "--")).any fun argument => ArgumentKind.of argument = .ambiguous then throw .usage
  let r ← readFrom {} arguments
  if r.surplus then throw .usage else return r.arguments

end Arguments

end Isolate
