import Isolate.Matching.Match
import Isolate.Text.Blank
import Isolate.Text.Lowercase
import Isolate.Number

/-!
# Configuration

The knobs of the solver. `Settings` are values as they are given; `Settings.check` turns them into a `Config`, or tells
the first thing that is wrong with them.
-/

namespace Isolate

/-- What the search does with a shape that cannot be undone. -/
inductive UnsupportedPolicy where
  | raise
  | skip
  deriving DecidableEq, Repr

namespace UnsupportedPolicy

def name : UnsupportedPolicy → String
  | raise => "raise"
  | skip => "skip"

def ofName? : String → Option UnsupportedPolicy
  | "raise" => some raise
  | "skip" => some skip
  | _ => none

end UnsupportedPolicy

/-- Checked knobs. -/
structure Config where
  /-- The greatest number of rounds of one normalisation. -/
  maxRounds : Int
  /-- The greatest depth of the solve graph. -/
  maxDepth : Int
  mode : MatchMode
  onUnsupported : UnsupportedPolicy
  /-- How the inverse of a function without a known one is called. -/
  placeholder : String
  deriving DecidableEq, Repr

/-- Knobs as they are given. -/
structure Settings where
  maxRounds : Int := 64
  maxDepth : Int := 64
  mode : String := "bijective"
  onUnsupported : String := "raise"
  placeholder : String := "\x7bname\x7d"
  deriving DecidableEq, Repr

namespace Settings

/-- Does a text hold another? -/
def holds (word : List Char) : List Char → Bool
  | [] => word.isEmpty
  | c :: cs => word.isPrefixOf (c :: cs) || holds word cs

/-- Checks the knobs, in the order of the fields. -/
def check (s : Settings) : Except Fault Config :=
  if s.maxRounds < 1 then .error (.config .roundsTooFew)
  else if s.maxDepth < 1 then .error (.config .depthTooSmall)
  else match MatchMode.ofName? s.mode with
    | none => .error (.config (.unknownMode s.mode))
    | some mode =>
      match UnsupportedPolicy.ofName? s.onUnsupported with
      | none => .error (.config (.unknownPolicy s.onUnsupported))
      | some onUnsupported =>
        if holds "\x7bname\x7d".toList s.placeholder.toList then
          .ok ⟨s.maxRounds, s.maxDepth, mode, onUnsupported, s.placeholder⟩
        else .error (.config .noPlaceholder)

/-! ## From the environment -/

/-- An integer from the environment; blank text is as good as none. -/
def integer (fallback : Int) : Option String → Except Fault Int
  | none => .ok fallback
  | some raw =>
    if raw.toList.all Text.isBlank then .ok fallback
    else match Number.integer? raw.toList with
      | some n => .ok n
      | none => .error (.badInteger (Text.quoted raw))

/-- A word from the environment, in small letters and without blanks around it; empty text is as good as none. -/
def word (fallback : String) : Option String → String
  | none => fallback
  | some raw => if raw.isEmpty then fallback else String.ofList (Text.lower (Text.trim raw.toList))

/-- The settings that the variables of an environment make. -/
def ofEnvironment (value? : String → Option String) : Except Fault Settings := do
  let maxRounds ← integer 64 (value? "INVSOLVER_MAX_NORMALIZE_ITERATIONS")
  let maxDepth ← integer 64 (value? "INVSOLVER_MAX_DEPTH")
  return {
    maxRounds
    maxDepth
    mode := word "bijective" (value? "INVSOLVER_MATCH_MODE")
    onUnsupported := word "raise" (value? "INVSOLVER_ON_UNSUPPORTED")
    placeholder := match value? "INVSOLVER_UNKNOWN_INVERSE_FORMAT" with
      | none => "\x7bname\x7d"
      | some raw => if raw.isEmpty then "\x7bname\x7d" else raw }

end Settings

/-! ## Overrides -/

/-- New values for some of the knobs. -/
structure Overrides where
  maxRounds : Option Int := none
  maxDepth : Option Int := none
  mode : Option String := none
  onUnsupported : Option String := none
  placeholder : Option String := none

namespace Config

/-- The knobs if nothing is given. -/
def default : Config := ⟨64, 64, .bijective, .raise, "\x7bname\x7d"⟩

instance : Inhabited Config := ⟨default⟩

/-- Checked knobs as they could have been given. -/
def settings (c : Config) : Settings := ⟨c.maxRounds, c.maxDepth, c.mode.name, c.onUnsupported.name, c.placeholder⟩

/-- Replaces some knobs and checks all of them again. -/
def override (c : Config) (o : Overrides) : Except Fault Config :=
  Settings.check {
    maxRounds := o.maxRounds.getD c.maxRounds
    maxDepth := o.maxDepth.getD c.maxDepth
    mode := o.mode.getD c.mode.name
    onUnsupported := o.onUnsupported.getD c.onUnsupported.name
    placeholder := o.placeholder.getD c.placeholder }

end Config

end Isolate
