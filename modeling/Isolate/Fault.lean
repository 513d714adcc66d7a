import Isolate.Text.Quoted

/-!
# Faults

Everything that can go wrong, by cause. `Fault.message?` gives the wording where the wording is fixed.
-/

namespace Isolate

/-- What is wrong with a placeholder template. -/
inductive TemplateFlaw where
  | strayClose
  | strayOpen
  | unclosedField
  | openInField
  | unclosedSpec
  | noConversion
  | afterConversion
  | unknownConversion
  | badIndex
  | badSpec
  deriving DecidableEq, Repr

/-- What is wrong with a configuration. -/
inductive ConfigFlaw where
  | roundsTooFew
  | depthTooSmall
  | unknownMode (given : String)
  | unknownPolicy (given : String)
  | noPlaceholder
  deriving DecidableEq, Repr

/-- Why an operation did not give a result. -/
inductive Fault where
  /-- The kind of a node was asked for that has not been analysed. -/
  | kindNotAnalyzed
  /-- An analysis of bounded reach ended above a node that has not been analysed. -/
  | reachTooShort
  /-- The operation needs an analysed expression. -/
  | notAnalyzed
  | sideCount (found : Nat)
  | crowdedSide (side : String) (names : List String)
  | argumentCount (function : String) (count : Nat)
  | crowdedFactor (factor : String) (count : Nat)
  /-- The equation has no side of that number. -/
  | noSide
  | notCall
  | noArgument
  | noFixpoint (rounds : Int)
  | depthLimit (levels : Int)
  | unknownStrategy (name : String)
  | unknownMode
  /-- Only trees, and lists of trees, can be compared. -/
  | incomparable (kind : String)
  /-- Equation text without an equals sign. -/
  | noEquality (text : String)
  | emptySide
  | unreadable (side : String)
  | unsupported
  | divisionByZero
  | booleanNumber
  | notNumber (shown : String)
  | badNumeral
  | badQuotient
  | badInteger (shown : String)
  | badSign
  /-- A record lacks an entry that has to be there. -/
  | missingKey (key : String)
  | unknownPayload (keys : List String)
  /-- A record was expected. -/
  | notRecord
  /-- A value of the wrong type was given. -/
  | wrongType
  | badJson
  /-- A template names a field that it is not given. -/
  | unknownField (name : String)
  /-- A template refers to its fields by position. -/
  | positionalField
  | template (flaw : TemplateFlaw)
  | config (flaw : ConfigFlaw)
  | unknownOption
  /-- A path was to be added below a node that is not there. -/
  | noParent (index : Int)
  | noNode
  | noEdge
  /-- A path was asked for that starts or ends outside the graph. -/
  | notInGraph
  | noPath
  | noContext (handle : String)
  | noEquation (handle context : String)
  | unknownHandle (handle : String)
  deriving DecidableEq, Repr

/-- The wording of a template's flaw, where it is fixed. -/
def TemplateFlaw.message? : TemplateFlaw → Option String
  | strayClose => "Single '\x7d' encountered in format string"
  | strayOpen => "Single '\x7b' encountered in format string"
  | unclosedField => "expected '\x7d' before end of string"
  | openInField => "unexpected '\x7b' in field name"
  | unclosedSpec => "unmatched '\x7b' in format spec"
  | noConversion => "end of string while looking for conversion specifier"
  | afterConversion => "expected ':' after conversion specifier"
  | unknownConversion => none
  | badIndex => none
  | badSpec => none

def ConfigFlaw.message : ConfigFlaw → String
  | roundsTooFew => "max_normalize_iterations must be >= 1"
  | depthTooSmall => "max_depth must be >= 1"
  | unknownMode given => "match_mode must be one of ('bijective', 'any_pair'), got " ++ Text.quoted given
  | unknownPolicy given => "on_unsupported must be one of ('raise', 'skip'), got " ++ Text.quoted given
  | noPlaceholder => "unknown_inverse_format must contain '\x7bname\x7d'"

namespace Fault

/-- A list of quoted texts in square brackets. -/
def listing (names : List String) : String := "[" ++ ", ".intercalate (names.map Text.quoted) ++ "]"

/-- The wording of a fault, where it is fixed. -/
def message? : Fault → Option String
  | kindNotAnalyzed => "is_number() called on an element that has not been analyzed"
  | reachTooShort => "analysis depth stopped above an unanalyzed subtree"
  | notAnalyzed => "element must be analyzed before this operation"
  | sideCount n => s!"apply_inverse needs 2 sides, got {n}"
  | crowdedSide side names => s!"side {side} has {names.length} variables: " ++ ", ".intercalate names
  | argumentCount f n => s!"cannot invert {f}() with {n} arguments"
  | crowdedFactor factor n => s!"factor {factor} carries {n} variables"
  | noSide => none
  | notCall => none
  | noArgument => none
  | noFixpoint n => s!"normalization did not converge within {n} rounds"
  | depthLimit n => s!"solve graph deeper than {n} levels"
  | unknownStrategy name =>
    s!"unknown strategy {Text.quoted name}; choose from " ++ listing ["apply_inverse", "flatten", "simplify"]
  | unknownMode => none
  | incomparable kind => s!"cannot compare {kind}"
  | noEquality text => s!"equation must contain '=': {Text.quoted text}"
  | emptySide => "empty side"
  | unreadable side => s!"cannot parse {Text.quoted side}"
  | unsupported => "unsupported construct"
  | divisionByZero => none
  | booleanNumber => "booleans are not numbers"
  | notNumber shown => s!"cannot use {shown} as an exact rational"
  | badNumeral => none
  | badQuotient => none
  | badInteger shown => s!"invalid literal for int() with base 10: {shown}"
  | badSign => none
  | missingKey key => key
  | unknownPayload keys => s!"unrecognised element payload: {listing keys}"
  | notRecord => none
  | wrongType => none
  | badJson => none
  | unknownField name => name
  | positionalField => none
  | template flaw => flaw.message?
  | config flaw => flaw.message
  | unknownOption => none
  | noParent i => s!"no node {i} in graph"
  | noNode => none
  | noEdge => none
  | notInGraph => none
  | noPath => none
  | noContext handle => s!"no context {handle}"
  | noEquation handle context => s!"no equation {handle} in context {Text.quoted context}"
  | unknownHandle handle => handle

/-- A shape that the search may pass over instead of stopping: too many variables, or no way to undo a node. -/
def isSkippable : Fault → Bool
  | crowdedSide .. | argumentCount .. | crowdedFactor .. => true
  | _ => false

/-- The faults of the solver itself, as opposed to those of its data and its surroundings. -/
def isSolverFault : Fault → Bool
  | kindNotAnalyzed | reachTooShort | notAnalyzed | sideCount _ | crowdedSide .. | argumentCount .. | crowdedFactor ..
  | noFixpoint _ | depthLimit _ | noEquality _ | emptySide | unreadable _ | unsupported => true
  | _ => false

end Fault

end Isolate
