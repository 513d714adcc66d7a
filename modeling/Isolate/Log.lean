/-!
# Log entries

What the solver reports while it works. Every entry has a level and the part of the solver it comes from.
-/

namespace Isolate

inductive LogLevel where
  | debug
  | info
  | warning
  deriving DecidableEq, Repr

namespace LogLevel

def name : LogLevel → String
  | debug => "DEBUG"
  | info => "INFO"
  | warning => "WARNING"

def ofName? : String → Option LogLevel
  | "DEBUG" => some debug
  | "INFO" => some info
  | "WARNING" => some warning
  | _ => none

def rank : LogLevel → Nat
  | debug => 0
  | info => 1
  | warning => 2

end LogLevel

/-- The parts of the solver that report. -/
inductive LogSource where
  | normalization
  | inversion
  | search
  | verification
  deriving DecidableEq, Repr

def LogSource.name : LogSource → String
  | normalization => "invsolver.normalize"
  | inversion => "invsolver.inverse"
  | search => "invsolver.solver"
  | verification => "invsolver.sym_utils"

structure LogEntry where
  level : LogLevel
  source : LogSource
  text : String
  deriving DecidableEq, Repr

namespace LogEntry

/-- The written form: level, source and text. -/
def line (e : LogEntry) : String := s!"{e.level.name}:{e.source.name}:{e.text}"

/-- The lines of the entries at or above a level. -/
def lines (level : LogLevel) (log : List LogEntry) : List String :=
  (log.filter fun e => level.rank ≤ e.level.rank).map line

end LogEntry

end Isolate
