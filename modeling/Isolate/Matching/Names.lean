/-!
# Observed names

While two trees are matched, every pair of names that stand at the same place is written down. The pairs make a renaming
if every name on the left has one partner, and no two of them share it (`Names.check`).
-/

namespace Isolate

/-- The partners seen for each name on the left, names and partners in the order of their appearance. -/
abbrev NameTable := List (String × List String)

namespace NameTable

def record (left right : String) : NameTable → NameTable
  | [] => [(left, [right])]
  | (name, seen) :: rest =>
    if name = left then (name, seen ++ [right]) :: rest else (name, seen) :: record left right rest

/-- The only partner of a name, if it has just one, however often it was seen. -/
def partner? : List String → Option String
  | [] => none
  | right :: rest => if rest.all (· = right) then some right else none

/-- Has every name one partner that no name in `taken`, and no other name of the table, has too? -/
def checkFrom (taken : List String) : NameTable → Bool
  | [] => true
  | (_, seen) :: rest =>
    match partner? seen with
    | none => false
    | some right => !taken.contains right && checkFrom (right :: taken) rest

def check (t : NameTable) : Bool := checkFrom [] t

/-- The first partner of every name. -/
def firstPartners (t : NameTable) : List (String × String) := t.filterMap fun (name, seen) => seen.head?.map (name, ·)

end NameTable

/-- What has been observed about variables and about functions. -/
structure Names where
  vars : NameTable := []
  functions : NameTable := []
  deriving Repr, DecidableEq, Inhabited

namespace Names

def recordVariable (left right : String) (names : Names) : Names :=
  { names with vars := names.vars.record left right }

def recordFunction (left right : String) (names : Names) : Names :=
  { names with functions := names.functions.record left right }

/-- Do the observed pairs make a one-to-one renaming, of variables and of functions? -/
def check (names : Names) : Bool := names.vars.check && names.functions.check

end Names

end Isolate
