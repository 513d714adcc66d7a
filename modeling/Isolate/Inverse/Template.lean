import Isolate.Fault
import Isolate.Text.Blank
import Isolate.Text.Digit

/-!
# Placeholder templates

A template is a text with fields in braces; a doubled brace is a brace. The only field is `name`. A field may ask for
a character of the name by its index, and so on for the text that it has got (`name[0][0]`), for the quoted form (`!r`),
and for a width, with an alignment and a character to fill up with, or a greatest length (`:*^7.5`). The part behind the
colon may hold fields itself, to one level.

* `Template.fill` puts a name into a template, or tells what is wrong with the template.

Fields that ask for an attribute (`name.upper`, `name.__class__.__name__`) are left out: what they give tells of the
interpreter and not of the name. No text has an attribute here, so they are answered like an attribute that is not there.
-/

namespace Isolate.Template

/-! ## Layout -/

inductive Align where
  | left
  | right
  | center
  deriving DecidableEq, Repr

/-- How a text is laid out. -/
structure Layout where
  fill : Char := ' '
  align : Align := .left
  width : Nat := 0
  longest : Option Nat := none
  deriving Repr

namespace Layout

def alignOf? : Char → Option (Option Align)
  | '<' => some (some .left)
  | '>' => some (some .right)
  | '^' => some (some .center)
  | '=' => some none
  | _ => none

/-- A number in front of a text. -/
def count (cs : List Char) : Nat × List Char :=
  (((cs.takeWhile fun c => (Text.digit? c).isSome).filterMap Text.digit?).foldl (fun n d => 10 * n + d) 0,
    cs.dropWhile fun c => (Text.digit? c).isSome)

/-- Fill character and alignment in front of a specification, and whether the fill character was given. -/
def alignment (cs : List Char) : Option (Char × Align × Bool × List Char) :=
  match cs with
  | f :: a :: rest =>
    match alignOf? a with
    | some (some a) => some (f, a, true, rest)
    | some none => none
    | none => alone cs
  | cs => alone cs
where
  /-- An alignment without a fill character, or none at all. -/
  alone : List Char → Option (Char × Align × Bool × List Char)
    | [] => some (' ', .left, false, [])
    | a :: rest =>
      match alignOf? a with
      | some (some a) => some (' ', a, false, rest)
      | some none => none
      | none => some (' ', .left, false, a :: rest)

/-- A greatest length behind a point, if there is one. -/
def greatest? : List Char → Option (Option Nat × List Char)
  | '.' :: rest => if ((rest.head?.bind Text.digit?).isSome) then some (some (count rest).1, (count rest).2) else none
  | cs => some (none, cs)

/-- The greatest number that a specification may hold. -/
def greatestCount : Nat := 9223372036854775807

/-- Reads a specification; signs and the forms of numbers have no meaning for a text. -/
def ofSpec? (cs : List Char) : Option Layout := do
  let (fill, align, given, cs) ← alignment cs
  let (fill, cs) := match cs with
    | '0' :: rest => if given then (fill, cs) else ('0', rest)
    | cs => (fill, cs)
  let (width, cs) := count cs
  let (longest, cs) ← greatest? cs
  if greatestCount < width ∨ greatestCount < longest.getD 0 then none
  else if cs = [] ∨ cs = ['s'] then some { fill, align, width, longest } else none

/-- Cuts a text to its greatest length and fills it up to its width; in the middle, the odd place is on the right. -/
def apply (l : Layout) (cs : List Char) : List Char :=
  let cs := match l.longest with
    | some n => cs.take n
    | none => cs
  let missing := l.width - cs.length
  let left := match l.align with
    | .left => 0
    | .right => missing
    | .center => missing / 2
  List.replicate left l.fill ++ cs ++ List.replicate (missing - left) l.fill

end Layout

/-! ## Fields -/

/-- A field between braces. -/
structure Field where
  key : List Char
  conversion : Option Char
  spec : List Char

/-- The key of a field, what ended it, and the rest. Brackets hide what ends a key. -/
def readKey (hidden : Bool) : List Char → Except Fault (List Char × Char × List Char)
  | [] => .error (.template .unclosedField)
  | c :: rest =>
    if hidden then (readKey (c ≠ ']') rest).map fun (key, stop, rest) => (c :: key, stop, rest)
    else if c = '\x7b' then .error (.template .openInField)
    else if c = '\x7d' || c = ':' || c = '!' then .ok ([], c, rest)
    else (readKey (c = '[') rest).map fun (key, stop, rest) => (c :: key, stop, rest)

/-- The specification of a field up to the brace that closes `open` braces. -/
def readSpec (depth : Nat) : List Char → Except Fault (List Char × List Char)
  | [] => .error (.template .unclosedSpec)
  | c :: rest =>
    if c = '\x7d' && depth = 0 then .ok ([], rest)
    else
      let depth := if c = '\x7b' then depth + 1 else if c = '\x7d' then depth - 1 else depth
      (readSpec depth rest).map fun (spec, rest) => (c :: spec, rest)

/-- A field whose opening brace has been read. -/
def readField (cs : List Char) : Except Fault (Field × List Char) := do
  match ← readKey false cs with
  | (_, '!', []) => throw (.template .noConversion)
  | (_, '!', [_]) => throw (.template .unclosedSpec)
  | (key, '!', c :: '\x7d' :: rest) => return (⟨key, some c, []⟩, rest)
  | (key, '!', c :: ':' :: rest) =>
    let (spec, rest) ← readSpec 0 rest
    return (⟨key, some c, spec⟩, rest)
  | (_, '!', _) => throw (.template .afterConversion)
  | (key, ':', rest) =>
    let (spec, rest) ← readSpec 0 rest
    return (⟨key, none, spec⟩, rest)
  | (key, _, rest) => return (⟨key, none, []⟩, rest)

/-- Is it a number, or nothing at all? -/
def isPosition (cs : List Char) : Bool := cs.all fun c => (Text.digit? c).isSome

/-- Is it a number greater than any position? -/
def isBeyond (cs : List Char) : Bool := isPosition cs && Layout.greatestCount < (Layout.count cs).1

/-- The character of a text that an index stands for. -/
def charAt (cs index : List Char) : Except Fault (List Char) :=
  if index.isEmpty || isBeyond index then .error (.template .badIndex)
  else if isPosition index then
    match cs[(Layout.count index).1]? with
    | some c => .ok [c]
    | none => .error .positionalField
  else .error .wrongType

/-- Takes the characters of a text that the indices of a key stand for, one after the other. What has been read of an
index that is still open is given in reverse. -/
def lookUp (cs : List Char) : Option (List Char) → List Char → Except Fault (List Char)
  | none, [] => .ok cs
  | none, '[' :: rest => lookUp cs (some []) rest
  | none, ['.'] => .error (.template .badIndex)
  | none, '.' :: c :: _ => if c = '.' || c = '[' then .error (.template .badIndex) else .error .notRecord
  | none, _ :: _ => .error (.template .badIndex)
  | some _, [] => .error (.template .badIndex)
  | some read, c :: rest =>
    if c = ']' then do lookUp (← charAt cs read.reverse) none rest else lookUp cs (some (c :: read)) rest

/-- What a key refers to, before conversion: the name itself, or what its indices make of it. -/
def value (name : String) (key : List Char) : Except Fault (List Char) :=
  let first := key.takeWhile fun c => c ≠ '.' && c ≠ '['
  if isBeyond first then .error (.template .badIndex)
  else if isPosition first then .error .positionalField
  else if first ≠ "name".toList then .error (.unknownField (String.ofList first))
  else lookUp name.toList none (key.drop first.length)

/-- A value in the form that a conversion asks for. -/
def convert (cs : List Char) : Option Char → Except Fault (List Char)
  | none => .ok cs
  | some 's' => .ok cs
  | some 'r' => .ok (Text.quoted (String.ofList cs)).toList
  | some 'a' =>
    .ok ((Text.quoted (String.ofList cs)).toList.flatMap fun c => if c.toNat < 128 then [c] else Text.codeEscape c)
  | some _ => .error (.template .unknownConversion)

/-- Lays a value out by a specification without fields. -/
def layOut (cs spec : List Char) : Except Fault (List Char) :=
  match Layout.ofSpec? spec with
  | some l => .ok (l.apply cs)
  | none => .error (.template .badSpec)

/-- Fills a template of at most `fuel` characters; `expand` fills the specifications of its fields. -/
def fillWith (name : String) (expand : List Char → Except Fault (List Char)) :
    Nat → List Char → Except Fault (List Char)
  | 0, _ => .ok []
  | fuel + 1, cs =>
    match cs with
    | [] => .ok []
    | '\x7b' :: '\x7b' :: rest => (fillWith name expand fuel rest).map ('\x7b' :: ·)
    | '\x7d' :: '\x7d' :: rest => (fillWith name expand fuel rest).map ('\x7d' :: ·)
    | '\x7d' :: _ => .error (.template .strayClose)
    | ['\x7b'] => .error (.template .strayOpen)
    | '\x7b' :: rest => do
      let (field, rest) ← readField rest
      let text ← convert (← value name field.key) field.conversion
      let text ← layOut text (← expand field.spec)
      return text ++ (← fillWith name expand fuel rest)
    | c :: rest => (fillWith name expand fuel rest).map (c :: ·)

/-- Fills the specification of a field, whose own fields have no fields in theirs. -/
def fillSpec (name : String) (spec : List Char) : Except Fault (List Char) :=
  fillWith name (fun inner => if inner.contains '\x7b' then .error (.template .badSpec) else .ok inner)
    (spec.length + 1) spec

/-- Puts a name into a template. -/
def fill (template name : String) : Except Fault String :=
  (fillWith name (fillSpec name) (template.length + 1) template.toList).map String.ofList

end Isolate.Template
