import Isolate.Formula.Token

/-!
# The grammar of equation text

```
tuple      := comparison (',' comparison)* ','?
comparison := sum (('<' | '>') sum)*
sum        := term (('+' | '-') term)*
term       := unary (('*' | '/' | '%') unary | power)*
unary      := ('-' | '+') unary | power
power      := post (('^' | '**') unary)?
post       := atom ('!' '!'?)?
atom       := number | name | function '(' tuple? ')' | '(' tuple? ')'
```

A power directly behind a term is multiplied. A name is that of a function if it is a known one, a bracket follows, and
it does not stand anywhere in the text without one. A bare name directly in front of a name or a bracket with `!` is
drawn under the `!`; a name that is not bare and no function cannot stand there. Inside of brackets a line may end
between two tokens, but not between two that are multiplied without a sign.
-/

namespace Isolate

inductive Operation where
  | add
  | sub
  | mul
  | div
  | mod
  | pow
  deriving DecidableEq, Repr

/-- What a text says, before any of it is worked out. -/
inductive Phrase where
  | integer (n : Nat)
  | decimal (s : Scalar)
  | imaginary
  | name (s : String)
  | plus (a : Phrase)
  | minus (a : Phrase)
  | binary (op : Operation) (a b : Phrase)
  | factorial (a : Phrase)
  /-- The product of every second number down from one. -/
  | doubleFactorial (a : Phrase)
  | call (function : String) (arguments : List Phrase)
  | tuple (items : List Phrase)
  | comparison (a b : Phrase)
  deriving Repr, Inhabited

namespace Phrase

/-- The functions that can be written, by the names that they have afterwards. -/
def functions : List (String × String) :=
  [("sin", "sin"), ("cos", "cos"), ("tan", "tan"), ("cot", "cot"), ("exp", "exp"), ("log", "log"), ("ln", "log"),
    ("Abs", "Abs"), ("asin", "arcsin"), ("acos", "arccos"), ("atan", "arctan"), ("acot", "arccot"), ("sqrt", "sqrt")]

/-- Words that are no names. -/
def reserved : List String :=
  ["False", "None", "True", "and", "as", "assert", "async", "await", "break", "class", "continue", "def", "del",
    "elif", "else", "except", "finally", "for", "from", "global", "if", "import", "in", "is", "lambda", "nonlocal",
    "not", "or", "pass", "raise", "return", "try", "while", "with", "yield"]

/-- Names that stand in the text without a bracket behind them, at least once. -/
abbrev Bare := List String

/-- Can a power start with this token? -/
def startsPower : Token → Bool
  | .integer _ | .decimal _ | .imaginary | .name _ | .mark .opening => true
  | .mark _ | .lineEnd => false

/-- Can an operand end with this token? -/
def endsOperand : Token → Bool
  | .integer _ | .decimal _ | .imaginary | .name _ | .mark .closing | .mark .bang => true
  | .mark _ | .lineEnd => false

/-- Is a name followed by a bracket that of a function? -/
def isFunction (bare : Bare) (s : String) : Bool := (functions.lookup s).isSome && !bare.contains s

/-- Are two tokens multiplied if nothing stands between them? -/
def areMultiplied (bare : Bare) : Option Token → Option Token → Bool
  | some (.name s), some (.mark .opening) => !isFunction bare s
  | some t, some u => endsOperand t && startsPower u
  | _, _ => false

/-- How many brackets are open behind a token. -/
def depthBehind (depth : Nat) : Token → Nat
  | .mark .opening => depth + 1
  | .mark .closing => depth - 1
  | _ => depth

/-- Is there a `!` behind the bracket that closes the last of so many open ones? -/
def bangCloses : Nat → List Token → Bool
  | _, [] => false
  | depth, .mark .opening :: rest => bangCloses (depth + 1) rest
  | depth, .mark .closing :: rest =>
    if depth ≤ 1 then rest.head? = some (.mark .bang) else bangCloses (depth - 1) rest
  | depth, _ :: rest => bangCloses depth rest

/-- Leaves out the ends of lines where they may be. -/
def joinLines (bare : Bare) (depth : Nat) (last : Option Token) : List Token → Option (List Token)
  | [] => some []
  | .lineEnd :: rest =>
    if depth = 0 || areMultiplied bare last (rest.find? (· ≠ .lineEnd)) then none else joinLines bare depth last rest
  | t :: rest => (joinLines bare (depthBehind depth t) (some t) rest).map (t :: ·)

/-- The operation of a sign between terms. -/
def sumOperation? : Mark → Option Operation
  | .plus => some .add
  | .minus => some .sub
  | _ => none

/-- The operation of a sign between factors. -/
def termOperation? : Mark → Option Operation
  | .times => some .mul
  | .over => some .div
  | .percent => some .mod
  | _ => none

/-- A `!` or two behind an atom, if they are there; a third one is refused. -/
def closeFactorial (a : Phrase) : List Token → Option (Phrase × List Token)
  | .mark .bang :: .mark .bang :: .mark .bang :: _ => none
  | .mark .bang :: .mark .bang :: rest => some (doubleFactorial a, rest)
  | .mark .bang :: rest => some (factorial a, rest)
  | rest => some (a, rest)

mutual

def tuple? (bare : Bare) : Nat → List Token → Option (Phrase × List Token)
  | 0, _ => none
  | fuel + 1, ts => do
    let (a, rest) ← comparison? bare fuel ts
    match rest with
    | .mark .comma :: rest =>
      let (items, rest) ← items? bare fuel rest
      return (tuple (a :: items), rest)
    | rest => return (a, rest)

/-- The items behind a comma. -/
def items? (bare : Bare) : Nat → List Token → Option (List Phrase × List Token)
  | 0, _ => none
  | _ + 1, [] => some ([], [])
  | _ + 1, .mark .closing :: rest => some ([], .mark .closing :: rest)
  | fuel + 1, ts => do
    let (a, rest) ← comparison? bare fuel ts
    match rest with
    | .mark .comma :: rest =>
      let (items, rest) ← items? bare fuel rest
      return (a :: items, rest)
    | rest => return ([a], rest)

def comparison? (bare : Bare) : Nat → List Token → Option (Phrase × List Token)
  | 0, _ => none
  | fuel + 1, ts => do
    let (a, rest) ← sum? bare fuel ts
    match rest with
    | .mark .less :: rest | .mark .greater :: rest =>
      let (b, rest) ← sum? bare fuel rest
      match rest with
      | .mark .less :: _ | .mark .greater :: _ => none
      | rest => return (comparison a b, rest)
    | rest => return (a, rest)

def sum? (bare : Bare) : Nat → List Token → Option (Phrase × List Token)
  | 0, _ => none
  | fuel + 1, ts => do
    let (a, rest) ← term? bare fuel ts
    moreTerms? bare fuel a rest

/-- The terms behind one that has been read. -/
def moreTerms? (bare : Bare) : Nat → Phrase → List Token → Option (Phrase × List Token)
  | 0, _, _ => none
  | fuel + 1, a, ts =>
    match ts with
    | .mark m :: rest =>
      match sumOperation? m with
      | some op => do
        let (b, rest) ← term? bare fuel rest
        moreTerms? bare fuel (binary op a b) rest
      | none => some (a, ts)
    | ts => some (a, ts)

def term? (bare : Bare) : Nat → List Token → Option (Phrase × List Token)
  | 0, _ => none
  | fuel + 1, ts => do
    let (a, rest) ← unary? bare fuel ts
    moreFactors? bare fuel a rest

/-- The factors behind one that has been read. -/
def moreFactors? (bare : Bare) : Nat → Phrase → List Token → Option (Phrase × List Token)
  | 0, _, _ => none
  | fuel + 1, a, ts =>
    match ts with
    | [] => some (a, [])
    | t :: rest =>
      if startsPower t then do
        let (b, rest) ← power? bare fuel ts
        moreFactors? bare fuel (binary .mul a b) rest
      else
        match t with
        | .mark m =>
          match termOperation? m with
          | some op => do
            let (b, rest) ← unary? bare fuel rest
            moreFactors? bare fuel (binary op a b) rest
          | none => some (a, ts)
        | _ => some (a, ts)

def unary? (bare : Bare) : Nat → List Token → Option (Phrase × List Token)
  | 0, _ => none
  | fuel + 1, ts =>
    match ts with
    | .mark .minus :: rest => (unary? bare fuel rest).map fun (a, rest) => (minus a, rest)
    | .mark .plus :: rest => (unary? bare fuel rest).map fun (a, rest) => (plus a, rest)
    | ts => power? bare fuel ts

def power? (bare : Bare) : Nat → List Token → Option (Phrase × List Token)
  | 0, _ => none
  | fuel + 1, ts => do
    let (a, rest) ← post? bare fuel ts
    match rest with
    | .mark .power :: rest =>
      let (b, rest) ← unary? bare fuel rest
      return (binary .pow a b, rest)
    | rest => return (a, rest)

def post? (bare : Bare) : Nat → List Token → Option (Phrase × List Token)
  | 0, _ => none
  | fuel + 1, ts => do
    let isDrawn (n : String) : Bool := bare.contains n && !reserved.contains n
    let (a, rest) ← match ts with
      | .name n :: .name m :: .mark .bang :: rest =>
        if isDrawn n && isDrawn m then some (binary .mul (name n) (name m), .mark .bang :: rest)
        else atom? bare fuel ts
      | .name n :: .mark .opening :: rest =>
        if isFunction bare n || !bangCloses 1 rest then atom? bare fuel ts
        else if isDrawn n then (group? bare fuel rest).map fun (a, rest) => (binary .mul (name n) a, rest)
        else none
      | ts => atom? bare fuel ts
    closeFactorial a rest

/-- What stands in brackets, the opening one of which has been read. -/
def group? (bare : Bare) : Nat → List Token → Option (Phrase × List Token)
  | 0, _ => none
  | _ + 1, .mark .closing :: rest => some (tuple [], rest)
  | fuel + 1, ts => do
    match ← tuple? bare fuel ts with
    | (a, .mark .closing :: rest) => return (a, rest)
    | _ => none

def atom? (bare : Bare) : Nat → List Token → Option (Phrase × List Token)
  | 0, _ => none
  | fuel + 1, ts =>
    match ts with
    | .integer n :: rest => some (integer n, rest)
    | .decimal q :: rest => some (decimal q, rest)
    | .imaginary :: rest => some (imaginary, rest)
    | .mark .opening :: rest => group? bare fuel rest
    | .name s :: rest =>
      if reserved.contains s then none
      else
        match rest with
        | .mark .opening :: inner =>
          match functions.lookup s with
          | some f =>
            if bare.contains s then some (name s, rest)
            else do
              match ← group? bare fuel inner with
              | (tuple items, rest) => return (call f items, rest)
              | (a, rest) => return (call f [a], rest)
          | none => some (name s, rest)
        | _ => some (name s, rest)
    | _ => none

end

/-- Reads a text as a whole. -/
def parse? (cs : List Char) : Option Phrase := do
  let bare := Token.bareWords (cs.length + 1) cs
  let tokens ← joinLines bare 0 none (← Token.scan cs)
  match ← tuple? bare (10 * tokens.length + 10) tokens with
  | (p, []) => return p
  | _ => none

end Phrase

end Isolate
