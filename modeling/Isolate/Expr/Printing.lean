import Isolate.Expr.Basic
import Isolate.Number

/-!
# Written expressions

Two forms: the usual one, with operators between their operands and brackets where they are needed (`Expr.text`), and
reverse Polish notation, with operators behind their operands and no brackets at all (`Expr.polish`).

In the first, an operand of `^`, `%` and `!` stands without brackets if it is positive and a whole number, a variable or
a call; a factor stands in brackets if it is a sum of more than one term, a fraction or a remainder.
-/

namespace Isolate

/-! ## The usual form -/

/-- A written expression, and how it may stand beside operators. -/
structure Piece where
  text : String
  /-- May be an operand of a binding operator as it is. -/
  isAtom : Bool
  /-- Needs brackets as a factor. -/
  isCompound : Bool

namespace Piece

def bracketed (text : String) : String := "(" ++ text ++ ")"

/-- The piece as an operand of `^`, `%` or `!`. -/
def operand (p : Piece) : String := if p.isAtom then p.text else bracketed p.text

/-- The piece as a factor. -/
def factor (p : Piece) : String := if p.isCompound then bracketed p.text else p.text

end Piece

namespace Ratio

/-- A ratio of written factors: a denominator of several factors stands in brackets, and nothing above it is one. -/
def text (r : Ratio Piece) : String :=
  let product := " * ".intercalate (r.numerator.map Piece.factor)
  let numerator := if product.isEmpty then "1" else product
  match r.denominator with
  | [] => numerator
  | [d] => numerator ++ " / " ++ d.factor
  | ds => numerator ++ " / " ++ Piece.bracketed (" * ".intercalate (ds.map Piece.factor))

/-- A term behind others: its leading minus becomes the operator. -/
def textBehind (r : Ratio Piece) : String :=
  match r.text.toList with
  | '-' :: rest => " - " ++ String.ofList rest
  | rest => " + " ++ String.ofList rest

end Ratio

namespace Shape

/-- A node without its sign. -/
def text : Shape Piece → String
  | number v => Number.text v
  | var n => n
  | power b e => b.operand ++ "^" ++ e.operand
  | modulo a b => a.operand ++ " % " ++ b.operand
  | factorial a => a.operand ++ "!"
  | call n as => n ++ "(" ++ ", ".intercalate (as.map Piece.text) ++ ")"
  | sum [] => "0"
  | sum (t :: ts) => t.text ++ String.join (ts.map Ratio.textBehind)

/-- May the node be an operand as it is, if it is positive? -/
def isAtom : Shape α → Bool
  | number v => v.den = 1
  | var _ => true
  | call _ _ => true
  | _ => false

/-- Does the node need brackets as a factor? -/
def isCompound : Shape α → Bool
  | number v => v.den ≠ 1
  | modulo _ _ => true
  | sum [t] => !t.denominator.isEmpty
  | sum ts => 1 < ts.length
  | _ => false

/-- Does the node need brackets behind a minus? -/
def isLoose : Shape α → Bool
  | modulo _ _ => true
  | sum ts => 1 < ts.length
  | _ => false

end Shape

namespace Expr

/-- Writes one node, given its operands written. -/
def pieceStep (e : Expr) (b : Shape Piece) : Piece where
  text :=
    match e.sign with
    | .pos => b.text
    | .neg => "-" ++ if b.isLoose then Piece.bracketed b.text else b.text
  isAtom := e.sign = .pos && b.isAtom
  isCompound := b.isCompound

def piece (e : Expr) : Piece := e.fold pieceStep

/-- The usual form. -/
def text (e : Expr) : String := e.piece.text

/-- The usual form, fit to stand next to `*` or `/`. -/
def factorText (e : Expr) : String := e.piece.factor

end Expr

/-- The sides with equals signs between them. -/
def Equation.text (q : Equation) : String := " = ".intercalate (q.sides.map Expr.text)

/-! ## Reverse Polish notation -/

/-- Factors one behind the other, each after the first with the sign of multiplication; no factor at all is one. -/
def polishFactors : List (List String) → List String
  | [] => ["1"]
  | f :: fs => f ++ fs.flatMap (· ++ ["*"])

def Ratio.polish (r : Ratio (List String)) : List String :=
  polishFactors r.numerator ++ if r.denominator.isEmpty then [] else polishFactors r.denominator ++ ["/"]

namespace Shape

def polish : Shape (List String) → List String
  | number v => [Number.text v]
  | var n => [n]
  | power b e => b ++ e ++ ["^"]
  | modulo a b => a ++ b ++ ["%"]
  | factorial a => a ++ ["!"]
  | call n as => as.flatten ++ [n]
  | sum [] => ["0"]
  | sum (t :: ts) => t.polish ++ ts.flatMap fun t => t.polish ++ ["+"]

end Shape

namespace Expr

/-- The tokens of an expression, every operator behind its operands. -/
def polishTokens (e : Expr) : List String :=
  e.fold fun e b => match e.sign with
    | .pos => b.polish
    | .neg => b.polish ++ ["neg"]

/-- The tokens with blanks between them. -/
def polish (e : Expr) : String := " ".intercalate e.polishTokens

end Expr

def Equation.polish (q : Equation) : String := " = ".intercalate (q.sides.map Expr.polish)

end Isolate
