import Calculator.Error
import Calculator.Literal.Scanner
import Calculator.Text.Blank
import Calculator.Text.Identifier
import Calculator.Token.Sign

/-!
# From text to tokens

A `Lexicon` holds what a lexer knows besides the text: the bound names, the
options for literals and the scanner. At each place it takes a blank, else the
longest operator, else a whole run of name characters that is bound or an
identifier, else what the scanner takes; `pieceAt` decides which. `scan` cuts a
text into tokens from left to right, and `tokens` does so within limits.
-/

namespace Calculator

open Text

/-- What stands at a place of a text. -/
inductive Piece where
  | blank
  | operator (o : Operator)
  | symbol (name : List Char)
  | number (m : Literal.Match)

namespace Piece

def length : Piece → Nat
  | blank => 1
  | operator o => o.lexeme.length
  | symbol name => name.length
  | number m => m.text.length

def token? (position : Nat) : Piece → Option Token
  | blank => none
  | operator o => some (.ofOperator o position)
  | symbol name => some (.ofSymbol (String.ofList name) position)
  | number m => some (.ofNumber (String.ofList m.text) m.value position)

end Piece

structure Lexicon where
  bound : String → Bool := fun _ => false
  options : Literal.Options := {}
  scanner : Scanner := .literals

namespace Lexicon

/-- Whether a run of name characters is read as a name. -/
def isName (x : Lexicon) (run : List Char) : Bool :=
  run ≠ [] && (x.bound (String.ofList run) || isIdentifier (String.ofList run))

/-- The piece at the start of a text that begins with `c`; none if nothing can start here. -/
def pieceAt (x : Lexicon) (c : Char) (cs : List Char) : Except Literal.Fault (Option Piece) :=
  if isBlank c then .ok (some .blank)
  else
    match Operator.ofText? (c :: cs) with
    | some o => .ok (some (.operator o))
    | none =>
      if x.isName (nameRun (c :: cs)) then .ok (some (.symbol (nameRun (c :: cs))))
      else
        (x.scanner.scan x.options (c :: cs)).map fun m =>
          if m.text = [] then none else some (.number m)

/-- The tokens of a text that starts at a position. Every piece takes at least one character. -/
def scan (x : Lexicon) (position : Nat) : List Char → Except Problem (List Token)
  | [] => .ok []
  | c :: cs =>
    match x.pieceAt c cs with
    | .error f => .error (.fault (.literal f))
    | .ok none => .error (.error { cause := .unknownCharacter c position })
    | .ok (some p) =>
      (x.scan (position + p.length) (cs.drop (p.length - 1))).map fun ts =>
        (p.token? position).toList ++ ts
termination_by cs => cs.length

/-- The tokens of a source within the limits, signs not yet resolved. -/
def rawTokens (x : Lexicon) (limits : Limits) (source : String) : Except Problem (List Token) := do
  limits.require .length source.length
  let ts ← (x.scan 0 source.toList).mapError (·.within source)
  limits.require .tokens ts.length
  return ts

def tokens (x : Lexicon) (limits : Limits) (source : String) : Except Problem (List Token) :=
  (x.rawTokens limits source).map Token.resolveSigns

end Lexicon

end Calculator
