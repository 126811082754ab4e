import Calculator.Formula

/-!
# Worksheets

A worksheet is a formula with the scope that it reads and writes. `Worksheet.run`
carries out one command: it gives the reply, the worksheet afterwards and the
events that the formula reports on the way. A new scope may be put in place of
the old one; the answer then says that it is `fresh`.
-/

namespace Calculator

/-- What a formula reports while it is used. -/
inductive Event where
  | parsed (tokenCount : Nat)
  | parseFailed (e : Error)
  | evaluationFailed (f : Evaluation.Failure)

def Event.name : Event → String
  | parsed _ => "expression_parsed"
  | parseFailed _ => "expression_parse_failed"
  | evaluationFailed _ => "expression_evaluation_failed"

structure Worksheet where
  formula : Formula := {}
  scope : Scope Float := {}

namespace Worksheet

inductive Command where
  | load (source : String)
  /-- Forgets the program and removes all variables. -/
  | reset
  | parse
  | evaluate
  | program
  | source
  | limits
  | describe
  | getSymbol (name : String)
  | hasSymbol (name : String)
  | setSymbol (name : String) (x : Float)
  | deleteSymbol (name : String)
  | defineConstant (name : String) (x : Float)
  /-- Puts new variables beside the constants, in a scope of their own. -/
  | replaceSymbols (b : Bindings Float)

inductive Reply where
  | itself
  | nothing
  /-- The error of a parse, if it failed. -/
  | parsed (e : Option Error)
  | outcome (o : Formula.Outcome)
  | program (ts : Option (List Token))
  | source (s : String)
  | limits (l : Limits)
  | number (x : Option Float)
  | flag (b : Bool)
  | text (s : String)

structure Answer where
  reply : Except Problem Reply
  sheet : Worksheet
  events : List Event := []
  fresh : Bool := false

/-- What a parse reports; a fault is not reported. -/
def parseEvents (f : Formula) : List Event :=
  match f.reading with
  | .none => []
  | .program ts => [.parsed ts.length]
  | .error e => [.parseFailed e]

/-- What an evaluation reports: failures of the program only. -/
def evaluationEvents : Except Problem Formula.Outcome → List Event
  | .ok (.error f) => [.evaluationFailed f]
  | _ => []

def parse (w : Worksheet) : Answer :=
  let (r, f) := w.formula.parse w.scope
  { reply := (r.map .parsed).mapError .fault, sheet := { w with formula := f },
    events := parseEvents f }

def evaluate (w : Worksheet) : Answer :=
  let (r, s) := w.formula.evaluate w.scope
  { reply := r.map .outcome, sheet := { w with scope := s }, events := evaluationEvents r }

def setSymbol (w : Worksheet) (name : String) (x : Float) : Answer :=
  match w.scope.set name x with
  | .ok s => { reply := .ok .itself, sheet := { w with scope := s } }
  | .error e => { reply := .error (.error e.toError), sheet := w }

def replaceSymbols (w : Worksheet) (b : Bindings Float) : Answer :=
  match w.scope.withVariables b with
  | .ok s => { reply := .ok .itself, sheet := { w with scope := s }, fresh := true }
  | .error e => { reply := .error (.error e.toError), sheet := w }

def run (w : Worksheet) : Command → Answer
  | .load source => { reply := .ok .itself, sheet := { w with formula := w.formula.load source } }
  | .reset => { reply := .ok .itself, sheet := ⟨w.formula.forget, w.scope.clear⟩ }
  | .parse => w.parse
  | .evaluate => w.evaluate
  | .program => { reply := .ok (.program w.formula.program), sheet := w }
  | .source => { reply := .ok (.source w.formula.source), sheet := w }
  | .limits => { reply := .ok (.limits w.formula.settings.limits), sheet := w }
  | .describe => { reply := .ok (.text w.formula.describe), sheet := w }
  | .getSymbol n => { reply := .ok (.number (w.scope.find? n)), sheet := w }
  | .hasSymbol n => { reply := .ok (.flag (w.scope.contains n)), sheet := w }
  | .setSymbol n x => w.setSymbol n x
  | .deleteSymbol n =>
    { reply := .ok .itself, sheet := { w with scope := w.scope.delete n } }
  | .defineConstant n x =>
    { reply := .ok .nothing, sheet := { w with scope := w.scope.define n x } }
  | .replaceSymbols b => w.replaceSymbols b

/-- An unread formula with the same settings on the same scope. -/
def copy (w : Worksheet) (source : Option String) : Worksheet :=
  { w with formula := w.formula.copy source }

end Worksheet

end Calculator
