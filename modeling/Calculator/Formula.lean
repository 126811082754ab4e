import Calculator.Evaluation
import Calculator.Postfix
import Calculator.Token.Lexer

/-!
# Formulas

A `Formula` is a source text with the settings under which it is read, and what
came of reading it: nothing yet, a postfix program, or an error. `parse` reads
the source against the names of a scope, `evaluate` runs the program on a scope
as often as wanted. A change of the source calls for another `parse`; binding a
name that is no identifier may.
-/

namespace Calculator

structure Settings where
  actions : ActionTable := .standard
  limits : Limits := {}
  options : Literal.Options := {}
  scanner : Scanner := .literals

namespace Settings

/-- What the lexer knows when the names of a scope are bound. -/
def lexicon (s : Settings) (scope : Scope Float) : Lexicon :=
  { bound := scope.contains, options := s.options, scanner := s.scanner }

def toProgram (s : Settings) (scope : Scope Float) (source : String) :
    Except Problem (List Token) := do
  let ts ← (s.lexicon scope).tokens s.limits source
  Postfix.ofTokens s.limits (some source) ts

/-- The postfix program of a source; errors name the source. -/
def compile (s : Settings) (scope : Scope Float) (source : String) : Except Problem (List Token) :=
  (s.toProgram scope source).mapError (·.within source)

end Settings

inductive Reading where
  | none
  | program (ts : List Token)
  | error (e : Error)

structure Formula where
  source : String := ""
  settings : Settings := {}
  reading : Reading := .none

namespace Formula

def program (f : Formula) : Option (List Token) :=
  match f.reading with
  | .program ts => some ts
  | _ => none

def error (f : Formula) : Option Error :=
  match f.reading with
  | .error e => some e
  | _ => none

def load (f : Formula) (source : String) : Formula := { f with source, reading := .none }

def forget (f : Formula) : Formula := { f with reading := .none }

/-- An unread formula with the same settings, and the same source unless another is given. -/
def copy (f : Formula) (source : Option String) : Formula :=
  { f with source := source.getD f.source, reading := .none }

/-- Reads the source. A fault leaves the formula unread. -/
def parse (f : Formula) (scope : Scope Float) : Except Fault (Option Error) × Formula :=
  match f.settings.compile scope f.source with
  | .ok ts => (.ok none, { f with reading := .program ts })
  | .error (.error e) => (.ok (some e), { f with reading := .error e })
  | .error (.fault x) => (.error x, f.forget)

/-- The value of a formula, or why its program has none. -/
abbrev Outcome := Except Evaluation.Failure Float

/-- An outcome field by field. -/
structure Report where
  value? : Option Float := none
  success : Bool := false
  kind? : Option Evaluation.FailureKind := none
  token? : Option Token := none
  error? : Option String := none

def Outcome.report : Outcome → Report
  | .ok x => { value? := some x, success := true }
  | .error e => { kind? := some e.kind, token? := e.token, error? := some e.message }

/-- Runs the program on a scope; without one there is an error. -/
def evaluate (f : Formula) (scope : Scope Float) : Except Problem Outcome × Scope Float :=
  match f.program with
  | none => (.error (.error { cause := .notParsed, expression := some f.source }), scope)
  | some ts =>
    match Evaluation.evaluate f.settings.actions scope ts with
    | (.ok x, s) => (.ok (.ok x), s)
    | (.error (.failure e), s) => (.ok (.error e), s)
    | (.error (.fault x), s) => (.error (.fault x), s)

theorem evaluate_of_none {f : Formula} (h : f.program = none) (scope : Scope Float) :
    f.evaluate scope =
      (.error (.error { cause := .notParsed, expression := some f.source }), scope) := by
  rw [evaluate, h]

def describe (f : Formula) : String := "Expression(" ++ Text.quoted f.source ++ ")"

end Formula

end Calculator
