import Calculator.Evaluation.Failure
import Calculator.Limits
import Calculator.Literal
import Calculator.Operator.Action

/-!
# Errors in formulas

An `Error` is a cause together with the formula it was found in, if that is
known. `message` is the wording, `position` the index it is about, `context` the
message above the formula with a caret under that index, and `line` the message
on one line.

A `Fault` is no error of a formula: it is a literal that the options have made
unreadable, an action that refuses its operands, or tokens and tables that no
lexer or registry makes. A `Problem` is either.
-/

namespace Calculator

open Evaluation (Failure)

inductive Cause where
  | note (message : String) (position : Option Int)
  | unknownCharacter (c : Char) (position : Nat)
  | unbalanced (position : Nat)
  | unclosed (position : Nat)
  | limit (excess : Excess)
  | constantAssignment (name : String)
  | notParsed
  | evaluation (failure : Failure)

namespace Cause

def message : Cause → String
  | note message _ => message
  | unknownCharacter c _ => s!"Unknown token encountered '{c}'"
  | unbalanced position => s!"Unbalanced parenthesis ')' at position {position}"
  | unclosed position => s!"Unclosed parenthesis '(' at position {position}"
  | limit excess => excess.message
  | constantAssignment name => s!"Cannot assign to constant value '{name}'"
  | notParsed => "Expression must be parsed successfully before evaluation"
  | evaluation failure => failure.message

def position : Cause → Option Int
  | note _ position => position
  | unknownCharacter _ position | unbalanced position | unclosed position => some position
  | limit _ | constantAssignment _ | notParsed => none
  | evaluation failure => failure.token.map fun t => (t.position : Int)

end Cause

structure Error where
  cause : Cause
  expression : Option String := none

namespace Error

def message (e : Error) : String := e.cause.message

def position (e : Error) : Option Int := e.cause.position

/-- Names the formula unless the error already names one. -/
def within (e : Error) (source : String) : Error :=
  { e with expression := some (e.expression.getD source) }

/-- Blanks up to an index and a caret; no blanks before the start. -/
def caret (position : Int) : String := String.ofList (List.replicate position.toNat ' ' ++ ['^'])

/-- The message and, where formula and index are known, both lines below it. -/
def context (e : Error) : String :=
  match e.expression, e.position with
  | some source, some position => s!"{e.message}\n  {source}\n  {caret position}"
  | _, _ => e.message

def lineOf (message : String) : String := "[!] " ++ message

def line (e : Error) : String :=
  match e.position with
  | some position => s!"{lineOf e.message} [position {position}]"
  | none => lineOf e.message

end Error

inductive Fault where
  /-- A literal that denotes no number once its separators are out. -/
  | literal (fault : Literal.Fault)
  /-- A token used as an operator without having one. -/
  | noOperator (type : TokenType)
  /-- An operator that the action table does not serve. -/
  | noAction (operator : Operator)
  /-- An action without a value for the operands that it is given. -/
  | action (operator : Operator) (refusal : Action.Refusal)
  deriving DecidableEq, Repr

namespace Fault

def message : Fault → String
  | literal fault => fault.message
  | noOperator type => s!"{type.name} token has no operator spec"
  | noAction operator => s!"{operator.name}"
  | action _ refusal => refusal.message

end Fault

inductive Problem where
  | error (e : Error)
  | fault (f : Fault)

namespace Problem

def within (p : Problem) (source : String) : Problem :=
  match p with
  | error e => error (e.within source)
  | fault f => fault f

end Problem

namespace Limits

/-- Refuses a count above its bound with an error that names no formula. -/
def require (l : Limits) (k : Limit) (actual : Nat) : Except Problem Unit :=
  (l.check k actual).mapError fun e => .error { cause := .limit e }

theorem require_eq_ok_iff {l : Limits} {k : Limit} {n : Nat} :
    l.require k n = .ok () ↔ n ≤ l.bound k := by
  rw [require, Result.mapError_eq_ok_iff, check_eq_ok_iff]

theorem require_eq_error_iff {l : Limits} {k : Limit} {n : Nat} {p : Problem} :
    l.require k n = .error p ↔
      l.bound k < n ∧ p = .error { cause := .limit ⟨k, l.bound k, n⟩ } := by
  rw [require, Result.mapError_eq_error_iff]
  constructor
  · rintro ⟨e, he, rfl⟩
    obtain ⟨hlt, rfl⟩ := check_eq_error_iff.1 he
    exact ⟨hlt, rfl⟩
  · rintro ⟨hlt, rfl⟩
    exact ⟨_, check_eq_error_iff.2 ⟨hlt, rfl⟩, rfl⟩

end Limits

namespace Token

def operator (t : Token) : Except Fault Operator :=
  match t.operator? with
  | some o => .ok o
  | none => .error (.noOperator t.type)

theorem operator_eq_ok_iff {t : Token} {o : Operator} :
    t.operator = .ok o ↔ t.operator? = some o := by
  unfold operator
  split <;> simp_all

end Token

end Calculator
