import Calculator.Operator

/-!
# Tokens

A token is a piece of a formula with its text and the index where it stands.
Tokens may be made by hand, so the operator and the number are optional whatever
the type says; `Consistent` holds of the tokens a lexer makes. `isOperator`
looks at the type alone and `isA` at the type and the operator.
-/

namespace Calculator

inductive TokenType where
  | operator
  | number
  | symbol
  deriving DecidableEq, Repr

namespace TokenType

def name : TokenType → String
  | operator => "OPERATOR"
  | number => "NUMBER"
  | symbol => "SYMBOL"

def ofName? : String → Option TokenType
  | "OPERATOR" => some operator
  | "NUMBER" => some number
  | "SYMBOL" => some symbol
  | _ => none

end TokenType

structure Token where
  type : TokenType
  text : String
  position : Nat
  operator? : Option Operator := none
  number? : Option Float := none
  deriving DecidableEq

namespace Token

def ofOperator (o : Operator) (position : Nat) : Token :=
  { type := .operator, text := o.lexeme, position, operator? := some o }

def ofNumber (text : String) (x : Float) (position : Nat) : Token :=
  { type := .number, text, position, number? := some x }

def ofSymbol (name : String) (position : Nat) : Token :=
  { type := .symbol, text := name, position }

def isOperator (t : Token) : Bool := t.type == .operator

def isA (t : Token) (o : Operator) : Bool := t.isOperator && t.operator? == some o

/-- An operator token, of one of the given operators if any are given. -/
def isOneOf (t : Token) (os : List Operator) : Bool :=
  t.isOperator && (os.isEmpty || os.any t.isA)

/-- Every operator token has an operator. -/
def Consistent (t : Token) : Prop := t.isOperator = true → t.operator?.isSome = true

theorem isOperator_of_isA {t : Token} {o : Operator} (h : t.isA o = true) :
    t.isOperator = true := by
  simp_all [isA]

theorem operator?_of_isA {t : Token} {o : Operator} (h : t.isA o = true) :
    t.operator? = some o := by
  simp_all [isA]

end Token

end Calculator
