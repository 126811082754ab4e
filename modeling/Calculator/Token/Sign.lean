import Calculator.Token

/-!
# Signs

A lexer reads every `+` and `-` as the binary operator. `resolveSigns` turns
those without a left operand into their prefix forms: a sign at the start, or
behind any operator other than a closing parenthesis.
-/

namespace Calculator

namespace Token

def endsOperand (t : Token) : Bool := !(t.isOperator && !t.isA .closeParen)

/-- The token as it reads without a left operand. -/
def asUnary (t : Token) : Token :=
  if t.isOperator then
    match t.operator?.bind Operator.unary? with
    | some o => { t with operator? := some o }
    | none => t
  else t

/-- Resolves the signs of a list, knowing whether an operand stands in front of it. -/
def resolveSignsFrom (afterOperand : Bool) : List Token → List Token
  | [] => []
  | t :: ts =>
    let t := if afterOperand then t else t.asUnary
    t :: resolveSignsFrom t.endsOperand ts

def resolveSigns (ts : List Token) : List Token := resolveSignsFrom false ts

@[simp] theorem type_asUnary (t : Token) : t.asUnary.type = t.type := by
  unfold asUnary
  split
  · split <;> rfl
  · rfl

@[simp] theorem text_asUnary (t : Token) : t.asUnary.text = t.text := by
  unfold asUnary
  split
  · split <;> rfl
  · rfl

@[simp] theorem isOperator_asUnary (t : Token) : t.asUnary.isOperator = t.isOperator := by
  rw [isOperator, isOperator, type_asUnary]

theorem length_resolveSignsFrom (afterOperand : Bool) (ts : List Token) :
    (resolveSignsFrom afterOperand ts).length = ts.length := by
  induction ts generalizing afterOperand with
  | nil => rfl
  | cons t ts ih => simp [resolveSignsFrom, ih]

end Token

end Calculator
