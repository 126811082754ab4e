import Calculator.Token

/-!
# How an evaluation fails

The causes for which a postfix program has no value, each with the tokens it is
about. `kind` sorts them, `token` is the place to show, and `message` the
wording.
-/

namespace Calculator.Evaluation

inductive FailureKind where
  | stackUnderflow
  | unboundSymbol
  | invalidOperand
  | malformedResult
  deriving DecidableEq, Repr

namespace FailureKind

def name : FailureKind → String
  | stackUnderflow => "StackUnderflow"
  | unboundSymbol => "UnboundSymbol"
  | invalidOperand => "InvalidOperand"
  | malformedResult => "MalformedResult"

end FailureKind

inductive Failure where
  /-- A parenthesis among the instructions. -/
  | parenthesis (token : Token)
  /-- An operator with too few operands on the stack. -/
  | underflow (operator : Token) (arity found : Nat)
  /-- A name without a value, met by an operator or at the end. -/
  | unbound (symbol : Token) (operator : Option Token)
  /-- A token that denotes no operand. -/
  | notAnOperand (token : Token)
  /-- An assignment to something other than a name; the target is a token unless it is a result. -/
  | notAName (operator : Token) (target : Option Token)
  /-- An assignment to a constant. -/
  | constant (symbol : Token)
  /-- A program that leaves no operand or several; the second one is shown if it is a token. -/
  | leftover (count : Nat) (second : Option Token)

namespace Failure

def kind : Failure → FailureKind
  | underflow .. => .stackUnderflow
  | unbound .. => .unboundSymbol
  | leftover .. => .malformedResult
  | parenthesis _ | notAnOperand _ | notAName .. | constant _ => .invalidOperand

def token : Failure → Option Token
  | parenthesis t | underflow t _ _ | unbound t _ | notAnOperand t | constant t => some t
  | notAName operator target => some (target.getD operator)
  | leftover _ second => second

def message : Failure → String
  | parenthesis t => s!"Unbalanced parenthesis '{t.text}' at position {t.position}"
  | underflow t arity found =>
    s!"Stack underflow whilst executing operator '{t.text}' (expects {arity} args, got {found})"
  | unbound t none => s!"Unbound symbol referenced '{t.text}'"
  | unbound t (some operator) =>
    s!"Unbound symbol '{t.text}' referenced in operator '{operator.text}'"
  | notAnOperand t => s!"Invalid token '{t.text}' used as an operand"
  | notAName operator _ => s!"Left-hand side of '{operator.text}' must be a symbol"
  | constant t => s!"Cannot assign to constant value '{t.text}'"
  | leftover count _ => s!"Expected one item to be in result stack, got {count}"

end Failure

end Calculator.Evaluation
