import Calculator.Error

/-!
# From infix to postfix

`Postfix.ofTokens` puts the tokens of a formula into the order in which a stack
machine executes them: operands before their operator, no parentheses. It reads
the tokens once. A `Conversion` is what it holds between two tokens: the output
so far, the operators that still wait (the last one first), and the number of
open parentheses. `step` takes one token, `finish` empties the stack.
-/

namespace Calculator.Postfix

structure Conversion where
  output : List Token := []
  stack : List Token := []
  depth : Nat := 0

/--
Whether a waiting operator takes its operands before an incoming one: it binds tighter, or as
tightly and the incoming one groups to the left. An open parenthesis waits for its partner.
-/
def bindsFirst (waiting incoming : Token) : Except Fault Bool :=
  if waiting.isA .openParen then .ok false
  else do
    let o ← waiting.operator
    let p ← incoming.operator
    return p.precedence < o.precedence || (p.precedence == o.precedence && p.associativity == .left)

/-- Splits the stack into the operators that bind before an incoming one and those that wait on. -/
def splitStack (incoming : Token) : List Token → Except Fault (List Token × List Token)
  | [] => .ok ([], [])
  | top :: rest => do
    if ← bindsFirst top incoming then
      let (popped, kept) ← splitStack incoming rest
      return (top :: popped, kept)
    else return ([], top :: rest)

def openGroup (limits : Limits) (s : Conversion) (t : Token) : Except Problem Conversion := do
  limits.require .depth (s.depth + 1)
  return { s with stack := t :: s.stack, depth := s.depth + 1 }

/-- Closes the innermost group: all that waits above its parenthesis goes out. -/
def closeGroup (source : Option String) (s : Conversion) (t : Token) : Except Problem Conversion :=
  let waits (u : Token) := !u.isA .openParen
  match s.stack.dropWhile waits with
  | [] => .error (.error { cause := .unbalanced t.position, expression := source })
  | _ :: below =>
    .ok { output := s.output ++ s.stack.takeWhile waits, stack := below, depth := s.depth - 1 }

def pushOperator (s : Conversion) (t : Token) : Except Problem Conversion :=
  match splitStack t s.stack with
  | .ok (popped, kept) => .ok { s with output := s.output ++ popped, stack := t :: kept }
  | .error f => .error (.fault f)

def step (limits : Limits) (source : Option String) (s : Conversion) (t : Token) :
    Except Problem Conversion :=
  if !t.isOperator then .ok { s with output := s.output ++ [t] }
  else if t.isA .openParen then openGroup limits s t
  else if t.isA .closeParen then closeGroup source s t
  else pushOperator s t

/-- Sends out all that waits, unless a group is still open. -/
def finish (source : Option String) (s : Conversion) : Except Problem (List Token) :=
  match s.stack.find? (·.isA .openParen) with
  | some t => .error (.error { cause := .unclosed t.position, expression := source })
  | none => .ok (s.output ++ s.stack)

/-- The tokens in postfix order. The source, if given, is named in errors about parentheses. -/
def ofTokens (limits : Limits) (source : Option String) (ts : List Token) :
    Except Problem (List Token) := do
  finish source (← ts.foldlM (step limits source) {})

end Calculator.Postfix
