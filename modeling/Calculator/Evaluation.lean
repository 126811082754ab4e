import Calculator.Operator.Action
import Calculator.Scope

/-!
# Evaluation of postfix programs

A `Machine` holds a stack of operands and the scope. A token that is no operator
is pushed as it is; an operator takes its operands from the stack and pushes the
result. Names are looked up when an operator consumes them, so the left side of
an assignment stays a name, and an assignment is seen by everything resolved
after it.

`step` executes one token and either succeeds or leaves the machine alone. `run`
goes on to the first token that fails; what was assigned before stays assigned.
`evaluate` runs a whole program and resolves the one operand that it leaves.
-/

namespace Calculator.Evaluation

inductive Operand where
  | number (x : Float)
  | token (t : Token)

namespace Operand

def token? : Operand → Option Token
  | number _ => none
  | token t => some t

end Operand

/-- Why a program stops: it fails, or its tokens or actions do not serve. -/
inductive Halt where
  | failure (f : Failure)
  | fault (f : Fault)

/-- The stack, its top first, and the scope. -/
structure Machine where
  stack : List Operand := []
  scope : Scope Float

/-- The number of an operand; the operator that asks for it is named if it has none. -/
def resolve (scope : Scope Float) (operator : Option Token) : Operand → Except Failure Float
  | .number x => .ok x
  | .token t =>
    match t.type, t.number? with
    | .number, some x => .ok x
    | .symbol, _ =>
      match scope.find? t.text with
      | some x => .ok x
      | none => .error (.unbound t operator)
    | _, _ => .error (.notAnOperand t)

def assign (scope : Scope Float) (operator : Token) (target : Operand) (x : Float) :
    Except Failure (Scope Float) :=
  match target with
  | .number _ => .error (.notAName operator none)
  | .token t =>
    if t.type = .symbol then
      match scope.set t.text x with
      | .ok s => .ok s
      | .error _ => .error (.constant t)
    else .error (.notAName operator (some t))

def apply (actions : ActionTable) (o : Operator) (xs : List Float) : Except Halt Float :=
  match actions.action? o with
  | some a => (a.call xs).mapError fun r => .fault (.action o r)
  | none => .error (.fault (.noAction o))

theorem apply_cases (actions : ActionTable) (o : Operator) (xs : List Float) :
    (∃ y, apply actions o xs = .ok y) ∨ ∃ f, apply actions o xs = .error (.fault f) := by
  unfold apply
  split
  · next a _ =>
    cases a.call xs with
    | ok y => exact .inl ⟨y, rfl⟩
    | error r => exact .inr ⟨_, rfl⟩
  · exact .inr ⟨_, rfl⟩

def applyUnary (actions : ActionTable) (o : Operator) (x : Float) : Except Halt Float :=
  apply actions o [x]

def applyBinary (actions : ActionTable) (o : Operator) (x y : Float) : Except Halt Float :=
  apply actions o [x, y]

def execute (actions : ActionTable) (m : Machine) (t : Token) (o : Operator) :
    Except Halt Machine :=
  match o.arity, m.stack with
  | 1, a :: rest => do
    let x ← (resolve m.scope t a).mapError .failure
    let y ← applyUnary actions o x
    return { m with stack := .number y :: rest }
  | 2, right :: left :: rest =>
    if o = .assign then do
      let x ← (resolve m.scope t right).mapError .failure
      let scope ← (assign m.scope t left x).mapError .failure
      return ⟨.number x :: rest, scope⟩
    else do
      let x ← (resolve m.scope t left).mapError .failure
      let y ← (resolve m.scope t right).mapError .failure
      let z ← applyBinary actions o x y
      return { m with stack := .number z :: rest }
  | _, stack => .error (.failure (.underflow t o.arity stack.length))

def step (actions : ActionTable) (m : Machine) (t : Token) : Except Halt Machine :=
  if t.isOperator then
    match t.operator with
    | .error f => .error (.fault f)
    | .ok o =>
      if o.isGrouping then .error (.failure (.parenthesis t)) else execute actions m t o
  else .ok { m with stack := .token t :: m.stack }

/-- Executes tokens up to the first that halts; the machine is the one before that token. -/
def run (actions : ActionTable) (m : Machine) : List Token → Option Halt × Machine
  | [] => (none, m)
  | t :: ts =>
    match step actions m t with
    | .ok m => run actions m ts
    | .error h => (some h, m)

theorem run_append (actions : ActionTable) (m : Machine) (ts us : List Token) :
    run actions m (ts ++ us) =
      match run actions m ts with
      | (none, m) => run actions m us
      | (some h, m) => (some h, m) := by
  induction ts generalizing m with
  | nil => rfl
  | cons t ts ih =>
    simp only [List.cons_append, run]
    split
    · exact ih _
    · rfl

/-- The number that a program leaves. Exactly one operand must be on the stack. -/
def result (m : Machine) : Except Failure Float :=
  match m.stack with
  | [x] => resolve m.scope none x
  | stack => .error (.leftover stack.length (stack.reverse[1]?.bind Operand.token?))

/-- The value of a program, or why it has none, and the scope that it leaves. -/
def evaluate (actions : ActionTable) (scope : Scope Float) (program : List Token) :
    Except Halt Float × Scope Float :=
  match run actions { scope } program with
  | (some h, m) => (.error h, m.scope)
  | (none, m) => ((result m).mapError .failure, m.scope)

end Calculator.Evaluation
