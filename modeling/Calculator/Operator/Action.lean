import Calculator.Operator
import Calculator.Number.Division
import Calculator.Result

/-!
# What operators compute

An `Action` is a function of one or two numbers, or one that may refuse what it
is given; `call` gives it the operands of an operator, whatever their number. An
`ActionTable` gives operators their actions; `standard` is the arithmetic of the
floats, where comparisons answer one or zero and nothing traps. `override` puts
any other action in place of one; the parentheses and the assignment have none
to replace. `Serves` says that a table has an action for every other operator,
`Complete` that these have a value for all operands.
-/

namespace Calculator

inductive Action where
  | unary (f : Float → Float)
  | binary (f : Float → Float → Float)
  /-- An action that may refuse its arguments, with a text. -/
  | guarded (f : List Float → Except String Float)

namespace Action

/-- The number of arguments that always have a value; a guarded action promises none. -/
def arity : Action → Nat
  | unary _ => 1
  | binary _ => 2
  | guarded _ => 0

/-- Why an action has no value. -/
inductive Refusal where
  | arguments (taken given : Nat)
  | guarded (text : String)
  deriving DecidableEq, Repr

def Refusal.message : Refusal → String
  | arguments 1 given => s!"<lambda>() takes 1 positional argument but {given} were given"
  | arguments _ _ => "<lambda>() missing 1 required positional argument: 'b'"
  | guarded text => text

/-- The value for the operands of an operator. -/
def call : Action → List Float → Except Refusal Float
  | unary f, [x] => .ok (f x)
  | binary f, [x, y] => .ok (f x y)
  | guarded f, xs => (f xs).mapError .guarded
  | a, xs => .error (.arguments a.arity xs.length)

/-- The action has a value for any `n` arguments. -/
def Total (a : Action) (n : Nat) : Prop := ∀ xs : List Float, xs.length = n → ∃ y, a.call xs = .ok y

theorem total_arity {a : Action} (h : a.arity ≠ 0) : a.Total a.arity := by
  intro xs hxs
  match a, xs with
  | unary f, [x] => exact ⟨f x, rfl⟩
  | binary f, [x, y] => exact ⟨f x y, rfl⟩
  | guarded f, xs => exact absurd rfl h

/-- Replacement actions by name: two digits as a number, projections, constants, a successor. -/
def ofName? : String → Option Action
  | "digits" => some (.binary fun a b => a * 10.0 + b)
  | "left" => some (.binary fun a _ => a)
  | "right" => some (.binary fun _ b => b)
  | "zero" => some (.binary fun _ _ => 0.0)
  | "inc" => some (.unary fun a => a + 1.0)
  | "zero1" => some (.unary fun _ => 0.0)
  | _ => none

end Action

/-- The actions known to an evaluation. -/
structure ActionTable where
  action? : Operator → Option Action

namespace Operator

def isComputing (o : Operator) : Bool := !o.isGrouping && o != .assign

def standardAction? : Operator → Option Action
  | openParen | closeParen | assign => none
  | comma => some (.binary fun _ b => b)
  | eq => some (.binary fun a b => Number.ofBool (a == b))
  | ne => some (.binary fun a b => Number.ofBool (a != b))
  | lt => some (.binary fun a b => Number.ofBool (a < b))
  | le => some (.binary fun a b => Number.ofBool (a ≤ b))
  | gt => some (.binary fun a b => Number.ofBool (a > b))
  | ge => some (.binary fun a b => Number.ofBool (a ≥ b))
  | add => some (.binary fun a b => a + b)
  | sub => some (.binary fun a b => a - b)
  | mul => some (.binary fun a b => a * b)
  | div => some (.binary Number.quotient)
  | mod => some (.binary Number.remainder)
  | pow => some (.binary Float.pow)
  | not => some (.unary fun a => Number.ofBool (Number.isFalse a))
  | pos => some (.unary id)
  | neg => some (.unary fun a => -a)

theorem arity_ne_zero {o : Operator} (h : o.isComputing = true) : o.arity ≠ 0 := by
  cases o <;> first | decide | cases h

end Operator

namespace ActionTable

def standard : ActionTable := ⟨Operator.standardAction?⟩

/-- The operators that have an action, in registry order. -/
def operators (t : ActionTable) : List Operator :=
  Operator.all.filter fun o => (t.action? o).isSome

/-- Every computing operator has an action of its arity. -/
def Complete (t : ActionTable) : Prop :=
  ∀ o : Operator, o.isComputing = true → ∃ a, t.action? o = some a ∧ a.arity = o.arity

theorem standard_complete : standard.Complete := by
  intro o h
  have arity_eq : o.standardAction?.map Action.arity = some o.arity := by
    revert h
    cases o <;> decide
  exact Option.map_eq_some_iff.1 arity_eq

/-- An operator whose meaning is fixed. -/
structure Fixed where
  operator : Operator
  deriving DecidableEq, Repr

namespace Fixed

def message (e : Fixed) : String := s!"Operator {e.operator.name} has no overridable action"

end Fixed

/-- Puts another action in place of the operator's own. -/
def override (t : ActionTable) (o : Operator) (a : Action) : Except Fixed ActionTable :=
  if o.isComputing then .ok ⟨fun p => if p = o then some a else t.action? p⟩ else .error ⟨o⟩

/-- The standard actions with some replaced; a later replacement wins. -/
def ofOverrides (overrides : List (Operator × Action)) : Except Fixed ActionTable :=
  overrides.foldlM (fun t p => t.override p.1 p.2) standard

theorem override_eq_ok_iff {t t' : ActionTable} {o : Operator} {a : Action} :
    t.override o a = .ok t' ↔
      o.isComputing = true ∧ t' = ⟨fun p => if p = o then some a else t.action? p⟩ := by
  unfold override
  split
  · simp_all only [Except.ok.injEq, true_and]
    exact eq_comm
  · simp_all

theorem Complete.override {t t' : ActionTable} {o : Operator} {a : Action} (ht : t.Complete)
    (ha : a.arity = o.arity) (h : t.override o a = .ok t') : t'.Complete := by
  obtain ⟨_, rfl⟩ := override_eq_ok_iff.1 h
  intro p hp
  by_cases hpo : p = o
  · subst hpo
    exact ⟨a, by simp, ha⟩
  · simpa [hpo] using ht p hp

/-- The operators that have an action are those that compute. -/
def Serves (t : ActionTable) : Prop := ∀ o, (t.action? o).isSome = o.isComputing

theorem standard_serves : standard.Serves := by
  intro o
  cases o <;> rfl

theorem Serves.override {t u : ActionTable} (ht : t.Serves) {o : Operator} {a : Action}
    (h : t.override o a = .ok u) : u.Serves := by
  obtain ⟨ho, rfl⟩ := override_eq_ok_iff.1 h
  intro p
  by_cases hp : p = o
  · simp [hp, ho]
  · simpa [hp] using ht p

theorem Serves.overrides {t u : ActionTable} {os : List (Operator × Action)} (ht : t.Serves)
    (h : os.foldlM (fun t p => t.override p.1 p.2) t = .ok u) : u.Serves := by
  induction os generalizing t with
  | nil =>
    cases h
    exact ht
  | cons p ps ih =>
    obtain ⟨v, hv, h⟩ := Result.bind_eq_ok_iff.1 h
    exact ih (ht.override hv) h

end ActionTable

end Calculator
