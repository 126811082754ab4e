import Calculator.Proofs.Heights
import Calculator.Proofs.Rereading

/-!
# The token that fails

A step gives a machine or a failure, so it cannot say what a token that fails has written by then.
`perform` executes a token in place: it reads and binds names as it goes, and what it has bound
stays bound when it halts. An operator asks for all that can fail before it binds a name, so tokens
in place leave what the machine leaves (`on_performAll`), and an evaluation is the same in place
(`evaluate_eq_valueInPlace`).

A token fails if those before it are executed and it is not (`FailsAt`). An evaluation fails at a
token, or it executes all of them and finds no result (`evaluate_eq_failure_iff`). The first token
that fails decides: what stands behind it is not looked at (`evaluate_of_failsAt`).
-/

namespace Calculator.Evaluation

open Effect

variable {actions : ActionTable} {scope : Scope Float} {t : Token} {ts : List Token} {e : Failure}
  {k : Nat}

/-! ## Execution in place -/

def operate (actions : ActionTable) (stack : List Operand) (t : Token) (o : Operator) :
    Effect (List Operand) :=
  match o.arity, stack with
  | 1, a :: rest => do
    let x ← number t a
    let y ← ofExcept (applyUnary actions o x)
    return .number y :: rest
  | 2, right :: left :: rest =>
    if o = .assign then do
      let x ← number t right
      bindTo t left x
      return .number x :: rest
    else do
      let x ← number t left
      let y ← number t right
      let z ← ofExcept (applyBinary actions o x y)
      return .number z :: rest
  | _, stack => throw (.failure (.underflow t o.arity stack.length))

def perform (actions : ActionTable) (stack : List Operand) (t : Token) : Effect (List Operand) :=
  if t.isOperator then
    match t.operator with
    | .error f => throw (.fault f)
    | .ok o =>
      if o.isGrouping then throw (.failure (.parenthesis t)) else operate actions stack t o
  else return .token t :: stack

def performAll (actions : ActionTable) (stack : List Operand) (ts : List Token) :
    Effect (List Operand) :=
  ts.foldlM (perform actions) stack

/-- What is left of a run: the stack, or why it has halted, and the scope. -/
def ending : Option Halt × Machine → Except Halt (List Operand) × Scope Float
  | (none, m) => (.ok m.stack, m.scope)
  | (some h, m) => (.error h, m.scope)

theorem ending_eq_ok_iff {r : Option Halt × Machine} {stack : List Operand} :
    ending r = (.ok stack, scope) ↔ r = (none, ⟨stack, scope⟩) := by
  obtain ⟨_ | h, stack', scope'⟩ := r
  · simp [ending]
  · simp [ending]

theorem ending_after_eq_error_iff {m : Machine} {r : Except Halt Machine} {h : Halt} :
    ending (after m r) = (.error h, scope) ↔ r = .error h ∧ scope = m.scope := by
  cases r with
  | ok m' => simp [after, ending]
  | error h' => simp [after, ending, eq_comm]

theorem on_operate (stack : List Operand) (scope : Scope Float) (t : Token) (o : Operator) :
    on scope (operate actions stack t o) =
      ending (after ⟨stack, scope⟩ (execute actions ⟨stack, scope⟩ t o)) := by
  unfold operate
  split
  · next a rest ho =>
    simp only [execute, ho]
    rw [on_number_bind, Result.mapError_bind]
    cases resolve scope t a with
    | error e => rfl
    | ok x =>
      dsimp only
      rw [on_ofExcept_bind]
      cases applyUnary actions o x <;> rfl
  · next b a rest ho =>
    simp only [execute, ho]
    split
    · rw [on_number_bind, Result.mapError_bind]
      cases resolve scope t b with
      | error e => rfl
      | ok x =>
        dsimp only
        -- The name is bound last: what can fail has been asked for.
        rw [on_bindTo_bind, Result.mapError_bind]
        cases assign scope t a x <;> rfl
    · rw [on_number_bind, Result.mapError_bind]
      cases resolve scope t a with
      | error e => rfl
      | ok x =>
        dsimp only
        rw [on_number_bind, Result.mapError_bind]
        cases resolve scope t b with
        | error e => rfl
        | ok y =>
          dsimp only
          rw [on_ofExcept_bind]
          cases applyBinary actions o x y <;> rfl
  · next hunary hbinary =>
    unfold execute
    split
    · next ho hstack => exact (hunary _ _ ho hstack).elim
    · next ho hstack => exact (hbinary _ _ _ ho hstack).elim
    · rfl

theorem on_perform (stack : List Operand) (scope : Scope Float) (t : Token) :
    on scope (perform actions stack t) =
      ending (after ⟨stack, scope⟩ (step actions ⟨stack, scope⟩ t)) := by
  unfold perform step
  split
  · cases t.operator with
    | error f => rfl
    | ok o =>
      dsimp only
      split
      · rfl
      · exact on_operate stack scope t o
  · rfl

theorem on_performAll (stack : List Operand) (scope : Scope Float) (ts : List Token) :
    on scope (performAll actions stack ts) = ending (run actions ⟨stack, scope⟩ ts) := by
  induction ts generalizing stack scope with
  | nil => rfl
  | cons t ts ih =>
    rw [performAll, List.foldlM_cons, on_bind, on_perform, run]
    cases step actions ⟨stack, scope⟩ t with
    | error h => rfl
    | ok m => exact ih m.stack m.scope

def valueInPlace (actions : ActionTable) (ts : List Token) : Effect Float := do
  match ← performAll actions [] ts with
  | [x] => number none x
  | stack => throw (.failure (.leftover stack.length (stack.reverse[1]?.bind Operand.token?)))

theorem evaluate_eq_valueInPlace (actions : ActionTable) (scope : Scope Float) (ts : List Token) :
    evaluate actions scope ts = on scope (valueInPlace actions ts) := by
  rw [evaluate, valueInPlace, on_bind, on_performAll]
  rcases run actions { scope } ts with ⟨_ | h, stack, s⟩
  · rcases stack with _ | ⟨x, _ | ⟨y, stack⟩⟩
    · rfl
    · exact (on_number s none x).symm
    · rfl
  · rfl

/-! ## The first failure -/

/-- The tokens before an index are executed in place, and the token there fails. It finds the scope
`before` and leaves the scope `after`. -/
structure FailsAt (actions : ActionTable) (scope : Scope Float) (ts : List Token) (k : Nat)
    (t : Token) (e : Failure) (before after : Scope Float) : Prop where
  token : ts[k]? = some t
  fails : ∃ stack, on scope (performAll actions [] (ts.take k)) = (.ok stack, before) ∧
    on before (perform actions stack t) = (.error (.failure e), after)

variable {before after : Scope Float}

/-- A token fails where its step does, and the scope is then as it was before the token. -/
theorem failsAt_iff : FailsAt actions scope ts k t e before after ↔
    ts[k]? = some t ∧ after = before ∧ ∃ stack,
      run actions { scope } (ts.take k) = (none, ⟨stack, before⟩) ∧
      step actions ⟨stack, before⟩ t = .error (.failure e) := by
  constructor
  · rintro ⟨ht, stack, hbefore, hafter⟩
    rw [on_performAll, ending_eq_ok_iff] at hbefore
    rw [on_perform, ending_after_eq_error_iff] at hafter
    exact ⟨ht, hafter.2, stack, hbefore, hafter.1⟩
  · rintro ⟨ht, hafter, stack, hbefore, hstep⟩
    refine ⟨ht, stack, ?_, ?_⟩
    · rw [on_performAll, ending_eq_ok_iff]
      exact hbefore
    · rw [on_perform, ending_after_eq_error_iff]
      exact ⟨hstep, hafter⟩

theorem FailsAt.evaluate_eq (h : FailsAt actions scope ts k t e before after) (more : List Token) :
    evaluate actions scope (ts.take (k + 1) ++ more) = (.error (.failure e), before) := by
  obtain ⟨ht, _, stack, hrun, hstep⟩ := failsAt_iff.1 h
  have hsplit : ts.take (k + 1) ++ more = ts.take k ++ t :: more := by
    rw [List.take_add_one, ht, List.append_assoc]
    rfl
  rw [evaluate, hsplit, run_append, hrun]
  simp only [run, hstep]

theorem FailsAt.evaluate_self (h : FailsAt actions scope ts k t e before after) :
    evaluate actions scope ts = (.error (.failure e), before) := by
  have heval := h.evaluate_eq (ts.drop (k + 1))
  rwa [List.take_append_drop] at heval

theorem evaluate_eq_failure_iff : (evaluate actions scope ts).1 = .error (.failure e) ↔
    (∃ k t before after, FailsAt actions scope ts k t e before after) ∨
      ∃ m, run actions { scope } ts = (none, m) ∧ result m = .error e := by
  constructor
  · intro h
    rw [evaluate] at h
    rcases hrun : run actions { scope } ts with ⟨_ | halt, m⟩ <;> rw [hrun] at h
    · exact .inr ⟨m, rfl, mapError_failure_iff.1 h⟩
    · cases h
      obtain ⟨done, t, rest, rfl, hdone, hstep⟩ := exists_step_of_run hrun
      refine .inl ⟨done.length, t, m.scope, m.scope, failsAt_iff.2 ⟨?_, rfl, m.stack, ?_, hstep⟩⟩
      · rw [List.getElem?_append_right (Nat.le_refl _), Nat.sub_self]
        rfl
      · rw [List.take_left]
        exact hdone
  · rintro (⟨k, t, before, after, h⟩ | ⟨m, hrun, hresult⟩)
    · rw [h.evaluate_self]
    · rw [evaluate, hrun]
      exact mapError_failure_iff.2 hresult

/--
The first token that fails decides. It is an operator, it leaves the scope as it finds it, which is
as an evaluation of the tokens before it leaves it, and an evaluation ends with its failure and this
scope, whatever is behind it.
-/
theorem evaluate_of_failsAt (h : FailsAt actions scope ts k t e before after) :
    t.isOperator = true ∧
      (e.kind = .stackUnderflow ∨ e.kind = .unboundSymbol ∨ e.kind = .invalidOperand) ∧
      after = before ∧ before = (evaluate actions scope (ts.take k)).2 ∧
      evaluate actions scope ts = (.error (.failure e), after) ∧
      ∀ more, evaluate actions scope (ts.take (k + 1) ++ more) = (.error (.failure e), after) := by
  obtain ⟨_, rfl, stack, hrun, hstep⟩ := failsAt_iff.1 h
  obtain ⟨hoperator, hkind⟩ := step_eq_error hstep
  refine ⟨hoperator, ?_, rfl, ?_, h.evaluate_self, h.evaluate_eq⟩
  · rcases hkind with (hkind | hkind) | ⟨rfl, _⟩
    · exact .inr (.inl hkind)
    · exact .inr (.inr hkind)
    · exact .inl rfl
  · rw [evaluate_snd, hrun]

/-- The program of `a = 1, k = a, a = 2`. -/
def interrupted : List Token :=
  [.ofSymbol "a" 0, .ofNumber "1" 1 4, .ofOperator .assign 2, .ofSymbol "k" 7, .ofSymbol "a" 11,
    .ofOperator .assign 9, .ofOperator .comma 5, .ofSymbol "a" 14, .ofNumber "2" 2 18,
    .ofOperator .assign 16, .ofOperator .comma 12]

def constantK : Scope Float := { constants := Bindings.empty.insert "k" 7 }

/-- The second assignment fails, so `a` stays 1, also in front of any other continuation. -/
theorem evaluate_of_failsAt_constant :
    ∃ s : Scope Float, s.find? "a" = some 1 ∧
      FailsAt .standard constantK interrupted 5 (.ofOperator .assign 9)
        (.constant (.ofSymbol "k" 7)) s s ∧
      evaluate .standard constantK interrupted =
        (.error (.failure (.constant (.ofSymbol "k" 7))), s) ∧
      ∀ more, evaluate .standard constantK (interrupted.take 6 ++ more) =
        (.error (.failure (.constant (.ofSymbol "k" 7))), s) := by
  have h : FailsAt .standard constantK interrupted 5 (.ofOperator .assign 9)
      (.constant (.ofSymbol "k" 7)) ⟨Bindings.empty.insert "a" 1, Bindings.empty.insert "k" 7⟩
      ⟨Bindings.empty.insert "a" 1, Bindings.empty.insert "k" 7⟩ := ⟨rfl, _, rfl, rfl⟩
  obtain ⟨_, _, _, _, hevaluate, hmore⟩ := evaluate_of_failsAt h
  exact ⟨_, rfl, h, hevaluate, hmore⟩

end Calculator.Evaluation
