import Calculator.Evaluation
import Calculator.Proofs.Tree
import Calculator.Result

/-!
# What a tree computes

An `Effect` reads and writes a scope and may halt; what was written before stays. `operandOf`
computes a tree from its subtrees: a leaf stays the token that it is, and an operator asks for
numbers only after its operands are computed. `valueOf` asks for the number of the whole.

`run_postorder`: above any stack, the machine ends as the computation does. Under a complete table
no run of consistent tokens ends in a fault (`evaluate_ne_fault`).
-/

namespace Calculator.Evaluation

abbrev Effect (α : Type) := ExceptT Halt (StateM (Scope Float)) α

namespace Effect

variable {α β : Type} (scope : Scope Float)

def on (c : Effect α) : Except Halt α × Scope Float := (c.run.run scope).run

/-- The number of an operand in the scope as it is now. -/
def number (operator : Option Token) (x : Operand) : Effect Float := do
  match resolve (← get) operator x with
  | .ok x => return x
  | .error e => throw (.failure e)

def bindTo (operator : Token) (target : Operand) (x : Float) : Effect Unit := do
  match assign (← get) operator target x with
  | .ok scope => set scope
  | .error e => throw (.failure e)

theorem on_bind (c : Effect α) (f : α → Effect β) :
    on scope (c >>= f) =
      match on scope c with
      | (.ok a, s) => on s (f a)
      | (.error h, s) => (.error h, s) := by
  simp only [on, ExceptT.run_bind, StateT.run_bind, Id.run_bind]
  rcases (c.run.run scope).run with ⟨_ | a, s⟩ <;> rfl

theorem on_get_bind (f : Scope Float → Effect β) : on scope (get >>= f) = on scope (f scope) :=
  rfl

theorem on_ofExcept_bind (x : Except Halt α) (f : α → Effect β) :
    on scope (ofExcept x >>= f) =
      match x with
      | .ok a => on scope (f a)
      | .error h => (.error h, scope) := by
  cases x <;> rfl

theorem on_number (operator : Option Token) (x : Operand) :
    on scope (number operator x) = ((resolve scope operator x).mapError .failure, scope) := by
  rw [number, on_get_bind]
  cases resolve scope operator x <;> rfl

theorem on_number_bind (operator : Option Token) (x : Operand) (f : Float → Effect β) :
    on scope (number operator x >>= f) =
      match resolve scope operator x with
      | .ok x => on scope (f x)
      | .error e => (.error (.failure e), scope) := by
  rw [on_bind, on_number]
  cases resolve scope operator x <;> rfl

theorem on_bindTo_bind (operator : Token) (target : Operand) (x : Float)
    (f : Unit → Effect β) :
    on scope (bindTo operator target x >>= f) =
      match assign scope operator target x with
      | .ok s => on s (f ())
      | .error e => (.error (.failure e), scope) := by
  rw [on_bind, bindTo, on_get_bind]
  cases assign scope operator target x <;> rfl

end Effect

open Effect

variable {actions : ActionTable}

/-! ## Trees -/

def prefixed (actions : ActionTable) (t : OperatorToken 1) (x : Operand) :
    Effect Operand := do
  let x ← number t.token x
  return .number (← ofExcept (applyUnary actions t.operator x))

/-- An assignment wants a number on the right and a name on the left, others two numbers. -/
def combined (actions : ActionTable) (t : OperatorToken 2) (left right : Operand) :
    Effect Operand := do
  if t.operator = .assign then
    let x ← number t.token right
    bindTo t.token left x
    return .number x
  else
    let x ← number t.token left
    let y ← number t.token right
    return .number (← ofExcept (applyBinary actions t.operator x y))

def operandOf (actions : ActionTable) : Tree → Effect Operand
  | .leaf t => return .token t.token
  | .unary t a => do prefixed actions t (← operandOf actions a)
  | .binary t a b => do
    let left ← operandOf actions a
    let right ← operandOf actions b
    combined actions t left right

def valueOf (actions : ActionTable) (e : Tree) : Effect Float := do
  number none (← operandOf actions e)

/-! ## Steps on tokens of a tree -/

theorem step_operand (t : OperandToken) (m : Machine) :
    step actions m t.token = .ok { m with stack := .token t.token :: m.stack } := by
  simp [step, t.isOperand]

theorem step_operator {n : Nat} (t : OperatorToken (n + 1)) (m : Machine) :
    step actions m t.token = execute actions m t.token t.operator := by
  have ht := Token.operator_eq_ok_iff.2 (Token.operator?_of_isA t.isA)
  simp [step, t.isOperator, ht, t.isGrouping]

/-- The machine after a step. One that halts leaves it alone. -/
def after (m : Machine) : Except Halt Machine → Option Halt × Machine
  | .ok m' => (none, m')
  | .error h => (some h, m)

theorem run_single (m : Machine) (t : Token) :
    run actions m [t] = after m (step actions m t) := by
  rw [run]
  cases step actions m t <;> rfl

/-- A run ends as a computation does: with its operand on top of the stack, or halted. -/
def EndsAs (r : Except Halt Operand × Scope Float) (stack : List Operand) :
    Option Halt × Machine → Prop
  | (none, m) => ∃ x, r = (.ok x, m.scope) ∧ m.stack = x :: stack
  | (some h, m) => r = (.error h, m.scope)

section

variable {m : Machine} {stack : List Operand}

theorem EndsAs.number {operator : Option Token} {x : Operand} {f : Float → Effect Operand}
    {g : Float → Except Halt Machine}
    (h : ∀ v, EndsAs (on m.scope (f v)) stack (after m (g v))) :
    EndsAs (on m.scope (Effect.number operator x >>= f)) stack
      (after m ((resolve m.scope operator x).mapError .failure >>= g)) := by
  rw [on_number_bind, Result.mapError_bind]
  cases resolve m.scope operator x with
  | error e => rfl
  | ok v => exact h v

theorem EndsAs.bindTo {operator : Token} {target : Operand} {x : Float}
    {f : Unit → Effect Operand} {g : Scope Float → Except Halt Machine}
    (h : ∀ s, EndsAs (on s (f ())) stack (after m (g s))) :
    EndsAs (on m.scope (Effect.bindTo operator target x >>= f)) stack
      (after m ((assign m.scope operator target x).mapError .failure >>= g)) := by
  rw [on_bindTo_bind, Result.mapError_bind]
  cases assign m.scope operator target x with
  | error e => rfl
  | ok s => exact h s

theorem EndsAs.ofExcept {x : Except Halt Float} {f : Float → Effect Operand}
    {g : Float → Except Halt Machine}
    (h : ∀ v, EndsAs (on m.scope (f v)) stack (after m (g v))) :
    EndsAs (on m.scope ((MonadExcept.ofExcept x : Effect Float) >>= f)) stack (after m (x >>= g)) := by
  rw [on_ofExcept_bind]
  cases x with
  | error e => rfl
  | ok v => exact h v

end

theorem EndsAs.bind {c : Effect Operand} {f : Operand → Effect Operand} {m : Machine}
    {scope : Scope Float} {stack stack' : List Operand} {ts us : List Token}
    (hc : EndsAs (on scope c) stack (run actions m ts))
    (hf : ∀ x s, EndsAs (on s (f x)) stack' (run actions ⟨x :: stack, s⟩ us)) :
    EndsAs (on scope (c >>= f)) stack' (run actions m (ts ++ us)) := by
  rw [run_append, on_bind]
  rcases hrun : run actions m ts with ⟨_ | h, m'⟩ <;> rw [hrun] at hc
  · obtain ⟨x, hx, hstack⟩ := hc
    have := hf x m'.scope
    rw [← hstack] at this
    rw [hx]
    exact this
  · rw [show on scope c = (.error h, m'.scope) from hc]
    rfl

theorem run_prefixed (t : OperatorToken 1) (x : Operand) (stack : List Operand)
    (scope : Scope Float) :
    EndsAs (on scope (prefixed actions t x)) stack (run actions ⟨x :: stack, scope⟩ [t.token]) := by
  rw [run_single, step_operator, prefixed]
  simp only [execute, t.arity_eq]
  refine @EndsAs.number ⟨x :: stack, scope⟩ _ _ _ _ _ fun v => .ofExcept fun w => ?_
  exact ⟨_, rfl, rfl⟩

theorem run_combined (t : OperatorToken 2) (left right : Operand) (stack : List Operand)
    (scope : Scope Float) :
    EndsAs (on scope (combined actions t left right)) stack
      (run actions ⟨right :: left :: stack, scope⟩ [t.token]) := by
  rw [run_single, step_operator, combined]
  simp only [execute, t.arity_eq]
  split
  · refine @EndsAs.number ⟨right :: left :: stack, scope⟩ _ _ _ _ _ fun v => .bindTo fun s => ?_
    exact ⟨_, rfl, rfl⟩
  · refine @EndsAs.number ⟨right :: left :: stack, scope⟩ _ _ _ _ _ fun v =>
      .number fun w => .ofExcept fun z => ?_
    exact ⟨_, rfl, rfl⟩

theorem run_postorder (e : Tree) (stack : List Operand) (scope : Scope Float) :
    EndsAs (on scope (operandOf actions e)) stack (run actions ⟨stack, scope⟩ e.postorder) := by
  induction e generalizing stack scope with
  | leaf t =>
    rw [Tree.postorder, run_single, step_operand]
    exact ⟨_, rfl, rfl⟩
  | unary t a ih => exact (ih stack scope).bind fun x s => run_prefixed t x stack s
  | binary t a b iha ihb =>
    rw [Tree.postorder, List.append_assoc]
    refine (iha stack scope).bind fun x s => ?_
    exact (ihb (x :: stack) s).bind fun y s => run_combined t x y stack s

theorem evaluate_eq_valueOf (e : Tree) (scope : Scope Float) :
    evaluate actions scope e.postorder = on scope (valueOf actions e) := by
  have hends : EndsAs (on scope (operandOf actions e)) [] (run actions { scope } e.postorder) :=
    run_postorder e [] scope
  rw [evaluate, valueOf, on_bind]
  rcases hrun : run actions { scope } e.postorder with ⟨_ | h, m⟩ <;> rw [hrun] at hends
  · obtain ⟨x, hx, hstack⟩ := hends
    rw [hx]
    simp [result, hstack, on_number]
  · rw [show on scope (operandOf actions e) = (.error h, m.scope) from hends]

/-! ## Faults -/

theorem mapError_failure_ne_fault {α : Type} {x : Except Failure α} {f : Fault} :
    x.mapError Halt.failure ≠ .error (.fault f) := by
  rw [Ne, Result.mapError_eq_error_iff]
  rintro ⟨d, -, hd⟩
  cases hd

/-- The operands on top of the stack, the last one first, have the given numbers. -/
structure Supplied (m : Machine) (t : Token) (n : Nat) (xs : List Float) : Prop where
  fed : n ≤ m.stack.length
  numbers : (m.stack.take n).reverse.map (resolve m.scope (some t)) = xs.map .ok

theorem Supplied.length {m : Machine} {t : Token} {n : Nat} {xs : List Float}
    (h : Supplied m t n xs) : xs.length = n := by
  simpa [Nat.min_eq_left h.fed] using (congrArg List.length h.numbers).symm

/-- An operator ends in a fault only by the call of its action on the numbers of its operands. -/
theorem apply_of_execute_fault {m : Machine} {t : Token} {o : Operator} {f : Fault}
    (h : execute actions m t o = .error (.fault f)) :
    o.isComputing = true ∧ ∃ xs, Supplied m t o.arity xs ∧
      apply actions o xs = .error (.fault f) := by
  unfold execute at h
  split at h
  · next a rest ho hstack =>
    have hcomputing : o.isComputing = true := by cases o <;> first | rfl | cases ho
    rcases Result.bind_eq_error_iff.1 h with h | ⟨x, hx, h⟩
    · exact absurd h mapError_failure_ne_fault
    · rcases Result.bind_eq_error_iff.1 h with h | ⟨y, -, h⟩
      · refine ⟨hcomputing, [x], ⟨by simp [hstack, ho], ?_⟩, h⟩
        simp [hstack, ho, Result.mapError_eq_ok_iff.1 hx]
      · cases h
  · next right left rest ho hstack =>
    split at h
    · rcases Result.bind_eq_error_iff.1 h with h | ⟨x, -, h⟩
      · exact absurd h mapError_failure_ne_fault
      · rcases Result.bind_eq_error_iff.1 h with h | ⟨s, -, h⟩
        · exact absurd h mapError_failure_ne_fault
        · cases h
    · next hassign =>
      have hcomputing : o.isComputing = true := by
        cases o <;> first | rfl | exact absurd rfl hassign | cases ho
      rcases Result.bind_eq_error_iff.1 h with h | ⟨x, hx, h⟩
      · exact absurd h mapError_failure_ne_fault
      · rcases Result.bind_eq_error_iff.1 h with h | ⟨y, hy, h⟩
        · exact absurd h mapError_failure_ne_fault
        · rcases Result.bind_eq_error_iff.1 h with h | ⟨z, -, h⟩
          · refine ⟨hcomputing, [x, y], ⟨by simp [hstack, ho], ?_⟩, h⟩
            simp [hstack, ho, Result.mapError_eq_ok_iff.1 hx, Result.mapError_eq_ok_iff.1 hy]
          · cases h
  · cases h

theorem execute_ne_fault (complete : actions.Complete) (m : Machine) (t : Token) (o : Operator)
    (f : Fault) : execute actions m t o ≠ .error (.fault f) := by
  intro h
  obtain ⟨hcomputing, xs, hxs, happly⟩ := apply_of_execute_fault h
  obtain ⟨a, ha, harity⟩ := complete o hcomputing
  have hne : a.arity ≠ 0 := harity ▸ Operator.arity_ne_zero hcomputing
  obtain ⟨y, hy⟩ := Action.total_arity hne xs (hxs.length.trans harity.symm)
  rw [apply, ha] at happly
  simp [hy] at happly

theorem step_ne_fault (complete : actions.Complete) (m : Machine) {t : Token}
    (ht : t.Consistent) (f : Fault) : step actions m t ≠ .error (.fault f) := by
  unfold step
  split
  · next hop =>
    obtain ⟨o, ho⟩ := Option.isSome_iff_exists.1 (ht hop)
    rw [Token.operator, ho]
    dsimp only
    split
    · simp
    · exact execute_ne_fault complete m t o f
  · simp

theorem run_ne_fault (complete : actions.Complete) {ts : List Token}
    (hts : ∀ t ∈ ts, t.Consistent) (m : Machine) (f : Fault) :
    (run actions m ts).1 ≠ some (.fault f) := by
  induction ts generalizing m with
  | nil => simp [run]
  | cons t ts ih =>
    rw [run]
    split
    · exact ih (fun u hu => hts u (List.mem_cons_of_mem _ hu)) _
    · next h hstep =>
      intro heq
      obtain rfl := Option.some.inj heq
      exact step_ne_fault complete m (hts t List.mem_cons_self) f hstep

theorem evaluate_ne_fault (complete : actions.Complete) {ts : List Token}
    (hts : ∀ t ∈ ts, t.Consistent) (scope : Scope Float) (f : Fault) :
    (evaluate actions scope ts).1 ≠ .error (.fault f) := by
  have hne := run_ne_fault complete hts { scope } f
  rw [evaluate]
  rcases hrun : run actions { scope } ts with ⟨_ | h, m⟩ <;> rw [hrun] at hne
  · cases hres : result m <;> simp [hres]
  · intro heq
    cases heq
    exact hne rfl

/--
The machine computes what the tree means: the same number or the same failure, and the same scope.
A complete table leaves no other end.
-/
theorem evaluate_postorder (actions : ActionTable) (scope : Scope Float) (e : Tree) :
    evaluate actions scope e.postorder = (valueOf actions e).on scope ∧
      (actions.Complete →
        ∃ r : Except Failure Float, (evaluate actions scope e.postorder).1 = r.mapError .failure) := by
  refine ⟨evaluate_eq_valueOf e scope, fun complete => ?_⟩
  have hne : ∀ f, (evaluate actions scope e.postorder).1 ≠ .error (.fault f) :=
    evaluate_ne_fault complete (fun t => Tree.consistent_of_mem_postorder) scope
  rcases hres : (evaluate actions scope e.postorder).1 with (e | f) | x
  · exact ⟨.error e, rfl⟩
  · exact absurd hres (hne f)
  · exact ⟨.ok x, rfl⟩

/-- In `x + (x = 5)` the left operand is read after the assignment. -/
theorem evaluate_late_read :
    ActionTable.standard.Complete ∧
      evaluate .standard {} [.ofSymbol "x" 0, .ofSymbol "x" 5, .ofNumber "5" 5.0 9,
        .ofOperator .assign 7, .ofOperator .add 2] =
          (.ok (5.0 + 5.0), ⟨Bindings.empty.insert "x" 5.0, .empty⟩) ∧
      ∃ r : Except Failure Float, (evaluate .standard {} [.ofSymbol "x" 0, .ofSymbol "x" 5,
        .ofNumber "5" 5.0 9, .ofOperator .assign 7, .ofOperator .add 2]).1 =
          r.mapError .failure := by
  have h := evaluate_postorder .standard {}
    (.binary ⟨.ofOperator .add 2, .add, rfl, rfl⟩ (.leaf ⟨.ofSymbol "x" 0, rfl⟩)
      (.binary ⟨.ofOperator .assign 7, .assign, rfl, rfl⟩ (.leaf ⟨.ofSymbol "x" 5, rfl⟩)
        (.leaf ⟨.ofNumber "5" 5.0 9, rfl⟩)))
  exact ⟨ActionTable.standard_complete, h.1.trans rfl, h.2 ActionTable.standard_complete⟩

end Calculator.Evaluation
