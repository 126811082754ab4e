import Calculator.Evaluation
import Calculator.Proofs.Tree
import Calculator.Result

/-!
# Programs that end well

`step_cases` lists what a step that succeeds can do. The machine takes and leaves as many operands
as `Tree.shift` takes and leaves trees, so a program that has a value is the postorder of a tree.
-/

namespace Calculator.Evaluation

variable {actions : ActionTable} {m m' : Machine}

theorem execute_cases {t : Token} {o : Operator} (h : execute actions m t o = .ok m') :
    (o.arity = 1 ∧ ∃ a rest x y, m.stack = a :: rest ∧ resolve m.scope t a = .ok x ∧
      applyUnary actions o x = .ok y ∧ m' = ⟨.number y :: rest, m.scope⟩) ∨
    (o.arity = 2 ∧ ∃ left right rest, m.stack = right :: left :: rest ∧
      ((o = .assign ∧ ∃ x scope, resolve m.scope t right = .ok x ∧
        assign m.scope t left x = .ok scope ∧ m' = ⟨.number x :: rest, scope⟩) ∨
      (o ≠ .assign ∧ ∃ x y z, resolve m.scope t left = .ok x ∧ resolve m.scope t right = .ok y ∧
        applyBinary actions o x y = .ok z ∧ m' = ⟨.number z :: rest, m.scope⟩))) := by
  unfold execute at h
  split at h
  · next a rest ho hstack =>
    obtain ⟨x, hx, h⟩ := Result.bind_eq_ok_iff.1 h
    obtain ⟨y, hy, h⟩ := Result.bind_eq_ok_iff.1 h
    cases h
    exact .inl ⟨ho, a, rest, x, y, hstack, Result.mapError_eq_ok_iff.1 hx, hy, rfl⟩
  · next right left rest ho hstack =>
    refine .inr ⟨ho, left, right, rest, hstack, ?_⟩
    split at h
    · next hassign =>
      obtain ⟨x, hx, h⟩ := Result.bind_eq_ok_iff.1 h
      obtain ⟨scope, hscope, h⟩ := Result.bind_eq_ok_iff.1 h
      cases h
      exact .inl ⟨hassign, x, scope, Result.mapError_eq_ok_iff.1 hx,
        Result.mapError_eq_ok_iff.1 hscope, rfl⟩
    · next hassign =>
      obtain ⟨x, hx, h⟩ := Result.bind_eq_ok_iff.1 h
      obtain ⟨y, hy, h⟩ := Result.bind_eq_ok_iff.1 h
      obtain ⟨z, hz, h⟩ := Result.bind_eq_ok_iff.1 h
      cases h
      exact .inr ⟨hassign, x, y, z, Result.mapError_eq_ok_iff.1 hx,
        Result.mapError_eq_ok_iff.1 hy, hz, rfl⟩
  · cases h

theorem step_cases {t : Token} (h : step actions m t = .ok m') :
    (∃ u : OperandToken, u.token = t ∧ m' = { m with stack := .token t :: m.stack }) ∨
    (∃ (n : Nat) (u : OperatorToken n), u.token = t ∧
      execute actions m t u.operator = .ok m') := by
  unfold step at h
  split at h
  · next hop =>
    split at h
    · cases h
    · next o ho =>
      split at h
      · cases h
      · have hisA : t.isA o = true := by
          unfold Token.operator at ho
          split at ho
          · next p hp =>
            cases ho
            simp [Token.isA, hop, hp]
          · cases ho
        exact .inr ⟨o.arity, ⟨t, o, hisA, rfl⟩, rfl, h⟩
  · next hop =>
    cases h
    exact .inl ⟨⟨t, by simpa using hop⟩, rfl, rfl⟩

theorem mem_stack_of_step {t u : Token} (h : step actions m t = .ok m')
    (hu : Operand.token u ∈ m'.stack) :
    u = t ∧ t.isOperator = false ∨ Operand.token u ∈ m.stack := by
  have below {y : Float} {rest : List Operand} (hrest : ∀ o ∈ rest, o ∈ m.stack)
      (hu : Operand.token u ∈ Operand.number y :: rest) : Operand.token u ∈ m.stack := by
    rcases List.mem_cons.1 hu with hu | hu
    · cases hu
    · exact hrest _ hu
  rcases step_cases h with ⟨v, rfl, rfl⟩ | ⟨k, v, rfl, h⟩
  · rcases List.mem_cons.1 hu with hu | hu
    · cases hu
      exact .inl ⟨rfl, v.isOperand⟩
    · exact .inr hu
  · rcases execute_cases h with ⟨_, a, rest, x, y, hm, _, _, rfl⟩ |
      ⟨_, left, right, rest, hm, h⟩
    · exact .inr (below (fun o ho => hm ▸ List.mem_cons_of_mem _ ho) hu)
    · have hrest : ∀ o ∈ rest, o ∈ m.stack := fun o ho =>
        hm ▸ List.mem_cons_of_mem _ (List.mem_cons_of_mem _ ho)
      rcases h with ⟨_, x, scope, _, _, rfl⟩ | ⟨_, x, y, z, _, _, _, rfl⟩
      · exact .inr (below hrest hu)
      · exact .inr (below hrest hu)

/-- A run that halts does so at a token, on the machine that the tokens before it leave. -/
theorem exists_step_of_run {ts : List Token} {halt : Halt}
    (h : run actions m ts = (some halt, m')) :
    ∃ done t rest, ts = done ++ t :: rest ∧ run actions m done = (none, m') ∧
      step actions m' t = .error halt := by
  induction ts generalizing m with
  | nil => cases h
  | cons t ts ih =>
    rw [run] at h
    split at h
    · next mid hstep =>
      obtain ⟨done, u, rest, rfl, hrun, hhalt⟩ := ih h
      refine ⟨t :: done, u, rest, rfl, ?_, hhalt⟩
      rw [run, hstep]
      exact hrun
    · next hstep =>
      cases h
      exact ⟨[], t, ts, rfl, rfl, hstep⟩

/-- Operands beside the trees they were computed from: one that is still a token is a leaf. -/
inductive Follows : List Operand → List Tree → Prop
  | nil : Follows [] []
  | token {xs : List Operand} {es : List Tree} (t : OperandToken) (h : Follows xs es) :
    Follows (.token t.token :: xs) (.leaf t :: es)
  | number {xs : List Operand} {es : List Tree} (x : Float) (e : Tree) (h : Follows xs es) :
    Follows (.number x :: xs) (e :: es)

namespace Follows

variable {x : Operand} {xs : List Operand} {stack : List Tree}

theorem length_eq (h : Follows xs stack) : stack.length = xs.length := by
  induction h with
  | nil => rfl
  | token t _ ih | number x e _ ih => simp [ih]

theorem exists_cons (h : Follows (x :: xs) stack) : ∃ e es, stack = e :: es ∧ Follows xs es := by
  cases h with
  | token t h => exact ⟨_, _, rfl, h⟩
  | number x e h => exact ⟨_, _, rfl, h⟩

end Follows

theorem exists_shift {t : Token} {stack : List Tree} (h : step actions m t = .ok m')
    (hm : Follows m.stack stack) :
    ∃ stack', Tree.shift stack t = some stack' ∧ Follows m'.stack stack' := by
  rcases step_cases h with ⟨u, rfl, rfl⟩ | ⟨n, u, rfl, h⟩
  · exact ⟨_, Tree.shift_leaf stack u, .token u hm⟩
  · rcases execute_cases h with ⟨ho, a, rest, x, y, hstack, _, _, rfl⟩ |
      ⟨ho, left, right, rest, hstack, h⟩
    · obtain rfl : n = 1 := u.arity_eq.symm.trans ho
      rw [hstack] at hm
      obtain ⟨e, es, rfl, hrest⟩ := hm.exists_cons
      exact ⟨_, Tree.shift_unary e es u, .number y _ hrest⟩
    · obtain rfl : n = 2 := u.arity_eq.symm.trans ho
      rw [hstack] at hm
      obtain ⟨f, fs, rfl, hleft⟩ := hm.exists_cons
      obtain ⟨e, es, rfl, hrest⟩ := hleft.exists_cons
      refine ⟨_, Tree.shift_binary e f es u, ?_⟩
      rcases h with ⟨_, x, scope, _, _, rfl⟩ | ⟨_, x, y, z, _, _, _, rfl⟩
      · exact .number x _ hrest
      · exact .number z _ hrest

theorem exists_foldlM_shift {ts : List Token} {stack : List Tree}
    (h : run actions m ts = (none, m')) (hm : Follows m.stack stack) :
    ∃ stack', ts.foldlM Tree.shift stack = some stack' ∧ Follows m'.stack stack' := by
  induction ts generalizing m stack with
  | nil =>
    cases h
    exact ⟨stack, rfl, hm⟩
  | cons t ts ih =>
    rw [run] at h
    split at h
    · next mid hmid =>
      obtain ⟨stack', hstack, hmid⟩ := exists_shift hmid hm
      obtain ⟨last, hlast, hm'⟩ := ih h hmid
      refine ⟨last, ?_, hm'⟩
      rw [List.foldlM_cons, hstack]
      exact hlast
    · cases h

/-- A program with a value is the postorder of a tree. -/
theorem exists_tree_of_evaluate {scope : Scope Float} {ts : List Token} {x : Float}
    (h : (evaluate actions scope ts).1 = .ok x) : ∃ e : Tree, ts = e.postorder := by
  unfold evaluate at h
  split at h
  · cases h
  · next m hrun =>
    obtain ⟨stack, hstack, hm⟩ := exists_foldlM_shift hrun .nil
    have hresult : result m = .ok x := Result.mapError_eq_ok_iff.1 h
    have hone : m.stack.length = 1 := by
      unfold result at hresult
      split at hresult
      · next hm => rw [hm]; rfl
      · cases hresult
    obtain ⟨e, rfl⟩ := List.length_eq_one_iff.1 (hm.length_eq.trans hone)
    refine ⟨e, Tree.ofPostorder?_eq_some_iff.1 ?_⟩
    rw [Tree.ofPostorder?, hstack]

end Calculator.Evaluation
