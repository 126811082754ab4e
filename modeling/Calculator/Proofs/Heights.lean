import Calculator.Proofs.Outcomes
import Mathlib.Algebra.Ring.Int.Defs
import Mathlib.Logic.ExistsUnique

/-!
# Stack heights

How many operands lie on the stack can be counted on the tokens: an operand adds one, an operator of
`n` operands takes away `n - 1` (`height`). A list is `Fed` if every operator in it finds as many
operands as it takes. Trees are piled up in the same way when a postorder is read back, so a list is
a postorder if and only if it is fed and one operand is left of it (`exists_postorder_iff`).

An evaluation may stop earlier, at a name without a value or an assignment that is refused. As long
as it goes on it keeps to the heights, and what it says about the stack is about them
(`evaluate_by_height`).
-/

namespace Calculator

namespace Token

def arity (t : Token) : Nat := (t.operator?.map Operator.arity).getD 0

/-- The operands that are left of those among the tokens when the operators have taken theirs. -/
def height (ts : List Token) : Int :=
  ts.countP (!·.isOperator) - ((ts.filter (·.isOperator)).map fun t => (t.arity : Int) - 1).sum

/-- Every operator finds as many operands as it takes. -/
def Fed (ts : List Token) : Prop :=
  ∀ before t rest, ts = before ++ t :: rest → t.isOperator = true → t.arity ≤ height before

/-- The token behind `before` is the first operator that finds fewer operands than it takes. -/
structure FirstUnfed (ts before : List Token) (t : Token) : Prop where
  split : ∃ rest, ts = before ++ t :: rest
  isOperator : t.isOperator = true
  fed : Fed before
  short : height before < t.arity

theorem FirstUnfed.not_fed {ts before : List Token} {t : Token} (h : FirstUnfed ts before t) :
    ¬ Fed ts := by
  obtain ⟨⟨rest, hsplit⟩, hop, _, hshort⟩ := h
  intro hfed
  have := hfed before t rest hsplit hop
  omega

/-! ## Counts -/

@[simp] theorem height_nil : height [] = 0 := rfl

theorem height_append (ts us : List Token) : height (ts ++ us) = height ts + height us := by
  simp only [height, List.countP_append, List.filter_append, List.map_append,
    List.sum_append_int, Int.natCast_add]
  omega

theorem height_operand {t : Token} (ht : t.isOperator = false) : height [t] = 1 := by
  simp [height, ht]

theorem height_operator {t : Token} (ht : t.isOperator = true) : height [t] = 1 - t.arity := by
  have hcount : [t].countP (!·.isOperator) = 0 := by simp [ht]
  have htaken : (([t].filter (·.isOperator)).map fun t => (t.arity : Int) - 1).sum =
      t.arity - 1 := by
    simp [ht]
  rw [height, hcount, htaken]
  omega

theorem height_cons (t : Token) (ts : List Token) : height (t :: ts) = height [t] + height ts :=
  height_append [t] ts

theorem arity_of_isA {t : Token} {o : Operator} (ht : t.isA o = true) : t.arity = o.arity := by
  rw [arity, operator?_of_isA ht]
  rfl

end Token

theorem Token.arity_of_operator {t : Token} {o : Operator} (h : t.operator = .ok o) :
    t.arity = o.arity := by
  rw [arity, operator_eq_ok_iff.1 h]
  rfl

theorem OperatorToken.arity_token {n : Nat} (u : OperatorToken n) : u.token.arity = n :=
  (Token.arity_of_isA u.isA).trans u.arity_eq

/-! ## Trees -/

namespace Tree

open Token

variable {stack stack' : List Tree} {t : Token} {ts : List Token}

theorem length_shift (h : shift stack t = some stack') :
    stack'.length = stack.length + height [t] ∧ (t.isOperator = true → t.arity ≤ stack.length) := by
  rcases shift_cases h with ⟨u, rfl, rfl⟩ | ⟨u, rfl, a, rest, rfl, rfl⟩ |
    ⟨u, rfl, a, b, rest, rfl, rfl⟩
  · rw [height_operand u.isOperand, u.isOperand, List.length_cons]
    exact ⟨by omega, nofun⟩
  · rw [height_operator u.isOperator, u.arity_token, List.length_cons, List.length_cons]
    omega
  · rw [height_operator u.isOperator, u.arity_token]
    simp only [List.length_cons]
    omega

theorem length_foldlM_shift (h : ts.foldlM shift stack = some stack') :
    stack'.length = stack.length + height ts := by
  induction ts generalizing stack with
  | nil =>
    cases h
    simp
  | cons t ts ih =>
    obtain ⟨mid, hmid, h⟩ := Option.bind_eq_some_iff.1 h
    have hfirst := (length_shift hmid).1
    have hrest := ih h
    rw [height_cons]
    omega

theorem exists_shift (ht : t.Consistent) (hparenthesis : t.isParenthesis = false)
    (h : t.isOperator = true → t.arity ≤ stack.length) : ∃ stack', shift stack t = some stack' := by
  cases hop : t.isOperator with
  | false => exact ⟨_, shift_leaf stack ⟨t, hop⟩⟩
  | true =>
    obtain ⟨o, ho⟩ := Option.isSome_iff_exists.1 (ht hop)
    have hisA : t.isA o = true := by simp [Token.isA, hop, ho]
    have hgrouping := Token.isGrouping_eq_false hisA hparenthesis
    have hlength := h hop
    rw [arity_of_isA hisA] at hlength
    have harity : o.arity = 1 ∨ o.arity = 2 := by
      cases o <;> simp_all [Operator.arity, Operator.isGrouping]
    rcases harity with ho | ho <;> rw [ho] at hlength
    · cases stack with
      | nil => simp at hlength
      | cons a rest => exact ⟨_, shift_unary a rest ⟨t, o, hisA, ho⟩⟩
    · rcases stack with _ | ⟨b, _ | ⟨a, rest⟩⟩
      · simp at hlength
      · simp at hlength
      · exact ⟨_, shift_binary a b rest ⟨t, o, hisA, ho⟩⟩

theorem arity_le_of_foldlM_shift (h : ts.foldlM shift stack = some stack')
    {before rest : List Token} (hts : ts = before ++ t :: rest) (ht : t.isOperator = true) :
    t.arity ≤ stack.length + height before := by
  rw [hts, List.foldlM_append] at h
  obtain ⟨mid, hmid, h⟩ := Option.bind_eq_some_iff.1 h
  obtain ⟨_, hnext, _⟩ := Option.bind_eq_some_iff.1 h
  have hlength := length_foldlM_shift hmid
  have harity := (length_shift hnext).2 ht
  omega

theorem fed_of_foldlM_shift (h : ts.foldlM shift [] = some stack') : Fed ts := by
  intro before t rest hts ht
  have := arity_le_of_foldlM_shift h hts ht
  rwa [List.length_nil, Int.natCast_zero, Int.zero_add] at this

theorem exists_foldlM_shift (hts : ∀ t ∈ ts, t.Consistent ∧ t.isParenthesis = false)
    (h : ∀ before t rest, ts = before ++ t :: rest → t.isOperator = true →
      t.arity ≤ stack.length + height before) : ∃ stack', ts.foldlM shift stack = some stack' := by
  induction ts generalizing stack with
  | nil => exact ⟨stack, rfl⟩
  | cons t ts ih =>
    obtain ⟨⟨ht, hparenthesis⟩, hts⟩ := List.forall_mem_cons.1 hts
    have hfirst : t.isOperator = true → t.arity ≤ stack.length := by
      intro hop
      have := h [] t ts rfl hop
      rwa [height_nil, Int.add_zero, Int.ofNat_le] at this
    obtain ⟨mid, hmid⟩ := exists_shift ht hparenthesis hfirst
    obtain ⟨stack', hrest⟩ := @ih mid hts fun before u rest hsplit hop => by
      have hheight := (length_shift hmid).1
      have := h (t :: before) u rest (by rw [hsplit, List.cons_append]) hop
      rw [height_cons] at this
      omega
    exact ⟨stack', by rw [List.foldlM_cons, hmid]; exact hrest⟩

/-- Counting tells which lists are postorders. -/
theorem exists_postorder_iff (hts : ∀ t ∈ ts, t.Consistent ∧ t.isParenthesis = false) :
    (∃! e : Tree, ts = e.postorder) ↔ Fed ts ∧ height ts = 1 := by
  constructor
  · rintro ⟨e, rfl, _⟩
    have h := foldlM_shift_postorder e []
    have hlength := length_foldlM_shift h
    simp only [List.length_cons, List.length_nil] at hlength
    exact ⟨fed_of_foldlM_shift h, by omega⟩
  · rintro ⟨hfed, hone⟩
    obtain ⟨stack, hstack⟩ := @exists_foldlM_shift [] ts hts fun before t rest hsplit hop => by
      have := hfed before t rest hsplit hop
      rwa [List.length_nil, Int.natCast_zero, Int.zero_add]
    have hlength := length_foldlM_shift hstack
    rw [List.length_nil] at hlength
    obtain ⟨e, rfl⟩ := List.length_eq_one_iff.1 (show stack.length = 1 by omega)
    have he : ts = e.postorder := ofPostorder?_eq_some_iff.1 (by rw [ofPostorder?, hstack])
    exact ⟨e, he, fun e' he' => postorder_injective (he'.symm.trans he)⟩

end Tree

/-! ## Failures about the stack -/

namespace Evaluation

open Token

variable {actions : ActionTable} {m m' : Machine} {t : Token} {ts : List Token} {e : Failure}
  {scope : Scope Float}

theorem kind_of_resolve {operator : Option Token} {x : Operand}
    (h : resolve scope operator x = .error e) :
    e.kind = .unboundSymbol ∨ e.kind = .invalidOperand := by
  cases x with
  | number y => cases h
  | token t =>
    unfold resolve at h
    dsimp only at h
    split at h
    · cases h
    · split at h <;> cases h
      exact .inl rfl
    · cases h
      exact .inr rfl

theorem kind_of_assign {target : Operand} {x : Float} (h : assign scope t target x = .error e) :
    e.kind = .invalidOperand := by
  rcases assign_eq_error h with ⟨_, rfl⟩ | ⟨u, _, _, _, rfl⟩ <;> rfl

theorem execute_eq_error {o : Operator} (h : execute actions m t o = .error (.failure e)) :
    (e.kind = .unboundSymbol ∨ e.kind = .invalidOperand) ∨
      e = .underflow t o.arity m.stack.length ∧
        (o.isGrouping = false → m.stack.length < o.arity) := by
  rcases execute_failure_cases h with ⟨x, _, hread⟩ | ⟨_, _, left, _, x, _, hassign⟩ | hunderflow
  · exact .inl (kind_of_resolve hread)
  · exact .inl (.inr (kind_of_assign hassign))
  · exact .inr hunderflow

theorem step_eq_error (h : step actions m t = .error (.failure e)) :
    t.isOperator = true ∧
      ((e.kind = .unboundSymbol ∨ e.kind = .invalidOperand) ∨
        e = .underflow t t.arity m.stack.length ∧ m.stack.length < t.arity) := by
  unfold step at h
  split at h
  · next hop =>
    refine ⟨hop, ?_⟩
    split at h
    · cases h
    · next o ho =>
      split at h
      · cases h
        exact .inl (.inr rfl)
      · next hgrouping =>
        rw [arity_of_operator ho]
        exact (execute_eq_error h).imp_right fun ⟨he, hlt⟩ => ⟨he, hlt (by simpa using hgrouping)⟩
  · cases h

theorem result_eq_error (h : result m = .error e) :
    (e.kind = .unboundSymbol ∨ e.kind = .invalidOperand) ∨
      m.stack.length ≠ 1 ∧ ∃ second, e = .leftover m.stack.length second := by
  unfold result at h
  split at h
  · exact .inl (kind_of_resolve h)
  · next hsingle =>
    cases h
    refine .inr ⟨fun hlength => ?_, _, rfl⟩
    obtain ⟨x, hx⟩ := List.length_eq_one_iff.1 hlength
    exact hsingle x hx

/-- A run keeps to the heights as long as it goes on. -/
theorem height_of_run (h : run actions { scope } ts = (none, m)) :
    Fed ts ∧ m.stack.length = height ts := by
  obtain ⟨stack, hstack, hm⟩ := exists_foldlM_shift h .nil
  have hlength := Tree.length_foldlM_shift hstack
  rw [hm.length_eq, List.length_nil] at hlength
  exact ⟨Tree.fed_of_foldlM_shift hstack, by omega⟩

theorem evaluate_eq_error (h : (evaluate actions scope ts).1 = .error (.failure e)) :
    (e.kind = .unboundSymbol ∨ e.kind = .invalidOperand) ∨
    (∃ before t, FirstUnfed ts before t ∧
      ∃ n : Nat, n = height before ∧ e = .underflow t t.arity n) ∨
    (Fed ts ∧ (run actions { scope } ts).1 = none ∧
      ∃ (n : Nat) (second : Option Token), n = height ts ∧ n ≠ 1 ∧ e = .leftover n second) := by
  unfold evaluate at h
  split at h
  · next halt m hrun =>
    cases h
    obtain ⟨before, t, rest, rfl, hbefore, hstep⟩ := exists_step_of_run hrun
    obtain ⟨hfed, hheight⟩ := height_of_run hbefore
    obtain ⟨hop, hoperand | ⟨rfl, hlt⟩⟩ := step_eq_error hstep
    · exact .inl hoperand
    · have hshort : height before < t.arity := by omega
      exact .inr (.inl ⟨before, t, ⟨⟨rest, rfl⟩, hop, hfed, hshort⟩, _, hheight, rfl⟩)
  · next m hrun =>
    obtain ⟨hfed, hheight⟩ := height_of_run hrun
    rcases result_eq_error (mapError_failure_iff.1 h) with hoperand | ⟨hne, second, rfl⟩
    · exact .inl hoperand
    · exact .inr (.inr ⟨hfed, by rw [hrun], _, second, hheight, hne, rfl⟩)

theorem exists_unfed (h : (evaluate actions scope ts).1 = .error (.failure e))
    (hkind : e.kind = .stackUnderflow) :
    ∃ before t, FirstUnfed ts before t ∧ ∃ n : Nat, n = height before ∧
      e = .underflow t t.arity n := by
  rcases evaluate_eq_error h with (hother | hother) | hunfed | ⟨_, _, n, second, _, _, rfl⟩
  · rw [hother] at hkind
    cases hkind
  · rw [hother] at hkind
    cases hkind
  · exact hunfed
  · cases hkind

theorem exists_leftover (h : (evaluate actions scope ts).1 = .error (.failure e))
    (hkind : e.kind = .malformedResult) :
    Fed ts ∧ (run actions { scope } ts).1 = none ∧
      ∃ (n : Nat) (second : Option Token), n = height ts ∧ n ≠ 1 ∧ e = .leftover n second := by
  rcases evaluate_eq_error h with (hother | hother) | ⟨before, t, _, n, _, rfl⟩ | hleft
  · rw [hother] at hkind
    cases hkind
  · rw [hother] at hkind
    cases hkind
  · cases hkind
  · exact hleft

theorem exists_result (complete : actions.Complete) (hts : ∀ t ∈ ts, t.Consistent)
    (scope : Scope Float) :
    ∃ r : Except Failure Float, (evaluate actions scope ts).1 = r.mapError .failure := by
  rcases hres : (evaluate actions scope ts).1 with (e | f) | x
  · exact ⟨.error e, rfl⟩
  · exact absurd hres (evaluate_ne_fault complete hts scope f)
  · exact ⟨.ok x, rfl⟩

/--
Whether operators and operands are a postorder can be counted, and an evaluation of them ends
accordingly. What has a value is the postorder of one tree, and a postorder fails neither for want
nor for excess of operands. Too few operands are reported of the first operator that finds too few,
a number other than one at the end only when all tokens are executed, and both messages tell the
height.
-/
theorem evaluate_by_height (complete : actions.Complete)
    (hts : ∀ t ∈ ts, t.Consistent ∧ t.isParenthesis = false) (scope : Scope Float) :
    ((∃! e : Tree, ts = e.postorder) ↔ Fed ts ∧ height ts = 1) ∧
    ∃ r : Except Failure Float, (evaluate actions scope ts).1 = r.mapError .failure ∧
      (∀ x, r = .ok x → ∃! e : Tree, ts = e.postorder) ∧
      (∀ e : Tree, ts = e.postorder → ∀ f, r = .error f →
        f.kind ≠ .stackUnderflow ∧ f.kind ≠ .malformedResult) ∧
      (∀ f, r = .error f → f.kind = .stackUnderflow → ∃ before t, FirstUnfed ts before t ∧
        f.token = some t ∧ ∃ n : Nat, n = height before ∧ f.message =
        s!"Stack underflow whilst executing operator '{t.text}' (expects {t.arity} args, got {n})") ∧
      (∀ f, r = .error f → f.kind = .malformedResult →
        Fed ts ∧ (run actions { scope } ts).1 = none ∧ ∃ n : Nat, n = height ts ∧ n ≠ 1 ∧
          f.message = s!"Expected one item to be in result stack, got {n}") := by
  have hiff := Tree.exists_postorder_iff hts
  have only {e : Tree} (he : ts = e.postorder) : ∃! e : Tree, ts = e.postorder :=
    ⟨e, he, fun e' he' => Tree.postorder_injective (he'.symm.trans he)⟩
  obtain ⟨r, hr⟩ := exists_result complete (fun t ht => (hts t ht).1) scope
  have fails {f : Failure} (hf : r = .error f) :
      (evaluate actions scope ts).1 = .error (.failure f) := by
    rw [hr, hf]
    rfl
  refine ⟨hiff, r, hr, fun x hx => ?_, fun e he f hf => ⟨fun hkind => ?_, fun hkind => ?_⟩,
    fun f hf hkind => ?_, fun f hf hkind => ?_⟩
  · obtain ⟨e, he⟩ := exists_tree_of_evaluate (hr.trans (congrArg _ hx))
    exact only he
  · obtain ⟨before, t, hfirst, _⟩ := exists_unfed (fails hf) hkind
    exact hfirst.not_fed (hiff.1 (only he)).1
  · obtain ⟨_, _, n, second, hn, hne, _⟩ := exists_leftover (fails hf) hkind
    have hone := (hiff.1 (only he)).2
    omega
  · obtain ⟨before, t, hfirst, n, hn, rfl⟩ := exists_unfed (fails hf) hkind
    exact ⟨before, t, hfirst, rfl, n, hn, rfl⟩
  · obtain ⟨hfed, hrun, n, second, hn, hne, rfl⟩ := exists_leftover (fails hf) hkind
    exact ⟨hfed, hrun, n, hn, hne, rfl⟩

/-- The postfix program `1 2 + * x`. -/
def lacking : List Token :=
  [.ofNumber "1" 1 0, .ofNumber "2" 2 2, .ofOperator .add 4, .ofOperator .mul 6, .ofSymbol "x" 8]

/-- The product finds the sum and no other operand. -/
theorem evaluate_by_height_lacking :
    ActionTable.standard.Complete ∧ (∀ t ∈ lacking, t.Consistent ∧ t.isParenthesis = false) ∧
      (evaluate .standard {} lacking).1 =
        .error (.failure (.underflow (.ofOperator .mul 6) 2 1)) ∧
      ∃ before, FirstUnfed lacking before (.ofOperator .mul 6) := by
  have hts : ∀ t ∈ lacking, t.Consistent ∧ t.isParenthesis = false := by
    unfold Token.Consistent
    decide
  have hfails : (evaluate .standard {} lacking).1 =
      .error (.failure (.underflow (.ofOperator .mul 6) 2 1)) := rfl
  obtain ⟨_, r, hr, _, _, hunderflow, _⟩ :=
    evaluate_by_height ActionTable.standard_complete hts {}
  have he : r = .error (.underflow (.ofOperator .mul 6) 2 1) :=
    mapError_failure_iff.1 (hr.symm.trans hfails)
  obtain ⟨before, t, hfirst, htoken, _⟩ := hunderflow _ he rfl
  obtain rfl : Token.ofOperator .mul 6 = t := Option.some.inj htoken
  exact ⟨ActionTable.standard_complete, hts, hfails, before, hfirst⟩

end Evaluation

end Calculator
