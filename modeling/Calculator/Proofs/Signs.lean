import Calculator.Token.Sign

/-!
# Prefix signs

The pass that resolves signs goes by the token in front, as it stands after the pass. Resolving a
sign changes neither its type nor whether an operand may end with it, so the token in front may as
well be taken as it was written: what is in front of a list matters to it through one bit only
(`resolveSignsFrom_append`), a sign is a prefix sign exactly where an operand opens, and a second
pass finds nothing to do (`resolveSigns_decides`).

Nothing is supposed of the tokens. One whose type and operator disagree is judged by its type, and
by its operator only where that is a sign or a closing parenthesis.
-/

namespace Calculator.Token

variable {t : Token} {k : Nat}

/-! ## One token -/

theorem endsOperand_eq_false_iff :
    t.endsOperand = false ↔ t.isOperator = true ∧ t.isA .closeParen = false := by
  simp [endsOperand]

theorem asUnary_cases (t : Token) :
    (t.isA .add = true ∧ t.asUnary = { t with operator? := some .pos }) ∨
    (t.isA .sub = true ∧ t.asUnary = { t with operator? := some .neg }) ∨
    (t.isA .add = false ∧ t.isA .sub = false ∧ t.asUnary = t) := by
  unfold asUnary
  split
  · next hoperator =>
    cases h : t.operator? with
    | none => exact .inr (.inr ⟨by simp [isA, h], by simp [isA, h], rfl⟩)
    | some o =>
      have hisA (p : Operator) : t.isA p = (o == p) := by simp [isA, hoperator, h]
      cases o with
      | add => exact .inl ⟨hisA .add, rfl⟩
      | sub => exact .inr (.inl ⟨hisA .sub, rfl⟩)
      | _ => exact .inr (.inr ⟨hisA .add, hisA .sub, rfl⟩)
  · next hoperator =>
    have hisA (p : Operator) : t.isA p = false := by simp [isA, hoperator]
    exact .inr (.inr ⟨hisA .add, hisA .sub, rfl⟩)

@[simp] theorem endsOperand_asUnary (t : Token) : t.asUnary.endsOperand = t.endsOperand := by
  rcases asUnary_cases t with ⟨ht, h⟩ | ⟨ht, h⟩ | ⟨_, _, h⟩
  · simp only [h, endsOperand, isA, isOperator, operator?_of_isA ht]
    rfl
  · simp only [h, endsOperand, isA, isOperator, operator?_of_isA ht]
    rfl
  · rw [h]

@[simp] theorem asUnary_asUnary (t : Token) : t.asUnary.asUnary = t.asUnary := by
  rcases asUnary_cases t with ⟨_, h⟩ | ⟨_, h⟩ | ⟨_, _, h⟩
  · rw [h]
    simp [asUnary, Operator.unary?]
  · rw [h]
    simp [asUnary, Operator.unary?]
  · rw [h, h]

/-! ## Lists -/

/-- Whether an operand stands at the end of a list, or in front of it if it is empty. -/
def operandAfter (afterOperand : Bool) (ts : List Token) : Bool :=
  (ts.getLast?.map endsOperand).getD afterOperand

theorem operandAfter_cons (afterOperand : Bool) (t : Token) (ts : List Token) :
    operandAfter afterOperand (t :: ts) = operandAfter t.endsOperand ts := by
  unfold operandAfter
  cases ts with
  | nil => rfl
  | cons u ts => rw [List.getLast?_cons_cons, List.getLast?_cons]; rfl

/-- Of what is in front of a list its end as it was written matters. -/
theorem resolveSignsFrom_append (afterOperand : Bool) (ts us : List Token) :
    resolveSignsFrom afterOperand (ts ++ us) =
      resolveSignsFrom afterOperand ts ++ resolveSignsFrom (operandAfter afterOperand ts) us := by
  induction ts generalizing afterOperand with
  | nil => rfl
  | cons t ts ih =>
    have hends : (if afterOperand then t else t.asUnary).endsOperand = t.endsOperand := by
      split
      · rfl
      · exact endsOperand_asUnary t
    simp only [List.cons_append, resolveSignsFrom, hends, ih, operandAfter_cons]

theorem resolveSignsFrom_idem (afterOperand : Bool) (ts : List Token) :
    resolveSignsFrom afterOperand (resolveSignsFrom afterOperand ts) =
      resolveSignsFrom afterOperand ts := by
  induction ts generalizing afterOperand with
  | nil => rfl
  | cons t ts ih =>
    simp only [resolveSignsFrom]
    cases afterOperand
    · simp [ih]
    · simp [ih]

/-- An operand opens behind a list: the list is empty or ends in an operator, if not in a closing
parenthesis. -/
def OpensOperand (ts : List Token) : Prop :=
  ∀ u ∈ ts.getLast?, u.isOperator = true ∧ u.isA .closeParen = false

theorem operandAfter_eq_false_iff {ts : List Token} :
    operandAfter false ts = false ↔ OpensOperand ts := by
  unfold operandAfter OpensOperand
  cases ts.getLast? with
  | none => simp
  | some u => simp [endsOperand_eq_false_iff]

theorem getElem?_resolveSigns (ts : List Token) (k : Nat) :
    (resolveSigns ts)[k]? =
      ts[k]?.map fun t => if operandAfter false (ts.take k) then t else t.asUnary := by
  by_cases hk : k < ts.length
  · have hsplit : ts.take k ++ ts[k] :: ts.drop (k + 1) = ts := by
      rw [← List.drop_eq_getElem_cons hk, List.take_append_drop]
    have hlength : (resolveSignsFrom false (ts.take k)).length = k := by
      rw [length_resolveSignsFrom, List.length_take, Nat.min_eq_left (Nat.le_of_lt hk)]
    have hresolved := resolveSignsFrom_append false (ts.take k) (ts[k] :: ts.drop (k + 1))
    rw [hsplit] at hresolved
    rw [resolveSigns, hresolved, List.getElem?_append_right (Nat.le_of_eq hlength), hlength,
      Nat.sub_self, List.getElem?_eq_getElem hk]
    rfl
  · have hle : ts.length ≤ k := Nat.le_of_not_lt hk
    rw [List.getElem?_eq_none hle, List.getElem?_eq_none]
    · rfl
    · rwa [resolveSigns, length_resolveSignsFrom]

/-- A token as it was and as it is after the pass, where an operand opens in front of it or not. -/
structure Resolves (opens : Prop) (before after : Token) : Prop where
  /-- All but the operator is kept. -/
  kept : after = { before with operator? := after.operator? }
  changed_iff : after.operator? ≠ before.operator? ↔
    (before.isA .add = true ∨ before.isA .sub = true) ∧ opens
  /-- If the operator changes, it is to the prefix form. -/
  sign : after.operator? ≠ before.operator? →
    (before.isA .add = true ∧ after.operator? = some .pos) ∨
      (before.isA .sub = true ∧ after.operator? = some .neg)

theorem resolves_asUnary {opens : Prop} (hopens : opens) (t : Token) :
    Resolves opens t t.asUnary := by
  rcases asUnary_cases t with ⟨ht, h⟩ | ⟨ht, h⟩ | ⟨hadd, hsub, h⟩
  · rw [h]
    have hne : some Operator.pos ≠ t.operator? := by
      rw [operator?_of_isA ht]
      decide
    exact ⟨rfl, iff_of_true hne ⟨.inl ht, hopens⟩, fun _ => .inl ⟨ht, rfl⟩⟩
  · rw [h]
    have hne : some Operator.neg ≠ t.operator? := by
      rw [operator?_of_isA ht]
      decide
    exact ⟨rfl, iff_of_true hne ⟨.inr ht, hopens⟩, fun _ => .inr ⟨ht, rfl⟩⟩
  · rw [h]
    exact ⟨rfl, by simp [hadd, hsub], fun hne => absurd rfl hne⟩

theorem resolves_self {opens : Prop} (hopens : ¬ opens) (t : Token) : Resolves opens t t :=
  ⟨rfl, by simp [hopens], fun hne => absurd rfl hne⟩

/--
Of each token the pass changes the operator at most, and this exactly if the token is a binary sign
and an operand opens behind the tokens in front of it, as they were written. A second pass changes
nothing, and a list may be resolved in two parts wherever an operand opens between them.
-/
theorem resolveSigns_decides (ts : List Token) :
    (resolveSigns ts).length = ts.length ∧
      (∀ (k : Nat) (t r : Token), ts[k]? = some t → (resolveSigns ts)[k]? = some r →
        Resolves (OpensOperand (ts.take k)) t r) ∧
      resolveSigns (resolveSigns ts) = resolveSigns ts ∧
      ∀ us, OpensOperand ts → resolveSigns (ts ++ us) = resolveSigns ts ++ resolveSigns us := by
  refine ⟨length_resolveSignsFrom false ts, fun k t r ht hr => ?_, resolveSignsFrom_idem false ts,
    fun us hopens => ?_⟩
  · rw [getElem?_resolveSigns, ht] at hr
    obtain rfl := Option.some.inj hr
    cases hafter : operandAfter false (ts.take k) with
    | false => exact resolves_asUnary (operandAfter_eq_false_iff.1 hafter) t
    | true =>
      refine resolves_self (fun hopens => ?_) t
      rw [operandAfter_eq_false_iff.2 hopens] at hafter
      cases hafter
  · rw [resolveSigns, resolveSignsFrom_append, operandAfter_eq_false_iff.2 hopens]
    rfl

/-- Two signs behind an operator token that has no operator. -/
def loneSigns : List Token :=
  [{ type := .operator, text := "?", position := 0 }, .ofOperator .sub 1, .ofOperator .sub 2]

/-- All signs in front of the operand are prefix signs. -/
theorem resolveSigns_loneSigns :
    OpensOperand loneSigns ∧
      resolveSigns (loneSigns ++ [.ofOperator .add 3, .ofSymbol "x" 4]) =
        [{ type := .operator, text := "?", position := 0 }, .ofOperator .neg 1,
          .ofOperator .neg 2] ++ [.ofOperator .pos 3, .ofSymbol "x" 4] := by
  have hopens : OpensOperand loneSigns := by
    rintro u ⟨⟩
    exact ⟨rfl, rfl⟩
  exact ⟨hopens, (resolveSigns_decides loneSigns).2.2.2 _ hopens⟩

end Calculator.Token
