import Calculator.Postfix
import Calculator.Proofs.Grammar
import Calculator.Result

/-!
# Conversion of expressions

Between two tokens the conversion of an expression of level `l` has sent out some tokens and holds
`Pending l` operators on top of what was there before. What was there `Rests`: it is of a looser
level, so no operator of the expression makes it go out. Tokens sent out and pending operators
together are the postorder of the part that has been read.
-/

namespace Calculator.Postfix

open Grammar Nesting

variable {limits : Limits} {source : Option String} {l k n : Nat} {stack pending : List Token}

/-! ## What goes out for an operator -/

theorem bindsFirst_open {t : Token} (ht : t.isA .openParen = true) (u : Token) :
    bindsFirst t u = .ok false := by
  simp [bindsFirst, ht]

theorem bindsFirst_operator {m : Nat} (t : OperatorToken (m + 1)) (u : OperatorToken n) :
    bindsFirst t.token u.token = .ok (decide (u.operator.precedence < t.operator.precedence) ||
      (u.operator.precedence == t.operator.precedence && u.operator.associativity == .left)) := by
  have hopen : t.token.isA .openParen = false := (Bool.or_eq_false_iff.1 t.isParenthesis).1
  have ht := Token.operator_eq_ok_iff.2 (Token.operator?_of_isA t.isA)
  have hu := Token.operator_eq_ok_iff.2 (Token.operator?_of_isA u.isA)
  simp only [bindsFirst, hopen, ht, hu, Bool.false_eq_true, if_false, Result.ok_bind]
  rfl

/-- Nothing on the stack goes out for an operator of the level or a tighter one. -/
def Rests (l : Nat) (stack : List Token) : Prop :=
  ∀ (n : Nat) (t : OperatorToken (n + 1)), l ≤ t.operator.precedence →
    splitStack t.token stack = .ok ([], stack)

theorem Rests.nil : Rests l [] := fun _ _ _ => rfl

theorem Rests.of_bindsFirst {t : Token}
    (h : ∀ (n : Nat) (u : OperatorToken (n + 1)), l ≤ u.operator.precedence →
      bindsFirst t u.token = .ok false) : Rests l (t :: stack) := by
  intro n u hu
  simp only [splitStack, h n u hu, Result.ok_bind]
  rfl

theorem Rests.group {t : Token} (ht : t.isA .openParen = true) : Rests l (t :: stack) :=
  .of_bindsFirst fun _ u _ => bindsFirst_open ht u.token

theorem Rests.tighter (h : Rests l stack) (hk : l ≤ k) : Rests k stack :=
  fun n t ht => h n t (Nat.le_trans hk ht)

theorem Rests.operator (t : OperatorToken (n + 1)) :
    Rests (t.operator.precedence + 1) (t.token :: stack) := by
  refine .of_bindsFirst fun m u hu => ?_
  have hlt : ¬ u.operator.precedence < t.operator.precedence := by omega
  have hne : (u.operator.precedence == t.operator.precedence) = false := by
    rw [beq_eq_false_iff_ne]
    omega
  rw [bindsFirst_operator, hne, decide_eq_false hlt]
  rfl

theorem Rests.operator_right (t : OperatorToken (n + 1))
    (ht : t.operator.associativity = .right) :
    Rests t.operator.precedence (t.token :: stack) := by
  refine .of_bindsFirst fun m u hu => ?_
  have hlt : ¬ u.operator.precedence < t.operator.precedence := by omega
  rw [bindsFirst_operator, decide_eq_false hlt]
  by_cases he : u.operator.precedence = t.operator.precedence
  · have ha : u.operator.associativity = .right :=
      (associativity_eq u.isGrouping t.isGrouping he).trans ht
    rw [ha]
    simp
  · rw [beq_eq_false_iff_ne.2 he]
    rfl

def Pending (l : Nat) (pending : List Token) : Prop :=
  ∀ t ∈ pending, ∃ (n : Nat) (u : OperatorToken (n + 1)),
    u.token = t ∧ l ≤ u.operator.precedence

theorem Pending.nil : Pending l [] := fun _ h => nomatch h

theorem Pending.looser (h : Pending k pending) (hk : l ≤ k) : Pending l pending := by
  intro t ht
  obtain ⟨n, u, hu, hp⟩ := h t ht
  exact ⟨n, u, hu, Nat.le_trans hk hp⟩

theorem Pending.snoc (h : Pending l pending) (t : OperatorToken (n + 1))
    (ht : l ≤ t.operator.precedence) : Pending l (pending ++ [t.token]) := by
  intro u hu
  rcases List.mem_append.1 hu with hu | hu
  · exact h u hu
  · exact ⟨n, t, (List.mem_singleton.1 hu).symm, ht⟩

theorem Pending.not_open (h : Pending l pending) {t : Token} (ht : t ∈ pending) :
    t.isA .openParen = false := by
  obtain ⟨n, u, rfl, _⟩ := h t ht
  exact (Bool.or_eq_false_iff.1 u.isParenthesis).1

theorem splitStack_pending (t : OperatorToken (n + 1)) (hp : Pending l pending)
    (hs : Rests t.operator.precedence stack)
    (ht : t.operator.precedence < l ∨
      t.operator.precedence = l ∧ t.operator.associativity = .left) :
    splitStack t.token (pending ++ stack) = .ok (pending, stack) := by
  induction pending with
  | nil => exact hs n t (Nat.le_refl _)
  | cons u pending ih =>
    obtain ⟨m, u, rfl, hu⟩ := hp u List.mem_cons_self
    have hfirst : bindsFirst u.token t.token = .ok true := by
      rw [bindsFirst_operator]
      congr 1
      rcases ht with ht | ⟨he, ha⟩
      · simp [show t.operator.precedence < u.operator.precedence by omega]
      · by_cases hlt : t.operator.precedence < u.operator.precedence
        · simp [hlt]
        · simp [ha, show t.operator.precedence = u.operator.precedence by omega]
    have ih := ih fun v hv => hp v (List.mem_cons_of_mem _ hv)
    simp only [List.cons_append, splitStack, hfirst, ih, Result.ok_bind]
    rfl

/-! ## Steps -/

theorem step_operand (t : OperandToken) (s : Conversion) :
    step limits source s t.token = .ok { s with output := s.output ++ [t.token] } := by
  simp [step, t.isOperand]

theorem step_open {t : Token} (ht : t.isA .openParen = true) {s : Conversion}
    (hd : s.depth + 1 ≤ limits.depth) : step limits source s t =
      .ok { s with stack := t :: s.stack, depth := s.depth + 1 } := by
  have hreq : limits.require .depth (s.depth + 1) = .ok () := Limits.require_eq_ok_iff.2 hd
  simp only [step, Token.isOperator_of_isA ht, ht, openGroup, hreq, Result.ok_bind]
  rfl

theorem step_close {t u : Token} (ht : t.isA .closeParen = true) (hu : u.isA .openParen = true)
    (hp : ∀ v ∈ pending, v.isA .openParen = false) (out : List Token) (d : Nat) :
    step limits source ⟨out, pending ++ u :: stack, d⟩ t =
      .ok ⟨out ++ pending, stack, d - 1⟩ := by
  have hopen := not_isA_openParen ht
  have hdrop : (pending ++ u :: stack).dropWhile (fun v => !v.isA .openParen) = u :: stack := by
    rw [List.dropWhile_append_of_pos fun v hv => by simp [hp v hv], List.dropWhile_cons]
    simp [hu]
  have htake : (pending ++ u :: stack).takeWhile (fun v => !v.isA .openParen) = pending := by
    rw [List.takeWhile_append_of_pos fun v hv => by simp [hp v hv], List.takeWhile_cons]
    simp [hu]
  simp [step, closeGroup, Token.isOperator_of_isA ht, hopen, ht, hdrop, htake]

theorem step_push {t : Token} (hop : t.isOperator = true) (hpar : t.isParenthesis = false)
    {s : Conversion} {popped kept : List Token} (h : splitStack t s.stack = .ok (popped, kept)) :
    step limits source s t = .ok ⟨s.output ++ popped, t :: kept, s.depth⟩ := by
  have hpar := Bool.or_eq_false_iff.1 hpar
  simp [step, pushOperator, hop, hpar, h]

theorem step_operator (t : OperatorToken (n + 1)) (hp : Pending l pending)
    (hs : Rests t.operator.precedence stack)
    (ht : t.operator.precedence < l ∨
      t.operator.precedence = l ∧ t.operator.associativity = .left)
    (out : List Token) (d : Nat) :
    step limits source ⟨out, pending ++ stack, d⟩ t.token =
      .ok ⟨out ++ pending, t.token :: stack, d⟩ :=
  step_push t.isOperator t.isParenthesis (splitStack_pending t hp hs ht)

/-! ## Expressions -/

/--
From a state the tokens are read, and what goes out and what is pending make the postorder of the
tree.
-/
def Reads (limits : Limits) (source : Option String) (l : Nat) (ts : List Token) (e : Tree)
    (s : Conversion) : Prop :=
  ∃ out pending, out ++ pending = e.postorder ∧ Pending l pending ∧
    ts.foldlM (step limits source) s = .ok ⟨s.output ++ out, pending ++ s.stack, s.depth⟩

variable {ts us : List Token} {e f : Tree} {s : Conversion}

theorem Reads.operand (t : OperandToken) : Reads limits source l [t.token] (.leaf t) s := by
  refine ⟨[t.token], [], rfl, .nil, ?_⟩
  rw [List.foldlM_cons, step_operand, Result.ok_bind]
  rfl

theorem Reads.looser (h : Reads limits source k ts e s) (hk : l ≤ k) :
    Reads limits source l ts e s := by
  obtain ⟨out, pending, hout, hp, hrun⟩ := h
  exact ⟨out, pending, hout, hp.looser hk, hrun⟩

theorem Reads.group {opening closing : Token} (ho : opening.isA .openParen = true)
    (hc : closing.isA .closeParen = true) (hd : s.depth + 1 ≤ limits.depth)
    (h : Reads limits source k ts e ⟨s.output, opening :: s.stack, s.depth + 1⟩) :
    Reads limits source l (opening :: (ts ++ [closing])) e s := by
  obtain ⟨out, pending, hout, hp, hrun⟩ := h
  refine ⟨e.postorder, [], List.append_nil _, .nil, ?_⟩
  rw [List.foldlM_cons, step_open ho hd, Result.ok_bind, List.foldlM_append, hrun,
    Result.ok_bind, List.foldlM_cons, step_close hc ho fun v => hp.not_open, ← hout,
    List.append_assoc]
  rfl

theorem Reads.ahead (t : OperatorToken 1) (hs : Rests 17 s.stack)
    (h : Reads limits source 17 ts e ⟨s.output, t.token :: s.stack, s.depth⟩) :
    Reads limits source 17 (t.token :: ts) (.unary t e) s := by
  obtain ⟨out, pending, hout, hp, hrun⟩ := h
  have hprec := (precedence_of_unary t.arity_eq).1
  have hstep : step limits source s t.token =
      .ok ⟨s.output ++ [], t.token :: s.stack, s.depth⟩ :=
    step_operator t (Pending.nil (l := 18)) (hs.tighter (by omega)) (.inl (by omega)) _ _
  refine ⟨out, pending ++ [t.token], ?_, hp.snoc t (by omega), ?_⟩
  · rw [Tree.postorder, ← hout, List.append_assoc]
  · rw [List.foldlM_cons, hstep, Result.ok_bind, List.append_nil, hrun, List.append_assoc]
    rfl

theorem Reads.between (t : OperatorToken 2) (hs : Rests t.operator.precedence s.stack)
    (ht : t.operator.precedence < k ∨
      t.operator.precedence = k ∧ t.operator.associativity = .left)
    (he : Reads limits source k ts e s)
    (hf : Reads limits source l us f ⟨s.output ++ e.postorder, t.token :: s.stack, s.depth⟩)
    (hl : t.operator.precedence ≤ l) :
    Reads limits source t.operator.precedence (ts ++ t.token :: us) (.binary t e f) s := by
  obtain ⟨out, pending, hout, hp, hrun⟩ := he
  obtain ⟨out', pending', hout', hp', hrun'⟩ := hf
  refine ⟨out ++ pending ++ out', pending' ++ [t.token], ?_,
    (hp'.looser hl).snoc t (Nat.le_refl _), ?_⟩
  · rw [Tree.postorder, ← hout, ← hout']
    simp only [List.append_assoc]
  · rw [List.foldlM_append, hrun, Result.ok_bind, List.foldlM_cons,
      step_operator t hp hs ht, Result.ok_bind, List.append_assoc s.output, hout, hrun']
    simp

/-- An expression is read from any state that rests under it. -/
theorem reads_of_derives (h : Derives l ts e) (hs : Rests l s.stack)
    (hd : deepest s.depth ts ≤ limits.depth) : Reads limits source l ts e s := by
  -- a right operand is read above its operator, which must rest under it in turn
  induction h generalizing s with
  | operand t => exact .operand t
  | @group opening closing ts e ho hc _ ih =>
    rw [deepest, depthAfter_open ho, deepest_append] at hd
    have hle := le_deepest (s.depth + 1) ts
    exact .group ho hc (by omega) (ih (.group ho) (by simp only; omega))
  | @ahead t ts e _ ih =>
    obtain ⟨hprec, hassoc⟩ := precedence_of_unary t.arity_eq
    rw [deepest, depthAfter_other t.isParenthesis] at hd
    have hrest : Rests t.operator.precedence (t.token :: s.stack) := .operator_right t hassoc
    rw [hprec] at hrest
    exact .ahead t hs (ih hrest (by simp only; omega))
  | @leftward t l ts us e f ht hl _ ihl ihr =>
    obtain ⟨_, hassoc, rfl⟩ := fixity_leftward_iff.1 ht
    rw [hl.deepest_between] at hd
    have he := ihl hs (by omega)
    have hf := ihr (s := ⟨s.output ++ e.postorder, t.token :: s.stack, s.depth⟩) (.operator t)
      (by simp only; omega)
    exact .between t hs (.inr ⟨rfl, hassoc⟩) he hf (Nat.le_succ _)
  | @rightward t l ts us e f ht hl _ ihl ihr =>
    obtain ⟨_, hassoc, rfl⟩ := fixity_rightward_iff.1 ht
    rw [hl.deepest_between] at hd
    have he := ihl (hs.tighter (Nat.le_succ _)) (by omega)
    have hf := ihr (s := ⟨s.output ++ e.postorder, t.token :: s.stack, s.depth⟩)
      (.operator_right t hassoc) (by simp only; omega)
    exact .between t hs (.inl (Nat.lt_succ_self _)) he hf (Nat.le_refl _)
  | tighter _ ih => exact (ih (hs.tighter (Nat.le_succ _)) hd).looser (Nat.le_succ _)

theorem ofTokens_of_derives (h : Derives l ts e) (hd : deepest 0 ts ≤ limits.depth) :
    ofTokens limits source ts = .ok e.postorder := by
  have hreads : Reads limits source l ts e {} := reads_of_derives h .nil hd
  obtain ⟨out, pending, hout, hp, hrun⟩ := hreads
  have hfind : (pending ++ []).find? (fun t : Token => t.isA .openParen) = none := by
    rw [List.find?_eq_none]
    intro t ht
    rw [hp.not_open (by simpa using ht)]
    decide
  rw [ofTokens, hrun, Result.ok_bind, finish, hfind, ← hout]
  simp

/-- A list of tokens is read as an expression in one way only. -/
theorem derives_unique (h : Derives l ts e) (h' : Derives k ts f) : e = f := by
  let deep : Limits := { depth := deepest 0 ts + 1, depth_pos := Nat.succ_pos _ }
  have he : ofTokens deep none ts = .ok e.postorder := ofTokens_of_derives h (Nat.le_succ _)
  have hf : ofTokens deep none ts = .ok f.postorder := ofTokens_of_derives h' (Nat.le_succ _)
  exact Tree.postorder_injective (Except.ok.inj (he.symm.trans hf))

/--
An expression that does not nest too deep becomes the postorder of its tree, which is the only one.
-/
theorem ofTokens_expression (h : Derives 1 ts e) :
    (∀ limits source, deepest 0 ts ≤ limits.depth →
      ofTokens limits source ts = .ok e.postorder) ∧
    (∀ t ∈ e.postorder, t.isParenthesis = false) ∧
    ∀ f, Derives 1 ts f → f = e := by
  refine ⟨fun limits source hd => ?_, fun t ht => ?_, fun f hf => ?_⟩
  · exact ofTokens_of_derives h hd
  · exact Tree.isParenthesis_of_mem_postorder ht
  · exact derives_unique hf h

/-- In `-a ** (b) ** c` the sign binds tightest and the powers group to the right. -/
theorem ofTokens_powers :
    ∃ e, Derives 1 [.ofOperator .neg 0, .ofSymbol "a" 1, .ofOperator .pow 3,
        .ofOperator .openParen 6, .ofSymbol "b" 7, .ofOperator .closeParen 8,
        .ofOperator .pow 10, .ofSymbol "c" 13] e ∧
      ofTokens {} none [.ofOperator .neg 0, .ofSymbol "a" 1, .ofOperator .pow 3,
          .ofOperator .openParen 6, .ofSymbol "b" 7, .ofOperator .closeParen 8,
          .ofOperator .pow 10, .ofSymbol "c" 13] =
        .ok [.ofSymbol "a" 1, .ofOperator .neg 0, .ofSymbol "b" 7, .ofSymbol "c" 13,
          .ofOperator .pow 10, .ofOperator .pow 3] := by
  have a : Derives 18 [.ofSymbol "a" 1] _ := .operand ⟨.ofSymbol "a" 1, rfl⟩
  have b : Derives 18 [.ofSymbol "b" 7] _ := .operand ⟨.ofSymbol "b" 7, rfl⟩
  have c : Derives 18 [.ofSymbol "c" 13] _ := .operand ⟨.ofSymbol "c" 13, rfl⟩
  have minus := Derives.ahead ⟨.ofOperator .neg 0, .neg, rfl, rfl⟩ a.tighter
  have group := @Derives.group (.ofOperator .openParen 6) (.ofOperator .closeParen 8) _ _ rfl rfl
    (b.looser (by decide))
  have inner := Derives.rightward ⟨.ofOperator .pow 10, .pow, rfl, rfl⟩ rfl group.tighter
    (c.looser (by decide))
  have outer := Derives.rightward ⟨.ofOperator .pow 3, .pow, rfl, rfl⟩ rfl minus inner
  have h := outer.looser (show 1 ≤ 16 by decide)
  exact ⟨_, h, (ofTokens_expression h).1 {} none (by decide)⟩

end Calculator.Postfix
