import Calculator.Token

/-!
# Expression trees

A `Tree` has operand tokens at its leaves and operator tokens at its inner nodes, each over as
many subtrees as the operator takes operands. Parentheses have no place in it. `postorder` lists
the tokens of a tree, every operator behind its operands.

`shift` reads such a list back: an operand is a tree by itself, an operator joins the trees on top
of a stack. `ofPostorder?_eq_some_iff`: a list is the postorder of one tree at most, and reading
finds that tree.
-/

namespace Calculator

def Token.isParenthesis (t : Token) : Bool := t.isA .openParen || t.isA .closeParen

theorem Token.not_isA {t : Token} {o p : Operator} (h : t.isA o = true) (hne : o ≠ p) :
    t.isA p = false := by
  rw [Bool.eq_false_iff]
  intro h'
  exact hne (Option.some.inj ((operator?_of_isA h).symm.trans (operator?_of_isA h')))

/-- The token of an operator that stands between two operands. -/
def Token.isBinary (t : Token) : Bool := t.isOperator && t.operator?.any (·.arity == 2)

theorem Token.isParenthesis_of_not_isOperator {t : Token} (h : t.isOperator = false) :
    t.isParenthesis = false := by
  simp [isParenthesis, isA, h]

theorem Token.isParenthesis_of_isBinary {t : Token} (h : t.isBinary = true) :
    t.isParenthesis = false := by
  simp only [isBinary, Bool.and_eq_true, Option.any_eq_true, beq_iff_eq] at h
  obtain ⟨_, o, ho, harity⟩ := h
  have hopen : o ≠ .openParen := by
    rintro rfl
    cases harity
  have hclose : o ≠ .closeParen := by
    rintro rfl
    cases harity
  simp [isParenthesis, isA, ho, hopen, hclose]

theorem Token.isGrouping_eq_false {t : Token} {o : Operator} (ht : t.isA o = true)
    (hparenthesis : t.isParenthesis = false) : o.isGrouping = false := by
  rw [Bool.eq_false_iff]
  intro ho
  rcases Operator.isGrouping_iff.1 ho with rfl | rfl <;> simp [isParenthesis, ht] at hparenthesis

theorem Token.countP_filter {p : Token → Bool}
    (hp : ∀ t, p t = true → t.isParenthesis = false) (ts : List Token) :
    (ts.filter (!·.isParenthesis)).countP p = ts.countP p := by
  rw [List.countP_filter]
  refine List.countP_congr fun t _ => ?_
  simp only [Bool.and_eq_true, Bool.not_eq_true', and_iff_left_iff_imp]
  exact hp t

structure OperandToken where
  token : Token
  isOperand : token.isOperator = false

/-- The token of an operator with `n` operands. -/
structure OperatorToken (n : Nat) where
  token : Token
  operator : Operator
  isA : token.isA operator = true
  arity_eq : operator.arity = n

theorem OperandToken.isA (t : OperandToken) (o : Operator) : t.token.isA o = false := by
  simp [Token.isA, t.isOperand]

theorem OperandToken.isParenthesis (t : OperandToken) : t.token.isParenthesis = false :=
  Token.isParenthesis_of_not_isOperator t.isOperand

theorem OperandToken.isBinary (t : OperandToken) : t.token.isBinary = false := by
  simp [Token.isBinary, t.isOperand]

namespace OperatorToken

variable {n : Nat}

theorem ext {t u : OperatorToken n} (h : t.token = u.token) : t = u := by
  obtain ⟨t, o, ht, _⟩ := t
  obtain ⟨u, p, hu, _⟩ := u
  obtain rfl : t = u := h
  have hop : some o = some p := (Token.operator?_of_isA ht).symm.trans (Token.operator?_of_isA hu)
  obtain rfl := Option.some.inj hop
  rfl

/-- A token as that of an operator with `n` operands, if it is one. -/
def ofToken? (n : Nat) (t : Token) : Option (OperatorToken n) :=
  match t.operator? with
  | some o => if h : t.isA o = true ∧ o.arity = n then some ⟨t, o, h.1, h.2⟩ else none
  | none => none

theorem ofToken?_eq_some_iff {t : Token} {u : OperatorToken n} :
    ofToken? n t = some u ↔ u.token = t := by
  unfold ofToken?
  constructor
  · intro h
    split at h
    · split at h
      · cases h
        rfl
      · cases h
    · cases h
  · rintro rfl
    rw [Token.operator?_of_isA u.isA]
    exact dif_pos ⟨u.isA, u.arity_eq⟩

theorem isOperator (t : OperatorToken n) : t.token.isOperator = true :=
  Token.isOperator_of_isA t.isA

theorem isBinary (t : OperatorToken n) : t.token.isBinary = (n == 2) := by
  simp [Token.isBinary, t.isOperator, Token.operator?_of_isA t.isA, t.arity_eq]

theorem isA_iff (t : OperatorToken n) {o : Operator} : t.token.isA o = true ↔ t.operator = o := by
  have ht := Token.operator?_of_isA t.isA
  constructor
  · intro h
    exact Option.some.inj (ht.symm.trans (Token.operator?_of_isA h))
  · rintro rfl
    exact t.isA

theorem isGrouping (t : OperatorToken (n + 1)) : t.operator.isGrouping = false := by
  rw [Bool.eq_false_iff]
  intro h
  have harity := t.arity_eq
  rcases Operator.isGrouping_iff.1 h with ho | ho <;> rw [ho] at harity <;> cases harity

theorem isParenthesis (t : OperatorToken (n + 1)) : t.token.isParenthesis = false := by
  have h := t.isGrouping
  rw [Bool.eq_false_iff, Ne, Operator.isGrouping_iff, not_or] at h
  simp [Token.isParenthesis, Bool.eq_false_iff, t.isA_iff, h]

theorem ofToken?_of_ne {m : Nat} (t : OperatorToken m) (h : m ≠ n) : ofToken? n t.token = none := by
  unfold ofToken?
  rw [Token.operator?_of_isA t.isA]
  exact dif_neg fun ht => h (t.arity_eq.symm.trans ht.2)

end OperatorToken

inductive Tree where
  | leaf (t : OperandToken)
  | unary (t : OperatorToken 1) (operand : Tree)
  | binary (t : OperatorToken 2) (left right : Tree)

namespace Tree

/-- The tokens of a tree, every operator behind its operands. -/
def postorder : Tree → List Token
  | leaf t => [t.token]
  | unary t a => a.postorder ++ [t.token]
  | binary t a b => a.postorder ++ b.postorder ++ [t.token]

/-- The trees after one token more, the last tree first. -/
def shift (stack : List Tree) (t : Token) : Option (List Tree) :=
  if h : t.isOperator = false then some (leaf ⟨t, h⟩ :: stack)
  else
    match OperatorToken.ofToken? 1 t, OperatorToken.ofToken? 2 t, stack with
    | some u, _, a :: rest => some (unary u a :: rest)
    | none, some u, b :: a :: rest => some (binary u a b :: rest)
    | _, _, _ => none

def ofPostorder? (ts : List Token) : Option Tree :=
  match ts.foldlM shift [] with
  | some [e] => some e
  | _ => none

@[simp] theorem shift_leaf (stack : List Tree) (t : OperandToken) :
    shift stack t.token = some (leaf t :: stack) := by
  simp [shift, t.isOperand]

@[simp] theorem shift_unary (a : Tree) (rest : List Tree) (t : OperatorToken 1) :
    shift (a :: rest) t.token = some (unary t a :: rest) := by
  have ht : OperatorToken.ofToken? 1 t.token = some t := OperatorToken.ofToken?_eq_some_iff.2 rfl
  simp [shift, t.isOperator, ht]

@[simp] theorem shift_binary (a b : Tree) (rest : List Tree) (t : OperatorToken 2) :
    shift (b :: a :: rest) t.token = some (binary t a b :: rest) := by
  have ht : OperatorToken.ofToken? 2 t.token = some t := OperatorToken.ofToken?_eq_some_iff.2 rfl
  have hn : OperatorToken.ofToken? 1 t.token = none := t.ofToken?_of_ne (by decide)
  simp [shift, t.isOperator, ht, hn]

/-- All that reading one token can do. -/
theorem shift_cases {stack stack' : List Tree} {t : Token} (h : shift stack t = some stack') :
    (∃ u : OperandToken, u.token = t ∧ stack' = leaf u :: stack) ∨
    (∃ u : OperatorToken 1, u.token = t ∧
      ∃ a rest, stack = a :: rest ∧ stack' = unary u a :: rest) ∨
    (∃ u : OperatorToken 2, u.token = t ∧
      ∃ a b rest, stack = b :: a :: rest ∧ stack' = binary u a b :: rest) := by
  unfold shift at h
  split at h
  · next ht => exact .inl ⟨⟨t, ht⟩, rfl, (Option.some.inj h).symm⟩
  · split at h
    · next u a rest hu =>
      exact .inr (.inl ⟨u, OperatorToken.ofToken?_eq_some_iff.1 hu, a, rest, rfl,
        (Option.some.inj h).symm⟩)
    · next u b a rest _ hu =>
      exact .inr (.inr ⟨u, OperatorToken.ofToken?_eq_some_iff.1 hu, a, b, rest, rfl,
        (Option.some.inj h).symm⟩)
    · cases h

def listing : List Tree → List Token
  | [] => []
  | e :: rest => listing rest ++ e.postorder

theorem listing_shift {stack stack' : List Tree} {t : Token} (h : shift stack t = some stack') :
    listing stack' = listing stack ++ [t] := by
  rcases shift_cases h with ⟨u, rfl, rfl⟩ | ⟨u, rfl, a, rest, rfl, rfl⟩ |
    ⟨u, rfl, a, b, rest, rfl, rfl⟩ <;> simp [listing, postorder]

theorem listing_foldlM_shift {stack stack' : List Tree} {ts : List Token}
    (h : ts.foldlM shift stack = some stack') : listing stack' = listing stack ++ ts := by
  induction ts generalizing stack with
  | nil =>
    cases h
    simp
  | cons t ts ih =>
    obtain ⟨mid, hmid, h⟩ := Option.bind_eq_some_iff.1 h
    rw [ih h, listing_shift hmid, List.append_assoc, List.singleton_append]

/-- The postorder of a tree puts that tree on any stack. -/
theorem foldlM_shift_postorder (e : Tree) (stack : List Tree) :
    e.postorder.foldlM shift stack = some (e :: stack) := by
  induction e generalizing stack with
  | leaf t => simp [postorder]
  | unary t a ih => simp [postorder, List.foldlM_append, ih]
  | binary t a b iha ihb => simp [postorder, List.foldlM_append, iha, ihb]

theorem ofPostorder?_eq_some_iff {ts : List Token} {e : Tree} :
    ofPostorder? ts = some e ↔ ts = e.postorder := by
  unfold ofPostorder?
  constructor
  · intro h
    split at h
    · next e' he =>
      cases h
      simpa [listing] using (listing_foldlM_shift he).symm
    · cases h
  · rintro rfl
    rw [foldlM_shift_postorder]

theorem postorder_injective {e e' : Tree} (h : e.postorder = e'.postorder) : e = e' :=
  Option.some.inj ((ofPostorder?_eq_some_iff.2 rfl).symm.trans (ofPostorder?_eq_some_iff.2 h))

theorem exists_of_mem_postorder {e : Tree} {t : Token} (h : t ∈ e.postorder) :
    (∃ u : OperandToken, u.token = t) ∨ ∃ (n : Nat) (u : OperatorToken (n + 1)), u.token = t := by
  induction e with
  | leaf u => exact .inl ⟨u, (List.mem_singleton.1 h).symm⟩
  | unary u a ih =>
    rcases List.mem_append.1 h with h | h
    · exact ih h
    · exact .inr ⟨0, u, (List.mem_singleton.1 h).symm⟩
  | binary u a b iha ihb =>
    rcases List.mem_append.1 h with h | h
    · rcases List.mem_append.1 h with h | h
      · exact iha h
      · exact ihb h
    · exact .inr ⟨1, u, (List.mem_singleton.1 h).symm⟩

theorem isParenthesis_of_mem_postorder {e : Tree} {t : Token} (h : t ∈ e.postorder) :
    t.isParenthesis = false := by
  rcases exists_of_mem_postorder h with ⟨u, rfl⟩ | ⟨n, u, rfl⟩
  · exact u.isParenthesis
  · exact u.isParenthesis

theorem countP_postorder (e : Tree) :
    e.postorder.countP (!·.isOperator) = e.postorder.countP (·.isBinary) + 1 := by
  induction e with
  | leaf t => simp [postorder, t.isOperand, t.isBinary]
  | unary t a ih => simp [postorder, t.isOperator, t.isBinary, ih]
  | binary t a b iha ihb =>
    simp only [postorder, List.countP_append, List.countP_singleton, t.isOperator, t.isBinary,
      Bool.not_true, Bool.false_eq_true, if_false, beq_self_eq_true, if_true]
    omega

theorem consistent_of_mem_postorder {e : Tree} {t : Token} (h : t ∈ e.postorder) :
    t.Consistent := by
  rcases exists_of_mem_postorder h with ⟨u, rfl⟩ | ⟨n, u, rfl⟩
  · intro hop
    rw [u.isOperand] at hop
    cases hop
  · intro _
    rw [Token.operator?_of_isA u.isA]
    rfl

end Tree

end Calculator
