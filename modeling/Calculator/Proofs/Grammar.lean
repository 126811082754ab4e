import Calculator.Proofs.Nesting

/-!
# The infix grammar

`Derives l ts e`: the tokens `ts` are an expression of level `l`, and `e` is its tree. The levels
are 1 (`,`), 3 (`=`), 9 (`==` `!=`), 10 (`<` `<=` `>` `>=`), 14 (`+` `-`), 15 (`*` `/` `%`),
16 (`**`), 17 (prefix `!` `+` `-`) and 18: an operand, or an expression of level 1 in parentheses.
A level that has no operators is the next one. `fixity` says where an operator stands.

`Alternates` walks over a list and asks that operands and binary operators take turns.
`derivable_iff`: the lists of level 1 are the balanced ones that alternate.
-/

namespace Calculator.Grammar

open Nesting

inductive Fixity where
  /-- It groups. -/
  | around
  /-- In front of one operand. -/
  | ahead
  /-- Between two operands, of the same level on the left and a tighter one on the right. -/
  | leftward (level : Nat)
  /-- Between two operands, of a tighter level on the left and the same on the right. -/
  | rightward (level : Nat)
  deriving DecidableEq, Repr

def fixity : Operator → Fixity
  | .openParen | .closeParen => .around
  | .comma => .leftward 1
  | .assign => .rightward 3
  | .eq | .ne => .leftward 9
  | .lt | .le | .gt | .ge => .leftward 10
  | .add | .sub => .leftward 14
  | .mul | .div | .mod => .leftward 15
  | .pow => .rightward 16
  | .not | .pos | .neg => .ahead

inductive Derives : Nat → List Token → Tree → Prop where
  | operand (t : OperandToken) : Derives 18 [t.token] (.leaf t)
  | group {opening closing : Token} {ts : List Token} {e : Tree}
      (ho : opening.isA .openParen = true) (hc : closing.isA .closeParen = true)
      (h : Derives 1 ts e) : Derives 18 (opening :: (ts ++ [closing])) e
  | ahead (t : OperatorToken 1) {ts : List Token} {e : Tree} (h : Derives 17 ts e) :
      Derives 17 (t.token :: ts) (.unary t e)
  | leftward (t : OperatorToken 2) {l : Nat} {ts us : List Token} {e f : Tree}
      (ht : fixity t.operator = .leftward l) (hl : Derives l ts e) (hr : Derives (l + 1) us f) :
      Derives l (ts ++ t.token :: us) (.binary t e f)
  | rightward (t : OperatorToken 2) {l : Nat} {ts us : List Token} {e f : Tree}
      (ht : fixity t.operator = .rightward l) (hl : Derives (l + 1) ts e) (hr : Derives l us f) :
      Derives l (ts ++ t.token :: us) (.binary t e f)
  | tighter {l : Nat} {ts : List Token} {e : Tree} (h : Derives (l + 1) ts e) : Derives l ts e

def Derivable (ts : List Token) : Prop := ∃ e, Derives 1 ts e

/-! ## The grammar and the registry -/

theorem fixity_leftward_iff {o : Operator} {l : Nat} :
    fixity o = .leftward l ↔ o.arity = 2 ∧ o.associativity = .left ∧ o.precedence = l := by
  cases o <;> simp [fixity, Operator.arity, Operator.associativity, Operator.precedence]

theorem fixity_rightward_iff {o : Operator} {l : Nat} :
    fixity o = .rightward l ↔ o.arity = 2 ∧ o.associativity = .right ∧ o.precedence = l := by
  cases o <;> simp [fixity, Operator.arity, Operator.associativity, Operator.precedence]

theorem precedence_of_unary {o : Operator} (h : o.arity = 1) :
    o.precedence = 17 ∧ o.associativity = .right := by
  cases o <;> simp_all [Operator.arity, Operator.precedence, Operator.associativity]

theorem precedence_of_binary {o : Operator} (h : o.arity = 2) :
    1 ≤ o.precedence ∧ o.precedence ≤ 16 := by
  cases o <;> simp_all [Operator.arity, Operator.precedence]

theorem associativity_eq {o p : Operator} (ho : o.isGrouping = false) (hp : p.isGrouping = false)
    (h : o.precedence = p.precedence) : o.associativity = p.associativity := by
  cases o <;> cases p <;> simp_all [Operator.isGrouping, Operator.precedence,
    Operator.associativity]

/-! ## Levels -/

theorem Derives.looser {l k : Nat} {ts : List Token} {e : Tree} (h : Derives l ts e)
    (hk : k ≤ l) : Derives k ts e := by
  induction l with
  | zero =>
    obtain rfl := Nat.le_zero.1 hk
    exact h
  | succ l ih =>
    rcases Nat.lt_or_eq_of_le hk with hk | rfl
    · exact ih (.tighter h) (Nat.le_of_lt_succ hk)
    · exact h

theorem Derives.join (t : OperatorToken 2) {ts us : List Token} {e f : Tree}
    (h : Derives (t.operator.precedence + 1) ts e) (hf : Derives 17 us f) :
    Derives t.operator.precedence (ts ++ t.token :: us) (.binary t e f) := by
  have hle := (precedence_of_binary t.arity_eq).2
  cases ha : t.operator.associativity with
  | left =>
    have ht := fixity_leftward_iff.2 ⟨t.arity_eq, ha, rfl⟩
    exact .leftward t ht h.tighter (hf.looser (by omega))
  | right =>
    have ht := fixity_rightward_iff.2 ⟨t.arity_eq, ha, rfl⟩
    exact .rightward t ht h (hf.looser (by omega))

/--
An expression takes one more operand behind it. The operator finds its place on the right edge of
the tree, below all operators that bind looser.
-/
theorem Derives.extend (t : OperatorToken 2) {l : Nat} {ts us : List Token} {e f : Tree}
    (h : Derives l ts e) (hl : l ≤ t.operator.precedence) (hf : Derives 17 us f) :
    ∃ g, Derives l (ts ++ t.token :: us) g := by
  have hle := (precedence_of_binary t.arity_eq).2
  induction h with
  | operand | group | ahead => omega
  | @leftward u l ts₁ us₁ e₁ e₂ hu h₁ h₂ _ ih =>
    by_cases hk : l + 1 ≤ t.operator.precedence
    · obtain ⟨g, hg⟩ := ih hk
      rw [List.append_assoc, List.cons_append]
      exact ⟨_, .leftward u hu h₁ hg⟩
    · have hp : t.operator.precedence = l := by omega
      obtain ⟨_, hul, hup⟩ := fixity_leftward_iff.1 hu
      have ha := (associativity_eq t.isGrouping u.isGrouping (hp.trans hup.symm)).trans hul
      have ht := fixity_leftward_iff.2 ⟨t.arity_eq, ha, hp⟩
      exact ⟨_, .leftward t ht (.leftward u hu h₁ h₂) (hf.looser (by omega))⟩
  | @rightward u l ts₁ us₁ e₁ e₂ hu h₁ h₂ _ ih =>
    obtain ⟨g, hg⟩ := ih hl
    rw [List.append_assoc, List.cons_append]
    exact ⟨_, .rightward u hu h₁ hg⟩
  | @tighter l ts e h ih =>
    by_cases hk : l + 1 ≤ t.operator.precedence
    · obtain ⟨g, hg⟩ := ih hk
      exact ⟨g, hg.tighter⟩
    · obtain rfl : l = t.operator.precedence := by omega
      exact ⟨_, h.join t hf⟩

/-! ## Turns -/

/--
Operands and binary operators take turns. The flags say whether an operand stands in front of the
list, and whether one stands at its end.
-/
inductive Alternates : Bool → List Token → Bool → Prop where
  | done (b : Bool) : Alternates b [] b
  | operand (t : OperandToken) {ts : List Token} {b : Bool} (h : Alternates true ts b) :
      Alternates false (t.token :: ts) b
  | ahead (t : OperatorToken 1) {ts : List Token} {b : Bool} (h : Alternates false ts b) :
      Alternates false (t.token :: ts) b
  | opening {t : Token} (ht : t.isA .openParen = true) {ts : List Token} {b : Bool}
      (h : Alternates false ts b) : Alternates false (t :: ts) b
  | between (t : OperatorToken 2) {ts : List Token} {b : Bool} (h : Alternates false ts b) :
      Alternates true (t.token :: ts) b
  | closing {t : Token} (ht : t.isA .closeParen = true) {ts : List Token} {b : Bool}
      (h : Alternates true ts b) : Alternates true (t :: ts) b

theorem Alternates.append {a b c : Bool} {ts us : List Token} (h : Alternates a ts b)
    (h' : Alternates b us c) : Alternates a (ts ++ us) c := by
  induction h with
  | done => exact h'
  | operand t _ ih => exact .operand t (ih h')
  | ahead t _ ih => exact .ahead t (ih h')
  | opening ht _ ih => exact .opening ht (ih h')
  | between t _ ih => exact .between t (ih h')
  | closing ht _ ih => exact .closing ht (ih h')

theorem Alternates.split {a c : Bool} {ts us : List Token} (h : Alternates a (ts ++ us) c) :
    ∃ b, Alternates a ts b ∧ Alternates b us c := by
  induction ts generalizing a with
  | nil => exact ⟨a, .done a, h⟩
  | cons t ts ih =>
    cases h with
    | operand t h =>
      obtain ⟨b, h₁, h₂⟩ := ih h
      exact ⟨b, .operand t h₁, h₂⟩
    | ahead t h =>
      obtain ⟨b, h₁, h₂⟩ := ih h
      exact ⟨b, .ahead t h₁, h₂⟩
    | opening ht h =>
      obtain ⟨b, h₁, h₂⟩ := ih h
      exact ⟨b, .opening ht h₁, h₂⟩
    | between t h =>
      obtain ⟨b, h₁, h₂⟩ := ih h
      exact ⟨b, .between t h₁, h₂⟩
    | closing ht h =>
      obtain ⟨b, h₁, h₂⟩ := ih h
      exact ⟨b, .closing ht h₁, h₂⟩

theorem Alternates.of_operand {a b : Bool} {t : Token} {ts : List Token}
    (h : Alternates a (t :: ts) b) (ht : t.isOperator = false) :
    a = false ∧ Alternates true ts b := by
  generalize hus : t :: ts = us at h
  cases h with
  | done => cases hus
  | operand _ h =>
    obtain ⟨rfl, rfl⟩ := List.cons.inj hus
    exact ⟨rfl, h⟩
  | ahead u | between u =>
    obtain ⟨rfl, rfl⟩ := List.cons.inj hus
    rw [u.isOperator] at ht
    cases ht
  | opening hp | closing hp =>
    obtain ⟨rfl, rfl⟩ := List.cons.inj hus
    rw [Token.isOperator_of_isA hp] at ht
    cases ht

theorem Alternates.of_closing {a b : Bool} {t : Token} {ts : List Token}
    (h : Alternates a (t :: ts) b) (ht : t.isA .closeParen = true) :
    a = true ∧ Alternates true ts b := by
  generalize hus : t :: ts = us at h
  cases h with
  | done => cases hus
  | operand u =>
    obtain ⟨rfl, rfl⟩ := List.cons.inj hus
    rw [u.isA] at ht
    cases ht
  | ahead u | between u =>
    obtain ⟨rfl, rfl⟩ := List.cons.inj hus
    have := u.isParenthesis
    simp [Token.isParenthesis, ht] at this
  | opening ho =>
    obtain ⟨rfl, rfl⟩ := List.cons.inj hus
    rw [not_isA_closeParen ho] at ht
    cases ht
  | closing _ h =>
    obtain ⟨rfl, rfl⟩ := List.cons.inj hus
    exact ⟨rfl, h⟩

theorem Derives.alternates {l : Nat} {ts : List Token} {e : Tree} (h : Derives l ts e) :
    Alternates false ts true := by
  induction h with
  | operand t => exact .operand t (.done true)
  | group ho hc _ ih => exact .opening ho (ih.append (.closing hc (.done true)))
  | ahead t _ ih => exact .ahead t ih
  | leftward t _ _ _ ihl ihr => exact ihl.append (.between t ihr)
  | rightward t _ _ _ ihl ihr => exact ihl.append (.between t ihr)
  | tighter _ ih => exact ih

theorem Derives.openAfter? {l : Nat} {ts : List Token} {e : Tree} (h : Derives l ts e)
    (groups : List Token) : ts.foldlM openAfter? groups = some groups := by
  induction h generalizing groups with
  | operand t => simp [t.isParenthesis]
  | group ho hc _ ih => simp [ho, hc, List.foldlM_append, ih]
  | ahead t _ ih => simp [t.isParenthesis, ih]
  | leftward t _ _ _ ihl ihr => simp [t.isParenthesis, List.foldlM_append, ihl, ihr]
  | rightward t _ _ _ ihl ihr => simp [t.isParenthesis, List.foldlM_append, ihl, ihr]
  | tighter _ ih => exact ih groups

theorem Derives.foldl_depthAfter {l : Nat} {ts : List Token} {e : Tree} (h : Derives l ts e)
    (depth : Nat) : ts.foldl depthAfter depth = depth := by
  induction h generalizing depth with
  | operand t => simp [t.isParenthesis]
  | group ho hc _ ih => simp [ho, hc, ih]
  | ahead t _ ih => simp [t.isParenthesis, ih]
  | leftward t _ _ _ ihl ihr => simp [t.isParenthesis, ihl, ihr]
  | rightward t _ _ _ ihl ihr => simp [t.isParenthesis, ihl, ihr]
  | tighter _ ih => exact ih depth

theorem Derives.deepest_between {l : Nat} {ts us : List Token} {e : Tree} (h : Derives l ts e)
    (t : OperatorToken 2) (depth : Nat) :
    deepest depth (ts ++ t.token :: us) = max (deepest depth ts) (deepest depth us) := by
  have hle := le_deepest depth us
  rw [deepest_append, h.foldl_depthAfter, deepest, depthAfter_other t.isParenthesis]
  omega

/-! ## From turns to derivations -/

theorem exists_operand {ts : List Token} (hb : Balanced ts) (ha : Alternates false ts true)
    (inner : ∀ us : List Token, us.length < ts.length → Balanced us →
      Alternates false us true → Derivable us) :
    ∃ us e rest, ts = us ++ rest ∧ us ≠ [] ∧ Derives 17 us e ∧ Balanced rest ∧
      Alternates true rest true := by
  induction ts with
  | nil => cases ha
  | cons t ts ih =>
    cases ha with
    | operand t h =>
      have hd : Derives 18 [t.token] (.leaf t) := .operand t
      exact ⟨[t.token], _, ts, rfl, List.cons_ne_nil _ _, hd.tighter, hb.tail t.isParenthesis, h⟩
    | ahead t h =>
      obtain ⟨us, e, rest, rfl, _, hd, hr⟩ := ih (hb.tail t.isParenthesis) h
        fun us hus => inner us (Nat.lt_succ_of_lt hus)
      exact ⟨t.token :: us, _, rest, rfl, List.cons_ne_nil _ _, .ahead t hd, hr⟩
    | opening ht h =>
      obtain ⟨us, close, rest, rfl, hc, hus, hr⟩ := hb.group ht
      obtain ⟨b, hin, hout⟩ := h.split
      obtain ⟨rfl, hrest⟩ := hout.of_closing hc
      have hlt : us.length < (t :: (us ++ close :: rest)).length := by
        simp only [List.length_cons, List.length_append]
        omega
      obtain ⟨e, he⟩ := inner us hlt hus hin
      refine ⟨t :: (us ++ [close]), e, rest, by simp, List.cons_ne_nil _ _, ?_, hr, hrest⟩
      exact (Derives.group ht hc he).tighter

theorem Derives.complete {n : Nat} {ts rest : List Token} {e : Tree} (h : Derives 1 ts e)
    (hb : Balanced rest) (ha : Alternates true rest true) (hn : rest.length ≤ n)
    (inner : ∀ us : List Token, us.length < n → Balanced us → Alternates false us true →
      Derivable us) : Derivable (ts ++ rest) := by
  induction n generalizing ts rest e with
  | zero =>
    obtain rfl := List.length_eq_zero_iff.1 (Nat.le_zero.1 hn)
    rw [List.append_nil]
    exact ⟨e, h⟩
  | succ n ih =>
    cases ha with
    | done =>
      rw [List.append_nil]
      exact ⟨e, h⟩
    | @between t rest _ hr =>
      have hlen : rest.length ≤ n := Nat.le_of_succ_le_succ hn
      have hle := (precedence_of_binary t.arity_eq).1
      obtain ⟨us, f, rest', rfl, hus, hf, hb', ha'⟩ := exists_operand (hb.tail t.isParenthesis) hr
        fun us hlt => inner us (by omega)
      obtain ⟨g, hg⟩ := h.extend t hle hf
      have hpos := List.length_pos_iff.2 hus
      rw [List.length_append] at hlen
      have := ih hg hb' ha' (by omega) fun us hlt => inner us (by omega)
      rwa [List.append_assoc, List.cons_append] at this
    | closing ht =>
      rw [hb.not_close] at ht
      cases ht

theorem derivable_of_alternates {ts : List Token} (hb : Balanced ts)
    (ha : Alternates false ts true) : Derivable ts := by
  generalize hn : ts.length = n
  -- on the length: what stands in the first group is shorter, and so is what follows an operator
  induction n using Nat.strongRecOn generalizing ts with
  | _ n ih =>
    subst hn
    have inner (us : List Token) (hlt : us.length < ts.length) (hb : Balanced us)
        (ha : Alternates false us true) : Derivable us := ih us.length hlt hb ha rfl
    obtain ⟨us, e, rest, rfl, hus, he, hr, har⟩ := exists_operand hb ha inner
    exact (he.looser (by decide)).complete hr har (by simp) inner

/-- The expressions are the balanced lists in which operands and binary operators take turns. -/
theorem derivable_iff {ts : List Token} :
    Derivable ts ↔ Balanced ts ∧ Alternates false ts true := by
  constructor
  · rintro ⟨e, he⟩
    exact ⟨he.openAfter? [], he.alternates⟩
  · rintro ⟨hb, ha⟩
    exact derivable_of_alternates hb ha

end Calculator.Grammar
