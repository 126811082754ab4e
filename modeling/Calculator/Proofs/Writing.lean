import Calculator.Proofs.Grammar
import Calculator.Proofs.Lexing

/-!
# Writing and reading

`Written p ts cs`: the text `cs`, whose first character is at index `p` of a source, consists of
the tokens `ts`, each at its own position, with blanks around them or none. `Spelled` tokens are
those that can be written.

No two neighbours in an expression run together (`Written.stops`, `Written.not_extends`), so a
lexer finds every token where it was written, and the place of a sign tells which one was meant.
-/

namespace Calculator

open Grammar Text

inductive Written : Nat → List Token → List Char → Prop where
  | done (p : Nat) : Written p [] []
  | blank {p : Nat} {c : Char} {ts : List Token} {cs : List Char} (hc : isBlank c = true)
      (h : Written (p + 1) ts cs) : Written p ts (c :: cs)
  | token {t : Token} {ts : List Token} {cs : List Char}
      (h : Written (t.position + t.text.toList.length) ts cs) :
      Written t.position (t :: ts) (t.text.toList ++ cs)

/-- Operators, identifiers, and whole unsigned literals. -/
inductive Spelled : Token → Prop where
  | operator (o : Operator) (p : Nat) : Spelled (.ofOperator o p)
  | name {name : String} (h : isIdentifier name = true) (p : Nat) : Spelled (.ofSymbol name p)
  | number {text : String} {x : Float} (h : Literal.scan {} text.toList = .ok ⟨text.toList, x⟩)
      (hne : text.toList ≠ []) (p : Nat) : Spelled (.ofNumber text x p)

/-- The token as a lexer reads it, before signs are resolved. -/
def Token.asRead (t : Token) : Token := { t with operator? := t.operator?.map Operator.asRead }

theorem Spelled.exists_ofOperator {t : Token} (h : Spelled t) {o : Operator}
    (ht : t.isA o = true) : ∃ p, t = .ofOperator o p := by
  cases h with
  | operator o' p =>
    obtain rfl : o' = o := Option.some.inj (Token.operator?_of_isA ht)
    exact ⟨p, rfl⟩
  | name _ p => cases Token.isOperator_of_isA ht
  | number _ _ p => cases Token.isOperator_of_isA ht

theorem Spelled.ne_nil {t : Token} (h : Spelled t) : t.text.toList ≠ [] := by
  cases h with
  | operator o p => exact Operator.lexeme_ne_nil o
  | @name name h p =>
    obtain ⟨c, cs, hcs, _⟩ := Lexicon.isIdentifier_iff.1 h
    show name.toList ≠ []
    rw [hcs]
    exact List.cons_ne_nil _ _
  | number _ hne p => exact hne

theorem Spelled.startsOperand {t : Token} (h : Spelled t) (ht : t.isOperator = false) :
    ∀ c ∈ t.text.toList.head?, startsOperand c = true := by
  intro d hd
  cases h with
  | operator o p => cases ht
  | name h p =>
    obtain ⟨c, cs, hcs, hc, _⟩ := Lexicon.isIdentifier_iff.1 h
    obtain rfl : c = d := by simpa [Token.ofSymbol, hcs] using hd
    simp [Text.startsOperand, hc]
  | @number text x h hne p =>
    cases hcs : text.toList with
    | nil => exact absurd hcs hne
    | cons c cs =>
      obtain rfl : c = d := by simpa [Token.ofNumber, hcs] using hd
      rw [hcs] at h
      rcases Literal.first_of_scan rfl h (List.cons_ne_nil _ _) with hc | rfl
      · simp [Text.startsOperand, hc]
      · decide

/-! ## Neighbours -/

theorem OperandToken.endsOperand (t : OperandToken) : t.token.endsOperand = true := by
  simp [Token.endsOperand, t.isOperand]

theorem OperatorToken.endsOperand {n : Nat} (t : OperatorToken (n + 1)) :
    t.token.endsOperand = false := by
  simp [Token.endsOperand, t.isOperator, (Bool.or_eq_false_iff.1 t.isParenthesis).2]

theorem Grammar.Alternates.tail {a b : Bool} {t : Token} {ts : List Token}
    (h : Alternates a (t :: ts) b) : Alternates t.endsOperand ts b := by
  cases h with
  | operand u h | ahead u h | between u h =>
    rw [u.endsOperand]
    exact h
  | opening ht h =>
    rw [Token.endsOperand, Token.isOperator_of_isA ht, Nesting.not_isA_closeParen ht]
    exact h
  | closing ht h =>
    rw [Token.endsOperand, ht, Bool.not_true, Bool.and_false]
    exact h

theorem mem_head?_of_append {cs ds : List Char} (hne : cs ≠ []) {c : Char}
    (h : c ∈ (cs ++ ds).head?) : c ∈ cs.head? := by
  cases cs with
  | nil => exact absurd rfl hne
  | cons _ _ => exact h

theorem Written.stops {p : Nat} {ts : List Token} {cs : List Char} (h : Written p ts cs)
    (hs : ∀ t ∈ ts, Spelled t) {b : Bool} (ha : Alternates true ts b) : Literal.Stops {} cs := by
  cases h with
  | done => exact nofun
  | blank hblank h =>
    refine stops_of_blank fun c hc => ?_
    obtain rfl := Option.some.inj hc
    exact hblank
  | @token t ts cs h =>
    have ht := hs t List.mem_cons_self
    have hop : ∃ o, t.isA o = true := by
      cases ha with
      | between u => exact ⟨u.operator, u.isA⟩
      | closing hclose => exact ⟨_, hclose⟩
    obtain ⟨o, ho⟩ := hop
    obtain ⟨p, rfl⟩ := ht.exists_ofOperator ho
    refine stops_of_head fun c hc => ?_
    exact Operator.not_isNameChar_lexeme o c (mem_head?_of_append ht.ne_nil hc)

theorem Written.not_extends {p : Nat} {ts : List Token} {cs : List Char} (h : Written p ts cs)
    (hs : ∀ t ∈ ts, Spelled t) {b : Bool} (ha : Alternates false ts b) :
    ∀ c ∈ cs.head?, c ≠ '=' ∧ c ≠ '*' := by
  intro c hc
  cases h with
  | done => cases hc
  | blank hblank h =>
    obtain rfl := Option.some.inj hc
    constructor <;> rintro rfl <;> cases hblank
  | @token t ts cs h =>
    have ht := hs t List.mem_cons_self
    have hc := mem_head?_of_append ht.ne_nil hc
    cases ha with
    | operand u =>
      have hstart := ht.startsOperand u.isOperand c hc
      constructor <;> rintro rfl <;> cases hstart
    | ahead u =>
      obtain ⟨p, hp⟩ := ht.exists_ofOperator u.isA
      rw [hp] at hc
      exact Operator.not_extends_lexeme (.inl u.arity_eq) c hc
    | opening hopen =>
      obtain ⟨p, rfl⟩ := ht.exists_ofOperator hopen
      exact Operator.not_extends_lexeme (.inr rfl) c hc

/-! ## Reading back -/

variable {x : Lexicon}

theorem Spelled.scan {t : Token} (hs : Spelled t)
    (names : ∀ n, x.bound n = true → isIdentifier n = true) (scanner : x.scanner = .literals)
    (options : x.options = {}) {rest : List Char}
    (hoperand : t.isOperator = false → Literal.Stops {} rest)
    (hoperator : t.isOperator = true →
      t.isA .closeParen = true ∨ ∀ c ∈ rest.head?, c ≠ '=' ∧ c ≠ '*') :
    x.scan t.position (t.text.toList ++ rest) =
      (x.scan (t.position + t.text.toList.length) rest).map (t.asRead :: ·) := by
  cases hs with
  | operator o p =>
    have hrest : o = .closeParen ∨ ∀ c ∈ rest.head?, c ≠ '=' ∧ c ≠ '*' := by
      rcases hoperator rfl with hclose | hc
      · exact .inl (Option.some.inj (Token.operator?_of_isA hclose))
      · exact .inr hc
    have htoken : (Token.ofOperator o p).asRead = .ofOperator o.asRead p := by
      show Token.mk _ o.lexeme p _ _ = Token.mk _ o.asRead.lexeme p _ _
      rw [Operator.lexeme_asRead]
      rfl
    rw [htoken]
    exact Lexicon.scan_operator hrest p
  | name h p => 
    exact Lexicon.scan_word (Lexicon.knows_of_isIdentifier h)
      (fun c hc => (hoperand rfl c hc).1) p
  | number h hne p =>
    rw [← options] at h hoperand
    exact Lexicon.scan_number names scanner (by rw [options]) h hne (hoperand rfl) p

theorem Written.scan (names : ∀ n, x.bound n = true → isIdentifier n = true)
    (scanner : x.scanner = .literals) (options : x.options = {}) {p : Nat} {ts : List Token}
    {cs : List Char} (h : Written p ts cs) (hs : ∀ t ∈ ts, Spelled t) {b : Bool}
    (ha : Alternates b ts true) : x.scan p cs = .ok (ts.map Token.asRead) := by
  induction h generalizing b with
  | done p => rw [Lexicon.scan]; rfl
  | blank hc h ih => rw [Lexicon.scan_blank hc, ih hs ha]
  | @token t ts cs h ih =>
    have ht := hs t List.mem_cons_self
    have hts : ∀ u ∈ ts, Spelled u := fun u hu => hs u (List.mem_cons_of_mem _ hu)
    have htail := ha.tail
    rw [ht.scan names scanner options, ih hts htail]
    · rfl
    · intro hop
      rw [Token.endsOperand, hop] at htail
      exact h.stops hts htail
    · intro hop
      cases hclose : t.isA .closeParen with
      | true => exact .inl rfl
      | false =>
        rw [Token.endsOperand, hop, hclose] at htail
        exact .inr (h.not_extends hts htail)

/-- The place of a sign tells which operator was meant. -/
theorem Spelled.sign {t : Token} (hs : Spelled t) {ts : List Token} {a b : Bool}
    (h : Alternates a (t :: ts) b) : (if a then t.asRead else t.asRead.asUnary) = t := by
  cases h with
  | operand u h =>
    obtain ⟨t, ht⟩ := u
    cases hs with
    | operator o p => cases ht
    | name h p => rfl
    | number h hne p => rfl
  | ahead u h | between u h =>
    obtain ⟨p, hp⟩ := hs.exists_ofOperator u.isA
    have harity := u.arity_eq
    rw [hp]
    cases hop : u.operator <;> rw [hop] at harity <;> first | rfl | cases harity
  | opening ht h | closing ht h =>
    obtain ⟨p, rfl⟩ := hs.exists_ofOperator ht
    rfl

theorem resolveSignsFrom_asRead {ts : List Token} (hs : ∀ t ∈ ts, Spelled t) {a b : Bool}
    (ha : Alternates a ts b) : Token.resolveSignsFrom a (ts.map Token.asRead) = ts := by
  induction ts generalizing a with
  | nil => rfl
  | cons t ts ih =>
    have hsign := (hs t List.mem_cons_self).sign ha
    have hts := ih (fun u hu => hs u (List.mem_cons_of_mem _ hu)) ha.tail
    rw [List.map_cons, Token.resolveSignsFrom, hsign, hts]

/-- A written expression is read back token by token. -/
theorem tokens_of_written {bound : String → Bool} {limits : Limits} {source : String}
    {ts : List Token} (names : ∀ n, bound n = true → isIdentifier n = true)
    (hd : Derivable ts) (hs : ∀ t ∈ ts, Spelled t) (hw : Written 0 ts source.toList)
    (hlength : source.length ≤ limits.length) (htokens : ts.length ≤ limits.tokens) :
    ({ bound } : Lexicon).tokens limits source = .ok ts := by
  obtain ⟨e, he⟩ := hd
  have hscan : ({ bound } : Lexicon).scan 0 source.toList = .ok (ts.map Token.asRead) :=
    hw.scan names rfl rfl hs he.alternates
  have hlen : limits.require .length source.length = .ok () := Limits.require_eq_ok_iff.2 hlength
  have hcount : limits.require .tokens (ts.map Token.asRead).length = .ok () := by
    rw [List.length_map]
    exact Limits.require_eq_ok_iff.2 htokens
  have hraw : ({ bound } : Lexicon).rawTokens limits source = .ok (ts.map Token.asRead) := by
    rw [Lexicon.rawTokens, hlen, Result.ok_bind, hscan]
    simp only [Result.ok_mapError, Result.ok_bind, hcount]
    rfl
  rw [Lexicon.tokens, hraw]
  exact congrArg Except.ok (resolveSignsFrom_asRead hs he.alternates)

/-- Nothing but one blank separates the tokens of `2*- x`, and all are found. -/
theorem tokens_of_written_sign :
    ({ bound := fun n => n == "x" } : Lexicon).tokens {} "2*- x" =
      .ok [.ofNumber "2" (Number.Decimal.mk 2 0).toFloat 0, .ofOperator .mul 1,
        .ofOperator .neg 2, .ofSymbol "x" 4] := by
  have hx : Alternates false [.ofSymbol "x" 4] true :=
    .operand ⟨.ofSymbol "x" 4, rfl⟩ (.done true)
  have hminus := Alternates.ahead ⟨.ofOperator .neg 2, .neg, rfl, rfl⟩ hx
  have htimes := Alternates.between ⟨.ofOperator .mul 1, .mul, rfl, rfl⟩ hminus
  have hturns := Alternates.operand
    ⟨.ofNumber "2" (Number.Decimal.mk 2 0).toFloat 0, rfl⟩ htimes
  have hw : Written 0 [.ofNumber "2" (Number.Decimal.mk 2 0).toFloat 0, .ofOperator .mul 1,
      .ofOperator .neg 2, .ofSymbol "x" 4] "2*- x".toList := by
    refine @Written.token (.ofNumber "2" (Number.Decimal.mk 2 0).toFloat 0) _
      ['*', '-', ' ', 'x'] ?_
    refine @Written.token (.ofOperator .mul 1) _ ['-', ' ', 'x'] ?_
    refine @Written.token (.ofOperator .neg 2) _ [' ', 'x'] (.blank (by decide) ?_)
    exact @Written.token (.ofSymbol "x" 4) _ [] (.done 5)
  refine tokens_of_written (fun n hn => ?_) (derivable_iff.2 ⟨?_, hturns⟩) ?_ hw (by decide)
    (by decide)
  · obtain rfl := beq_iff_eq.1 hn
    decide
  · rfl
  · simp only [List.forall_mem_cons]
    exact ⟨.number rfl (by decide) 0, .operator .mul 1, .operator .neg 2, .name (by decide) 4,
      fun _ h => nomatch h⟩

end Calculator
