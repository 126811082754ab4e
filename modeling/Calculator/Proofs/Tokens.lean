import Calculator.Token.Lexer

/-!
# Tokens of any text

What a lexer makes of a text, whatever it holds: `scan_cons` is one piece, and from it follow facts
about all tokens. Every token takes at least one character (`length_scan_le`), every operator token
has its operator (`consistent_of_scan`), and a text without tokens holds a character that starts
nothing or a literal without a value (`scan_eq_error`).
-/

namespace Calculator

namespace Token

theorem Consistent.asUnary {t : Token} (h : t.Consistent) : t.asUnary.Consistent := by
  unfold Token.asUnary
  split
  · split
    · exact fun _ => rfl
    · exact h
  · exact h

theorem forall_resolveSignsFrom {P : Token → Prop} (hunary : ∀ t, P t → P t.asUnary)
    {ts : List Token} (h : ∀ t ∈ ts, P t) (afterOperand : Bool) :
    ∀ t ∈ resolveSignsFrom afterOperand ts, P t := by
  induction ts generalizing afterOperand with
  | nil => exact h
  | cons t ts ih =>
    obtain ⟨ht, hts⟩ := List.forall_mem_cons.1 h
    rw [resolveSignsFrom]
    refine List.forall_mem_cons.2 ⟨?_, ih hts _⟩
    cases afterOperand
    · exact hunary t ht
    · exact ht

theorem consistent_resolveSignsFrom {ts : List Token} (h : ∀ t ∈ ts, t.Consistent)
    (afterOperand : Bool) : ∀ t ∈ resolveSignsFrom afterOperand ts, t.Consistent :=
  forall_resolveSignsFrom (fun _ ht => ht.asUnary) h afterOperand

theorem filter_resolveSignsFrom (afterOperand : Bool) (ts : List Token) :
    (resolveSignsFrom afterOperand ts).filter (!·.isOperator) = ts.filter (!·.isOperator) := by
  induction ts generalizing afterOperand with
  | nil => rfl
  | cons t ts ih =>
    simp only [resolveSignsFrom]
    by_cases ht : t.isOperator = true
    · have htaken : (if afterOperand = true then t else t.asUnary).isOperator = true := by
        split <;> simp [ht]
      rw [List.filter_cons_of_neg (by simp [htaken]), List.filter_cons_of_neg (by simp [ht]), ih]
    · have htaken : (if afterOperand = true then t else t.asUnary) = t := by
        simp [asUnary, ht]
      rw [htaken, List.filter_cons_of_pos (by simp [ht]), List.filter_cons_of_pos (by simp [ht]),
        ih]

end Token

namespace Lexicon

open Text

variable {x : Lexicon} {position : Nat}

theorem consistent_of_token? {p : Piece} {t : Token} (h : p.token? position = some t) :
    t.Consistent := by
  cases p with
  | blank => cases h
  | operator o =>
    cases h
    exact fun _ => rfl
  | symbol name =>
    cases h
    rintro ⟨⟩
  | number m =>
    cases h
    rintro ⟨⟩

theorem pieceAt_cases {c : Char} {cs : List Char} {p : Piece}
    (h : x.pieceAt c cs = .ok (some p)) :
    (p = .blank ∧ isBlank c = true) ∨
    (∃ o, p = .operator o ∧ Operator.ofText? (c :: cs) = some o) ∨
    (p = .symbol (nameRun (c :: cs)) ∧ x.isName (nameRun (c :: cs)) = true) ∨
    ∃ m, p = .number m ∧ x.scanner.scan x.options (c :: cs) = .ok m ∧ m.text ≠ [] := by
  unfold pieceAt at h
  split at h
  · next hblank =>
    cases h
    exact .inl ⟨rfl, hblank⟩
  · split at h
    · next o ho =>
      cases h
      exact .inr (.inl ⟨o, rfl, ho⟩)
    · split at h
      · next hname =>
        cases h
        exact .inr (.inr (.inl ⟨rfl, hname⟩))
      · obtain ⟨m, hm, hp⟩ := Result.map_eq_ok_iff.1 h
        split at hp
        · cases hp
        · next hne =>
          cases hp
          exact .inr (.inr (.inr ⟨m, rfl, hm, hne⟩))

/-- Every token is that of a piece somewhere in the text. -/
theorem exists_piece_of_scan {cs : List Char} {ts : List Token} {t : Token}
    (h : x.scan position cs = .ok ts) (ht : t ∈ ts) :
    ∃ c rest p i, x.pieceAt c rest = .ok (some p) ∧ p.token? i = some t := by
  fun_induction x.scan position cs generalizing ts with
  | case1 =>
    cases h
    cases ht
  | case2 => cases h
  | case3 => cases h
  | case4 position c cs p hp ih =>
    obtain ⟨us, hus, rfl⟩ := Result.map_eq_ok_iff.1 h
    rcases List.mem_append.1 ht with ht | ht
    · exact ⟨c, cs, p, position, hp, Option.mem_toList.1 ht⟩
    · exact ih hus ht

theorem consistent_of_scan {cs : List Char} {ts : List Token} (h : x.scan position cs = .ok ts) :
    ∀ t ∈ ts, t.Consistent := by
  intro t ht
  obtain ⟨_, _, _, _, _, htoken⟩ := exists_piece_of_scan h ht
  exact consistent_of_token? htoken

theorem length_scan_le {cs : List Char} {ts : List Token} (h : x.scan position cs = .ok ts) :
    ts.length ≤ cs.length := by
  fun_induction x.scan position cs generalizing ts with
  | case1 =>
    cases h
    exact Nat.le_refl _
  | case2 => cases h
  | case3 => cases h
  | case4 position c cs p hp ih =>
    obtain ⟨us, hus, rfl⟩ := Result.map_eq_ok_iff.1 h
    have hrest := ih hus
    have htoken : (p.token? position).toList.length ≤ 1 := by
      cases p <;> simp [Piece.token?]
    simp only [List.length_drop, List.length_append, List.length_cons] at hrest ⊢
    omega

theorem pieceAt_eq_error {c : Char} {cs : List Char} {f : Literal.Fault}
    (h : x.pieceAt c cs = .error f) : x.scanner.scan x.options (c :: cs) = .error f := by
  unfold pieceAt at h
  split at h
  · cases h
  · split at h
    · cases h
    · split at h
      · cases h
      · exact Result.map_eq_error_iff.1 h

theorem scan_eq_error {cs : List Char} {p : Problem} (h : x.scan position cs = .error p) :
    (∃ f rest, x.scanner.scan x.options rest = .error f ∧ p = .fault (.literal f)) ∨
      ∃ c i, p = .error { cause := .unknownCharacter c i } := by
  fun_induction x.scan position cs with
  | case1 => cases h
  | case2 position c cs f hp =>
    cases h
    exact .inl ⟨f, c :: cs, pieceAt_eq_error hp, rfl⟩
  | case3 position c cs hp =>
    cases h
    exact .inr ⟨c, position, rfl⟩
  | case4 position c cs p hp ih => exact ih (Result.map_eq_error_iff.1 h)

/-! ## Sources -/

theorem rawTokens_eq_ok_iff {limits : Limits} {source : String} {ts : List Token} :
    x.rawTokens limits source = .ok ts ↔
      source.length ≤ limits.length ∧ x.scan 0 source.toList = .ok ts ∧
        ts.length ≤ limits.tokens := by
  unfold rawTokens
  constructor
  · intro h
    obtain ⟨_, hlength, h⟩ := Result.bind_eq_ok_iff.1 h
    obtain ⟨us, hscan, h⟩ := Result.bind_eq_ok_iff.1 h
    obtain ⟨_, htokens, h⟩ := Result.bind_eq_ok_iff.1 h
    cases h
    exact ⟨Limits.require_eq_ok_iff.1 hlength, Result.mapError_eq_ok_iff.1 hscan,
      Limits.require_eq_ok_iff.1 htokens⟩
  · rintro ⟨hlength, hscan, htokens⟩
    have hlength : limits.require .length source.length = .ok () :=
      Limits.require_eq_ok_iff.2 hlength
    have htokens : limits.require .tokens ts.length = .ok () := Limits.require_eq_ok_iff.2 htokens
    rw [hlength, hscan]
    show (limits.require .tokens ts.length >>= fun _ => .ok ts) = .ok ts
    rw [htokens]
    rfl

theorem tokens_eq_ok_iff {limits : Limits} {source : String} {ts : List Token} :
    x.tokens limits source = .ok ts ↔
      source.length ≤ limits.length ∧ ts.length ≤ limits.tokens ∧
        ∃ us, x.scan 0 source.toList = .ok us ∧ Token.resolveSigns us = ts := by
  rw [tokens, Result.map_eq_ok_iff]
  constructor
  · rintro ⟨us, hraw, rfl⟩
    obtain ⟨hlength, hscan, htokens⟩ := rawTokens_eq_ok_iff.1 hraw
    exact ⟨hlength, (Token.length_resolveSignsFrom false us).symm ▸ htokens, us, hscan, rfl⟩
  · rintro ⟨hlength, htokens, us, hscan, rfl⟩
    rw [Token.resolveSigns, Token.length_resolveSignsFrom] at htokens
    exact ⟨us, rawTokens_eq_ok_iff.2 ⟨hlength, hscan, htokens⟩, rfl⟩

theorem consistent_of_tokens {limits : Limits} {source : String} {ts : List Token}
    (h : x.tokens limits source = .ok ts) : ∀ t ∈ ts, t.Consistent := by
  obtain ⟨_, _, us, hscan, rfl⟩ := tokens_eq_ok_iff.1 h
  exact Token.consistent_resolveSignsFrom (consistent_of_scan hscan) false

theorem tokens_eq_error_iff {limits : Limits} {source : String} {p : Problem} :
    x.tokens limits source = .error p ↔
      (limits.length < source.length ∧
        p = .error { cause := .limit ⟨.length, limits.length, source.length⟩ }) ∨
      (source.length ≤ limits.length ∧ ∃ q, x.scan 0 source.toList = .error q ∧
        p = q.within source) ∨
      (source.length ≤ limits.length ∧ ∃ ts, x.scan 0 source.toList = .ok ts ∧
        limits.tokens < ts.length ∧
        p = .error { cause := .limit ⟨.tokens, limits.tokens, ts.length⟩ }) := by
  have hraw : x.tokens limits source = .error p ↔ x.rawTokens limits source = .error p :=
    Result.map_eq_error_iff
  rw [hraw, rawTokens]
  constructor
  · intro h
    rcases Result.bind_eq_error_iff.1 h with h | ⟨_, hlength, h⟩
    · exact .inl (Limits.require_eq_error_iff.1 h)
    have hlength := Limits.require_eq_ok_iff.1 hlength
    rcases Result.bind_eq_error_iff.1 h with h | ⟨ts, hscan, h⟩
    · obtain ⟨q, hq, rfl⟩ := Result.mapError_eq_error_iff.1 h
      exact .inr (.inl ⟨hlength, q, hq, rfl⟩)
    rcases Result.bind_eq_error_iff.1 h with h | ⟨_, _, h⟩
    · exact .inr (.inr ⟨hlength, ts, Result.mapError_eq_ok_iff.1 hscan,
        Limits.require_eq_error_iff.1 h⟩)
    · cases h
  · rintro (h | ⟨hlength, q, hscan, rfl⟩ | ⟨hlength, ts, hscan, htokens⟩)
    · exact Result.bind_eq_error_iff.2 (.inl (Limits.require_eq_error_iff.2 h))
    · have hlength : limits.require .length source.length = .ok () :=
        Limits.require_eq_ok_iff.2 hlength
      rw [hlength, hscan]
      rfl
    · have hlength : limits.require .length source.length = .ok () :=
        Limits.require_eq_ok_iff.2 hlength
      have htokens : limits.require .tokens ts.length = .error p :=
        Limits.require_eq_error_iff.2 htokens
      rw [hlength, hscan]
      show (limits.require .tokens ts.length >>= fun _ => .ok ts) = .error p
      rw [htokens]
      rfl

end Lexicon

end Calculator
