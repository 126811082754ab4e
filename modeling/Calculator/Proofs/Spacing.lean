import Calculator.Proofs.Longest
import Calculator.Proofs.Placement
import Calculator.Proofs.Tiling
import Calculator.Proofs.Writing

/-!
# Tokens with blanks between them

The tokens of any text, expression or not, can be written down one by one with blanks between them.
What the scanner took from the middle of a text, behind a name or in front of a stray mark, is also
what it takes of that piece alone (`scan_self`), so every token is `Spelled`; and a blank goes on
nothing. The new text has the same tokens, up to where they stand, and so the same postfix order
(`tokens_of_spaced`).
-/

namespace Calculator

open Text

/-! ## Literals of their own -/

namespace Literal

variable {o : Options} {cs text : List Char}

theorem signRun_of_cuts (h : text <+: cs) (hne : text ≠ []) : signRun o text = signRun o cs := by
  obtain ⟨rest, rfl⟩ := h
  exact (signRun_append hne).symm

theorem scan_self (ho : o.standsApart = true) {m : Match} (h : scan o cs = .ok m)
    (hne : m.text ≠ []) : scan o m.text = .ok ⟨m.text, m.value⟩ := by
  have hsign : signRun o m.text = signRun o cs := signRun_of_cuts (scan_cuts h) hne
  rcases scan_cases ho rfl rfl with ⟨_, hscan⟩ | ⟨x, hnumeral, hscan⟩
  · rw [hscan] at h
    cases h
    exact absurd rfl hne
  rw [hscan] at h
  cases h
  dsimp only at hsign ⊢
  generalize signRun o cs = sign at hsign hnumeral ⊢
  generalize numeralRun o (cs.drop sign.length) = run at hsign hnumeral ⊢
  have hwithin : run <+: numeralRun o run := hnumeral.cuts_numeralRun ho (List.prefix_refl run)
  rcases scan_cases ho hsign List.drop_left with ⟨hnil, _⟩ | ⟨y, hnumeral', hscan'⟩
  · rw [hnil] at hwithin
    exact absurd (List.prefix_nil.1 hwithin) hnumeral.ne_nil
  · have hcuts : sign ++ numeralRun o run <+: sign ++ run := scan_cuts hscan'
    have hrun : numeralRun o run = run :=
      ((List.prefix_append_right_inj sign).1 hcuts).eq_of_length_le hwithin.length_le
    rw [hrun] at hnumeral' hscan'
    rw [hscan', hnumeral'.unique ho hnumeral]

end Literal

/-! ## Tokens of any text -/

namespace Lexicon

variable {x : Lexicon} {cs : List Char} {t : Token}

/-- Every token of a text can be written by itself, and is read as it is. -/
theorem spelled_of_scan (names : ∀ n, x.bound n = true → isIdentifier n = true)
    (scanner : x.scanner = .literals) (options : x.options = {}) {position : Nat}
    {ts : List Token} (h : x.scan position cs = .ok ts) (ht : t ∈ ts) :
    Spelled t ∧ t.asRead = t := by
  obtain ⟨c, rest, p, i, hp, htoken⟩ := exists_piece_of_scan h ht
  rcases pieceAt_cases hp with ⟨rfl, _⟩ | ⟨o, rfl, ho⟩ | ⟨rfl, hname⟩ | ⟨m, rfl, hm, hne⟩
  · cases htoken
  · cases htoken
    have hread : o.asRead = o := Operator.mem_spelled_iff.1 (List.mem_of_find?_eq_some ho)
    exact ⟨.operator o i, by simp [Token.asRead, Token.ofOperator, hread]⟩
  · cases htoken
    obtain ⟨_, hname⟩ := isName_nameRun_iff.1 hname
    exact ⟨.name (hname.elim (names _) id) i, rfl⟩
  · cases htoken
    rw [scanner, options] at hm
    have hself := Literal.scan_self (by decide) hm hne
    refine ⟨.number ?_ ?_ i, rfl⟩
    · rwa [String.toList_ofList]
    · rwa [String.toList_ofList]

end Lexicon

/-! ## Writing them again -/

/-- The text consists of the given texts in their order, with blanks wherever two of them meet. -/
inductive Spaced : List String → List Char → Prop
  | done : Spaced [] []
  | blank {c : Char} {texts : List String} {cs : List Char} (hc : isBlank c = true)
    (h : Spaced texts cs) : Spaced texts (c :: cs)
  | text {text : String} {texts : List String} {cs : List Char} (h : Spaced texts cs)
    (hgap : ∀ c ∈ cs.head?, isBlank c = true) : Spaced (text :: texts) (text.toList ++ cs)

theorem Spelled.relocate {t : Token} (h : Spelled t) (f : Nat → Nat) : Spelled (t.relocate f) := by
  cases h with
  | operator o p => exact .operator o (f p)
  | name h p => exact .name h (f p)
  | number h hne p => exact .number h hne (f p)

section

variable {x : Lexicon}

theorem Spaced.scan (names : ∀ n, x.bound n = true → isIdentifier n = true)
    (scanner : x.scanner = .literals) (options : x.options = {}) {texts : List String}
    {cs : List Char} (h : Spaced texts cs) {ts : List Token} (htexts : ts.map Token.text = texts)
    (hts : ∀ t ∈ ts, Spelled t ∧ t.asRead = t) (position : Nat) :
    ∃ us, x.scan position cs = .ok us ∧ us.map Token.unplaced = ts.map Token.unplaced := by
  induction h generalizing ts position with
  | done =>
    obtain rfl := List.map_eq_nil_iff.1 htexts
    exact ⟨[], by rw [Lexicon.scan], rfl⟩
  | blank hc _ ih =>
    rw [Lexicon.scan_blank hc]
    exact ih htexts hts (position + 1)
  | @text text texts cs _ hgap ih =>
    obtain ⟨t, ts, rfl, rfl, hrest⟩ := List.map_eq_cons_iff.1 htexts
    obtain ⟨⟨ht, hread⟩, hts⟩ := List.forall_mem_cons.1 hts
    have hstep := (ht.relocate fun _ => position).scan names scanner options
      (fun _ => stops_of_blank hgap) (fun _ => .inr fun c hc => ?_)
    · obtain ⟨us, hus, hsame⟩ := ih hrest hts (position + t.text.toList.length)
      refine ⟨t.asRead.relocate (fun _ => position) :: us, ?_, ?_⟩
      · exact hstep.trans (by rw [Token.text_relocate, Token.position_relocate, hus]; rfl)
      · rw [hread, List.map_cons, List.map_cons, hsame]
        rfl
    · constructor <;> rintro rfl <;> cases hgap _ hc

end

theorem Token.map_text_resolveSignsFrom (afterOperand : Bool) (ts : List Token) :
    (resolveSignsFrom afterOperand ts).map text = ts.map text := by
  induction ts generalizing afterOperand with
  | nil => rfl
  | cons t ts ih => cases afterOperand <;> simp [resolveSignsFrom, ih]

/--
The tokens of a text, written with blanks between them, are again the tokens of what is written, and
go into the same postfix order or into none; only their places are others.
-/
theorem tokens_of_spaced {bound : String → Bool} {limits : Limits} {source text : String}
    {ts : List Token} (names : ∀ n, bound n = true → isIdentifier n = true)
    (h : ({ bound } : Lexicon).tokens limits source = .ok ts)
    (hspaced : Spaced (ts.map Token.text) text.toList) (hlength : text.length ≤ limits.length) :
    ∃ us, ({ bound } : Lexicon).tokens limits text = .ok us ∧
      us.map Token.unplaced = ts.map Token.unplaced ∧
      (Postfix.ofTokens limits (some text) us).toOption.map (List.map Token.unplaced) =
        (Postfix.ofTokens limits (some source) ts).toOption.map (List.map Token.unplaced) := by
  obtain ⟨_, hcount, raw, hscan, rfl⟩ := Lexicon.tokens_eq_ok_iff.1 h
  have hspelled := fun t ht => Lexicon.spelled_of_scan names rfl rfl hscan (t := t) ht
  obtain ⟨raw', hscan', hsame⟩ := hspaced.scan (x := { bound }) names rfl rfl
    (Token.map_text_resolveSignsFrom false raw).symm hspelled 0
  have hresolved : (Token.resolveSigns raw').map Token.unplaced =
      (Token.resolveSigns raw).map Token.unplaced := by
    unfold Token.unplaced at hsame ⊢
    rw [Token.resolveSigns, Token.resolveSigns, ← Token.resolveSignsFrom_relocate, hsame,
      Token.resolveSignsFrom_relocate]
  have hcount' : (Token.resolveSigns raw').length ≤ limits.tokens := by
    have hlengths := congrArg List.length hresolved
    rw [List.length_map, List.length_map] at hlengths
    omega
  exact ⟨_, Lexicon.tokens_eq_ok_iff.2 ⟨hlength, hcount', raw', hscan', rfl⟩, hresolved,
    Postfix.ofTokens_unplaced hresolved _⟩

/-- In `0b2` no binary digit stands behind the mark: it is a zero and a name, as `0 b2` is. -/
theorem tokens_of_spaced_mark :
    (({} : Lexicon).tokens {} "0b2" =
      .ok [.ofNumber "0" (Number.Decimal.mk 0 0).toFloat 0, .ofSymbol "b2" 1]) ∧
    Spaced ["0", "b2"] "0\tb2 ".toList ∧
    ∃ us, ({} : Lexicon).tokens {} "0\tb2 " = .ok us ∧
      us.map Token.unplaced =
        [.ofNumber "0" (Number.Decimal.mk 0 0).toFloat 0, .ofSymbol "b2" 0] := by
  have hname : Lexicon.scan {} 1 ['b', '2'] = .ok [.ofSymbol "b2" 1] := by
    refine (@Lexicon.scan_piece {} 'b' ['2'] [] (.symbol ['b', '2']) _ 1 rfl rfl rfl).trans ?_
    rw [Lexicon.scan]
    rfl
  have hscan : Lexicon.scan {} 0 "0b2".toList = (Lexicon.scan {} 1 ['b', '2']).map
      (Token.ofNumber "0" (Number.Decimal.mk 0 0).toFloat 0 :: ·) :=
    @Lexicon.scan_piece {} '0' [] ['b', '2']
      (.number ⟨['0'], (Number.Decimal.mk 0 0).toFloat⟩) _ 0 rfl rfl rfl
  rw [hname] at hscan
  have htokens : ({} : Lexicon).tokens {} "0b2" =
      .ok [.ofNumber "0" (Number.Decimal.mk 0 0).toFloat 0, .ofSymbol "b2" 1] :=
    Lexicon.tokens_eq_ok_iff.2 ⟨by decide, by decide, _, hscan, rfl⟩
  have hspaced : Spaced ["0", "b2"] "0\tb2 ".toList := by
    refine @Spaced.text "0" ["b2"] ['\t', 'b', '2', ' '] (.blank rfl ?_) (by rintro _ ⟨⟩; rfl)
    exact @Spaced.text "b2" [] [' '] (.blank rfl .done) (by rintro _ ⟨⟩; rfl)
  obtain ⟨us, hus, hsame, _⟩ := tokens_of_spaced (fun _ h => by cases h) htokens hspaced (by decide)
  exact ⟨htokens, hspaced, us, hus, hsame⟩

end Calculator
