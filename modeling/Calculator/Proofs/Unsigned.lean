import Calculator.Proofs.Longest
import Calculator.Proofs.Tiling

/-!
# Signs and literals

The option `signed` lets a literal begin with a sign. Where no sign stands a scanner does with it
what it does without (`scan_unsigned`). A lexer asks it nowhere else: a sign is an operator, and
where an operator starts no scanner is asked (`pieceAt_congr`). So the option changes no token and
no error of a text, and no number starts with a sign (`tokens_signed`).
-/

namespace Calculator

namespace Literal

variable {o : Options} {c : Char} {cs : List Char}

/-! ## The scanner -/

theorem signRun_eq_nil (h : ∀ c ∈ cs.head?, c ≠ '+' ∧ c ≠ '-') : signRun o cs = [] := by
  unfold signRun
  split
  · exact absurd rfl (h '+' rfl).1
  · exact absurd rfl (h '-' rfl).2
  · rfl

theorem scan_unsigned (h : ∀ c ∈ cs.head?, c ≠ '+' ∧ c ≠ '-') (signed : Bool) :
    scan { o with signed } cs = scan o cs := by
  unfold scan
  rw [signRun_eq_nil h, signRun_eq_nil h]
  rfl

end Literal

namespace Operator

theorem ofText?_cons_eq_none_iff {c : Char} {cs : List Char} :
    ofText? (c :: cs) = none ↔ c ∉ marks := by
  refine ⟨fun htext hc => ?_, fun hc => ofText?_of_not_mem_marks hc cs⟩
  have hmarks : (marks.all fun c => all.any fun o => o.lexeme.toList == [c]) = true := by decide
  obtain ⟨o, -, ho⟩ := List.any_eq_true.1 (List.all_eq_true.1 hmarks c hc)
  refine ofText?_eq_none_iff.1 htext o ?_
  rw [beq_iff_eq.1 ho]
  exact ⟨cs, rfl⟩

end Operator

namespace Lexicon

variable {x y : Lexicon} {c : Char} {cs : List Char}

/-! ## The lexer -/

/-- A scanner is asked only where no mark of an operator stands. -/
theorem pieceAt_congr (hbound : x.bound = y.bound)
    (hscan : c ∉ Operator.marks →
      x.scanner.scan x.options (c :: cs) = y.scanner.scan y.options (c :: cs)) :
    x.pieceAt c cs = y.pieceAt c cs := by
  unfold pieceAt isName
  split
  · rfl
  · cases ho : Operator.ofText? (c :: cs) with
    | some o => rfl
    | none => rw [hbound, hscan (Operator.ofText?_cons_eq_none_iff.1 ho)]

theorem scan_congr (h : ∀ c cs, x.pieceAt c cs = y.pieceAt c cs) (position : Nat)
    (cs : List Char) : x.scan position cs = y.scan position cs := by
  fun_induction x.scan position cs with
  | case1 => rw [scan]
  | case2 position c cs f hp => rw [scan, ← h, hp]
  | case3 position c cs hp => rw [scan, ← h, hp]
  | case4 position c cs p hp ih => rw [scan, ← h, hp, ih]

theorem tokens_congr (h : ∀ c cs, x.pieceAt c cs = y.pieceAt c cs) (limits : Limits)
    (source : String) : x.tokens limits source = y.tokens limits source := by
  unfold tokens rawTokens
  rw [scan_congr h]

theorem Stands.not_mem_marks {t : Token} (hx : x.scanner.Cuts) (h : x.Stands cs t)
    (hnumber : t.type = .number) : ∀ c ∈ t.text.toList.head?, c ∉ Operator.marks := by
  intro c hc
  obtain ⟨rest, hrest⟩ := (h.text_cuts hx).1
  obtain ⟨ds, hds⟩ := List.head?_eq_some_iff.1 hc
  rw [hds, List.cons_append] at hrest
  cases h with
  | operator | symbol => cases hnumber
  | number i hunclaimed =>
    rw [← Operator.ofText?_cons_eq_none_iff, hrest]
    exact Operator.ofText?_eq_none_iff.2 hunclaimed.operator

theorem not_mem_marks_of_tokens (hx : x.scanner.Cuts) {limits : Limits} {source : String}
    {ts : List Token} (h : x.tokens limits source = .ok ts) :
    ∀ t ∈ ts, t.type = .number → ∀ c ∈ t.text.toList.head?, c ∉ Operator.marks := by
  obtain ⟨-, -, us, hscan, rfl⟩ := tokens_eq_ok_iff.1 h
  have htiles := (scan_eq_ok_iff_tiles hx).1 hscan
  refine Token.forall_resolveSignsFrom (fun t ht => ?_)
    (fun t ht => (htiles.stands t ht).not_mem_marks hx) false
  rw [Token.type_asUnary, Token.text_asUnary]
  exact ht

/--
Whether literals may have signs changes neither the tokens of a source nor the error that it has in
their place, and no number starts with a sign.
-/
theorem tokens_signed (bound : String → Bool) (o : Literal.Options) (signed : Bool)
    (limits : Limits) (source : String) :
    ({ bound, options := { o with signed } } : Lexicon).tokens limits source =
        ({ bound, options := o } : Lexicon).tokens limits source ∧
      ∀ ts, ({ bound, options := o } : Lexicon).tokens limits source = .ok ts →
        ∀ t ∈ ts, t.type = .number → ∀ c ∈ t.text.toList.head?, c ≠ '+' ∧ c ≠ '-' := by
  have hplus : '+' ∈ Operator.marks := by decide
  have hminus : '-' ∈ Operator.marks := by decide
  constructor
  · have hpiece (c : Char) (cs : List Char) :
        ({ bound, options := { o with signed } } : Lexicon).pieceAt c cs =
          ({ bound, options := o } : Lexicon).pieceAt c cs := by
      refine pieceAt_congr rfl fun hc => Literal.scan_unsigned (fun d hd => ?_) signed
      obtain rfl : c = d := Option.some.inj hd
      exact ⟨fun h => hc (h ▸ hplus), fun h => hc (h ▸ hminus)⟩
    exact tokens_congr hpiece limits source
  · intro ts hts t ht hnumber c hc
    have hmark := not_mem_marks_of_tokens Scanner.literals_cuts hts t ht hnumber c hc
    exact ⟨fun h => hmark (h ▸ hplus), fun h => hmark (h ▸ hminus)⟩

/-- A lexicon in which `-` separates digits. -/
def hyphenated : Lexicon := { options := { separator := some '-' } }

/-- Where `-` separates digits and signs are read, a scanner takes `-1-2` as a whole, but a lexer
finds a sign there and the number behind it. -/
theorem tokens_signed_separator :
    (Literal.scan { hyphenated.options with signed := true } "-1-2".toList).map (·.text) =
        .ok "-1-2".toList ∧
      ({ options := { hyphenated.options with signed := true } } : Lexicon).tokens {} "-1-2" =
        .ok [.ofOperator .neg 0, .ofNumber "1-2" (Number.Decimal.mk 12 0).toFloat 1] := by
  have hnumber : hyphenated.scan 1 ['1', '-', '2'] =
      .ok [.ofNumber "1-2" (Number.Decimal.mk 12 0).toFloat 1] := by
    refine (@scan_piece hyphenated '1' ['-', '2'] []
      (.number ⟨['1', '-', '2'], (Number.Decimal.mk 12 0).toFloat⟩) _ 1 rfl rfl rfl).trans ?_
    rw [scan]
    rfl
  have hscan : hyphenated.scan 0 "-1-2".toList =
      .ok [.ofOperator .sub 0, .ofNumber "1-2" (Number.Decimal.mk 12 0).toFloat 1] :=
    (@scan_piece hyphenated '-' [] ['1', '-', '2'] (.operator .sub) _ 0 rfl rfl rfl).trans
      (congrArg (Except.map _) hnumber)
  have htokens : hyphenated.tokens {} "-1-2" =
      .ok [.ofOperator .neg 0, .ofNumber "1-2" (Number.Decimal.mk 12 0).toFloat 1] :=
    tokens_eq_ok_iff.2 ⟨by decide, by decide, _, hscan, rfl⟩
  have hsame := (tokens_signed (fun _ => false) hyphenated.options true {} "-1-2").1
  exact ⟨rfl, hsame.trans htokens⟩

end Lexicon

end Calculator
