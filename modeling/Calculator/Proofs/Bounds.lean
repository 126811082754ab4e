import Calculator.Proofs.Lexing
import Calculator.Proofs.Parsing

/-!
# What limits do to a parse

Limits are filters. A source has at most as many tokens as characters and nests no deeper than that,
so limits that are `Ample` for its length never refuse it. Under other limits a parse succeeds if
and only if it does under ample ones and the three counts are within the bounds, and the program is
the same; otherwise the first reason to refuse the source is the one replied (`parse_limits`).
-/

namespace Calculator

open Nesting

theorem Nesting.deepest_le (depth : Nat) (ts : List Token) :
    deepest depth ts ≤ depth + ts.length := by
  induction ts generalizing depth with
  | nil => exact Nat.le_refl _
  | cons t ts ih =>
    have hstep : depthAfter depth t ≤ depth + 1 := by
      unfold depthAfter
      split
      · exact Nat.le_refl _
      · split <;> omega
    have := ih (depthAfter depth t)
    rw [deepest, List.length_cons]
    omega

theorem Nesting.deepest_resolveSigns_le (ts : List Token) :
    deepest 0 (Token.resolveSigns ts) ≤ ts.length := by
  have hle := deepest_le 0 (Token.resolveSigns ts)
  rw [Nat.zero_add] at hle
  rwa [← Token.length_resolveSignsFrom false ts]

/-- No count of the source can exceed a bound. -/
def Limits.Ample (l : Limits) (source : String) : Prop := ∀ k, source.length ≤ l.bound k

def Formula.under (f : Formula) (limits : Limits) : Formula :=
  { f with settings := { f.settings with limits } }

namespace Settings

variable {s : Settings} {scope : Scope Float} {source : String}

theorem exists_toProgram_iff :
    (∃ program, s.toProgram scope source = .ok program) ↔
      ∃ ts, (s.lexicon scope).scan 0 source.toList = .ok ts ∧ Balanced (Token.resolveSigns ts) ∧
        source.length ≤ s.limits.length ∧ ts.length ≤ s.limits.tokens ∧
        deepest 0 (Token.resolveSigns ts) ≤ s.limits.depth := by
  simp only [toProgram_eq_ok_iff]
  constructor
  · rintro ⟨program, ts, htokens, hprogram⟩
    have hconsistent := Lexicon.consistent_of_tokens htokens
    obtain ⟨hbalanced, hdeep⟩ := (Postfix.exists_ofTokens_iff hconsistent).1 ⟨program, hprogram⟩
    obtain ⟨hlength, hmany, us, hscan, rfl⟩ := Lexicon.tokens_eq_ok_iff.1 htokens
    rw [Token.resolveSigns, Token.length_resolveSignsFrom] at hmany
    exact ⟨us, hscan, hbalanced, hlength, hmany, hdeep⟩
  · rintro ⟨us, hscan, hbalanced, hlength, hmany, hdeep⟩
    rw [← Token.length_resolveSignsFrom false] at hmany
    have htokens : (s.lexicon scope).tokens s.limits source = .ok (Token.resolveSigns us) :=
      Lexicon.tokens_eq_ok_iff.2 ⟨hlength, hmany, us, hscan, rfl⟩
    obtain ⟨program, hprogram⟩ :=
      (Postfix.exists_ofTokens_iff (Lexicon.consistent_of_tokens htokens)).2 ⟨hbalanced, hdeep⟩
    exact ⟨program, _, htokens, hprogram⟩

end Settings

theorem Lexicon.length_le_of_scan {x : Lexicon} {source : String} {ts : List Token}
    (h : x.scan 0 source.toList = .ok ts) : ts.length ≤ source.length := by
  rw [← String.length_toList]
  exact length_scan_le h

namespace Formula

variable {f : Formula} {scope : Scope Float} {wide : Limits}

theorem not_refuses_limit (hwide : wide.Ample f.source) (excess : Excess) :
    ¬ (f.under wide).settings.Refuses scope f.source (.limit excess) := by
  generalize hcause : Cause.limit excess = cause
  intro h
  cases h with
  | length h => exact absurd (hwide .length) (Nat.not_le.2 h)
  | character _ h =>
    rcases Lexicon.scan_eq_error h with ⟨x, rest, _, hp⟩ | ⟨c, i, hp⟩
    · cases hp
    · cases hp
      cases hcause
  | tokens _ hscan h =>
    have := Lexicon.length_le_of_scan hscan
    have : f.source.length ≤ wide.tokens := hwide .tokens
    have : wide.tokens < _ := h
    omega
  | @groups ts _ _ hscan _ h =>
    have hdeep : wide.depth < deepest 0 (Token.resolveSigns ts) := (hcause ▸ h).deep
    have hle := deepest_resolveSigns_le ts
    have := Lexicon.length_le_of_scan hscan
    have : f.source.length ≤ wide.depth := hwide .depth
    omega

/-- The program does not depend on the limits. -/
theorem program_under {limits : Limits} (h : (f.parse scope).1 = .ok none)
    (h' : ((f.under limits).parse scope).1 = .ok none) :
    ((f.under limits).parse scope).2.program = (f.parse scope).2.program := by
  obtain ⟨p, hp, hprogram⟩ := program_of_parse h
  obtain ⟨p', hp', hprogram'⟩ := program_of_parse h'
  obtain ⟨ts, hts, hof⟩ := Settings.toProgram_eq_ok_iff.1 hp
  obtain ⟨ts', hts', hof'⟩ := Settings.toProgram_eq_ok_iff.1 hp'
  obtain ⟨_, _, us, hscan, rfl⟩ := Lexicon.tokens_eq_ok_iff.1 hts
  obtain ⟨_, _, us', hscan', rfl⟩ := Lexicon.tokens_eq_ok_iff.1 hts'
  obtain rfl : us = us' := Except.ok.inj (hscan.symm.trans hscan')
  rw [hprogram, hprogram', Postfix.ofTokens_eq_of_ok hof hof']

theorem parse_eq_ok_iff_ample (hwide : wide.Ample f.source) :
    (f.parse scope).1 = .ok none ↔
      ((f.under wide).parse scope).1 = .ok none ∧ f.source.length ≤ f.settings.limits.length ∧
      ∃ ts, (f.settings.lexicon scope).tokens wide f.source = .ok ts ∧
        ts.length ≤ f.settings.limits.tokens ∧ deepest 0 ts ≤ f.settings.limits.depth := by
  rw [parse_eq_ok_iff, parse_eq_ok_iff, Settings.exists_toProgram_iff,
    Settings.exists_toProgram_iff]
  have hlength : f.source.length ≤ wide.length := hwide .length
  have hample {us : List Token}
      (hscan : (f.settings.lexicon scope).scan 0 f.source.toList = .ok us) :
      us.length ≤ wide.tokens ∧ deepest 0 (Token.resolveSigns us) ≤ wide.depth := by
    have hle := deepest_resolveSigns_le us
    have := Lexicon.length_le_of_scan hscan
    have : f.source.length ≤ wide.tokens := hwide .tokens
    have : f.source.length ≤ wide.depth := hwide .depth
    exact ⟨by omega, by omega⟩
  constructor
  · rintro ⟨us, hscan, hbalanced, hbound, hmany, hdeep⟩
    obtain ⟨hmany', hdeep'⟩ := hample hscan
    refine ⟨⟨us, hscan, hbalanced, hlength, hmany', hdeep'⟩, hbound, _, ?_, ?_, hdeep⟩
    · rw [← Token.length_resolveSignsFrom false] at hmany'
      exact Lexicon.tokens_eq_ok_iff.2 ⟨hlength, hmany', us, hscan, rfl⟩
    · rwa [Token.resolveSigns, Token.length_resolveSignsFrom]
  · rintro ⟨⟨us, hscan, hbalanced, _⟩, hbound, ts, htokens, hmany, hdeep⟩
    obtain ⟨_, _, us', hscan', rfl⟩ := Lexicon.tokens_eq_ok_iff.1 htokens
    obtain rfl : us = us' := Except.ok.inj (hscan.symm.trans hscan')
    rw [Token.resolveSigns, Token.length_resolveSignsFrom] at hmany
    exact ⟨us, hscan, hbalanced, hbound, hmany, hdeep⟩

theorem parse_wider {limits : Limits} (h : ∀ k, f.settings.limits.bound k ≤ limits.bound k)
    (hparse : (f.parse scope).1 = .ok none) : ((f.under limits).parse scope).1 = .ok none := by
  rw [parse_eq_ok_iff, Settings.exists_toProgram_iff] at hparse ⊢
  obtain ⟨us, hscan, hbalanced, hlength, hmany, hdeep⟩ := hparse
  exact ⟨us, hscan, hbalanced, Nat.le_trans hlength (h .length), Nat.le_trans hmany (h .tokens),
    Nat.le_trans hdeep (h .depth)⟩

/--
Ample limits refuse no source for a count. A parse succeeds under limits if and only if it does
under ample ones and the counts are within the bounds; the program is the same, and under wider
limits still. Any other parse replies with the one reason that the source is refused for.
-/
theorem parse_limits (hwide : wide.Ample f.source) (scanner : f.settings.scanner = .literals)
    (options : f.settings.options.keepsDigits = true) :
    (∀ excess, ¬ (f.under wide).settings.Refuses scope f.source (.limit excess)) ∧
    ((f.parse scope).1 = .ok none ↔
      ((f.under wide).parse scope).1 = .ok none ∧ f.source.length ≤ f.settings.limits.length ∧
      ∃ ts, (f.settings.lexicon scope).tokens wide f.source = .ok ts ∧
        ts.length ≤ f.settings.limits.tokens ∧ deepest 0 ts ≤ f.settings.limits.depth) ∧
    ((f.parse scope).1 = .ok none →
      ((f.under wide).parse scope).2.program = (f.parse scope).2.program) ∧
    (∀ e, (f.parse scope).1 = .ok (some e) ↔
      f.settings.Refuses scope f.source e.cause ∧ e.expression = some f.source) ∧
    ((f.parse scope).1 ≠ .ok none → ∃ e, (f.parse scope).1 = .ok (some e)) ∧
    ∀ limits : Limits, (∀ k, f.settings.limits.bound k ≤ limits.bound k) →
      (f.parse scope).1 = .ok none →
      ((f.under limits).parse scope).1 = .ok none ∧
        ((f.under limits).parse scope).2.program = (f.parse scope).2.program := by
  refine ⟨not_refuses_limit hwide, parse_eq_ok_iff_ample hwide, fun h => ?_,
    fun e => parse_eq_error_iff, fun h => ?_, fun limits hle h => ?_⟩
  · exact program_under h ((parse_eq_ok_iff_ample hwide).1 h).1
  · obtain ⟨e | e, he⟩ := @exists_parse_eq_ok f scope scanner options
    · exact absurd he h
    · exact ⟨e, he⟩
  · exact ⟨parse_wider hle h, program_under h (parse_wider hle h)⟩

/-- In `(()` the second group is one too many, which is found before the first is left open. -/
theorem parse_limits_deep :
    ({} : Limits).Ample "(()" ∧ ({} : Literal.Options).keepsDigits = true ∧
      (parse { source := "(()", settings := { limits := { depth := 1 } } } {}).1 =
        .ok (some { cause := .limit ⟨.depth, 1, 2⟩, expression := some "(()" }) := by
  have hwide : ({} : Limits).Ample "(()" := by
    intro k
    cases k <;> decide
  have hkeeps : ({} : Literal.Options).keepsDigits = true := by decide
  have hscan : Lexicon.scan {} 0 "(()".toList =
      .ok [.ofOperator .openParen 0, .ofOperator .openParen 1, .ofOperator .closeParen 2] := by
    have hfirst : Lexicon.scan {} 0 "(()".toList = (Lexicon.scan {} 1 ['(', ')']).map
        (Token.ofOperator .openParen 0 :: ·) :=
      @Lexicon.scan_piece {} '(' [] ['(', ')'] (.operator .openParen) _ 0 rfl rfl rfl
    have hsecond : Lexicon.scan {} 1 ['(', ')'] = (Lexicon.scan {} 2 [')']).map
        (Token.ofOperator .openParen 1 :: ·) :=
      @Lexicon.scan_piece {} '(' [] [')'] (.operator .openParen) _ 1 rfl rfl rfl
    have hthird : Lexicon.scan {} 2 [')'] = .ok [.ofOperator .closeParen 2] := by
      refine (@Lexicon.scan_piece {} ')' [] [] (.operator .closeParen) _ 2 rfl rfl rfl).trans ?_
      rw [Lexicon.scan]
      rfl
    rw [hfirst, hsecond, hthird]
    rfl
  have hmisnests : Misnests 1 [] [.ofOperator .openParen 0, .ofOperator .openParen 1,
      .ofOperator .closeParen 2] (.limit ⟨.depth, 1, 2⟩) :=
    .later rfl (by decide) (.tooDeep rfl rfl)
  have hrefused (e : Error) :=
    (@parse_limits { source := "(()", settings := { limits := { depth := 1 } } } {} {} hwide rfl
      hkeeps).2.2.2.1 e
  exact ⟨hwide, hkeeps, (hrefused _).2 ⟨.groups (by decide) hscan (by decide) hmisnests, rfl⟩⟩

end Formula

end Calculator
