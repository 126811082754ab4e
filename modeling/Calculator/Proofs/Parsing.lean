import Calculator.Formula
import Calculator.Proofs.Rejection
import Calculator.Proofs.Separators
import Calculator.Proofs.Tokens

/-!
# What a parse replies

`parse_cases` lists the replies of a parse with what the formula then knows. A source is refused for
its length, for a character, for the number of its tokens or for their groups, whichever is looked
for first (`Refuses`). Only a scanner makes a parse end in a fault, and the one for literals does
not where digits are kept (`exists_parse_eq_ok`).
-/

namespace Calculator

open Nesting

/-- Why a source is refused. Each reason is looked for where the ones before it do not hold. -/
inductive Settings.Refuses (s : Settings) (scope : Scope Float) (source : String) : Cause → Prop
  | length (h : s.limits.length < source.length) :
    Refuses s scope source (.limit ⟨.length, s.limits.length, source.length⟩)
  | character {e : Error} (hlength : source.length ≤ s.limits.length)
    (h : (s.lexicon scope).scan 0 source.toList = .error (.error e)) :
    Refuses s scope source e.cause
  | tokens {ts : List Token} (hlength : source.length ≤ s.limits.length)
    (hscan : (s.lexicon scope).scan 0 source.toList = .ok ts) (h : s.limits.tokens < ts.length) :
    Refuses s scope source (.limit ⟨.tokens, s.limits.tokens, ts.length⟩)
  | groups {ts : List Token} {cause : Cause} (hlength : source.length ≤ s.limits.length)
    (hscan : (s.lexicon scope).scan 0 source.toList = .ok ts)
    (htokens : ts.length ≤ s.limits.tokens)
    (h : Misnests s.limits.depth [] (Token.resolveSigns ts) cause) :
    Refuses s scope source cause

namespace Settings

variable {s : Settings} {scope : Scope Float} {source : String}

theorem toProgram_eq_ok_iff {program : List Token} :
    s.toProgram scope source = .ok program ↔
      ∃ ts, (s.lexicon scope).tokens s.limits source = .ok ts ∧
        Postfix.ofTokens s.limits (some source) ts = .ok program :=
  Result.bind_eq_ok_iff

theorem perm_of_toProgram {program : List Token} (h : s.toProgram scope source = .ok program) :
    ∃ ts, (s.lexicon scope).tokens s.limits source = .ok ts ∧
      program.Perm (ts.filter (!·.isParenthesis)) := by
  obtain ⟨ts, hts, hof⟩ := toProgram_eq_ok_iff.1 h
  obtain ⟨-, -, hperm, -⟩ := Postfix.of_ofTokens_eq_ok hof
  exact ⟨ts, hts, hperm⟩

theorem toProgram_cases (s : Settings) (scope : Scope Float) (source : String) :
    (∃ program, s.toProgram scope source = .ok program) ∨
    (∃ e, s.toProgram scope source = .error (.error e) ∧ s.Refuses scope source e.cause ∧
      (e.expression = none ∨ e.expression = some source)) ∨
    ∃ f rest, s.scanner.scan s.options rest = .error f ∧
      s.toProgram scope source = .error (.fault (.literal f)) := by
  cases htokens : (s.lexicon scope).tokens s.limits source with
  | error p =>
    have hprogram : s.toProgram scope source = .error p := by
      rw [toProgram, htokens]
      rfl
    rw [hprogram]
    rcases Lexicon.tokens_eq_error_iff.1 htokens with
      ⟨hlength, rfl⟩ | ⟨hlength, q, hscan, rfl⟩ | ⟨hlength, ts, hscan, hmany, rfl⟩
    · exact .inr (.inl ⟨_, rfl, .length hlength, .inl rfl⟩)
    · rcases Lexicon.scan_eq_error hscan with ⟨f, rest, hf, rfl⟩ | ⟨c, i, rfl⟩
      · exact .inr (.inr ⟨f, rest, hf, rfl⟩)
      · have hrefuses := Refuses.character hlength hscan
        exact .inr (.inl ⟨_, rfl, hrefuses, .inr rfl⟩)
    · exact .inr (.inl ⟨_, rfl, .tokens hlength hscan hmany, .inl rfl⟩)
  | ok ts =>
    have hprogram : s.toProgram scope source = Postfix.ofTokens s.limits (some source) ts := by
      rw [toProgram, htokens]
      rfl
    rw [hprogram]
    have hconsistent := Lexicon.consistent_of_tokens htokens
    rcases Postfix.ofTokens_cases s.limits (some source) hconsistent with hok | ⟨e, he, hmis, hexp⟩
    · exact .inl hok
    · obtain ⟨hlength, hmany, us, hscan, rfl⟩ := Lexicon.tokens_eq_ok_iff.1 htokens
      rw [Token.resolveSigns, Token.length_resolveSignsFrom] at hmany
      have hexp : e.expression = none ∨ e.expression = some source := by
        rcases hexp with ⟨_, rfl⟩ | hexp
        · exact .inl rfl
        · exact .inr hexp
      exact .inr (.inl ⟨e, he, .groups hlength hscan hmany hmis, hexp⟩)

theorem Refuses.exists_error {cause : Cause} (h : s.Refuses scope source cause) :
    ∃ e, s.toProgram scope source = .error (.error e) ∧ e.cause = cause := by
  have of_tokens {e : Error}
      (h : (s.lexicon scope).tokens s.limits source = .error (.error e)) :
      ∃ e', s.toProgram scope source = .error (.error e') ∧ e'.cause = e.cause :=
    ⟨e, by rw [toProgram, h]; rfl, rfl⟩
  cases h with
  | length h => exact of_tokens (Lexicon.tokens_eq_error_iff.2 (.inl ⟨h, rfl⟩))
  | @character e hlength h =>
    exact @of_tokens (e.within source)
      (Lexicon.tokens_eq_error_iff.2 (.inr (.inl ⟨hlength, _, h, rfl⟩)))
  | tokens hlength hscan h =>
    exact of_tokens (Lexicon.tokens_eq_error_iff.2 (.inr (.inr ⟨hlength, _, hscan, h, rfl⟩)))
  | @groups us cause hlength hscan hmany h =>
    rw [← Token.length_resolveSignsFrom false] at hmany
    have htokens : (s.lexicon scope).tokens s.limits source = .ok (Token.resolveSigns us) :=
      Lexicon.tokens_eq_ok_iff.2 ⟨hlength, hmany, us, hscan, rfl⟩
    obtain ⟨e, he, rfl⟩ :=
      (Postfix.exists_error_iff (Lexicon.consistent_of_tokens htokens)).2 h
    exact ⟨e, by rw [toProgram, htokens]; exact he, rfl⟩

end Settings

namespace Formula

variable {f : Formula} {scope : Scope Float}

/-- All that a parse can reply, with what the formula then knows. -/
theorem parse_cases (f : Formula) (scope : Scope Float) :
    (∃ ts, f.settings.toProgram scope f.source = .ok ts ∧
      f.parse scope = (.ok none, { f with reading := .program ts })) ∨
    (∃ e, f.settings.Refuses scope f.source e.cause ∧ e.expression = some f.source ∧
      f.parse scope = (.ok (some e), { f with reading := .error e })) ∨
    ∃ x rest, f.settings.scanner.scan f.settings.options rest = .error x ∧
      f.parse scope = (.error (.literal x), f.forget) := by
  unfold parse Settings.compile
  rcases f.settings.toProgram_cases scope f.source with
    ⟨ts, hts⟩ | ⟨e, he, hrefuses, hexp⟩ | ⟨x, rest, hx, hfault⟩
  · rw [hts]
    exact .inl ⟨ts, rfl, rfl⟩
  · rw [he]
    refine .inr (.inl ⟨e.within f.source, hrefuses, ?_, rfl⟩)
    rcases hexp with hexp | hexp <;> simp [Error.within, hexp]
  · rw [hfault]
    exact .inr (.inr ⟨x, rest, hx, rfl⟩)

theorem settings_parse (f : Formula) (scope : Scope Float) :
    (f.parse scope).2.settings = f.settings := by
  rcases f.parse_cases scope with ⟨ts, _, h⟩ | ⟨e, _, _, h⟩ | ⟨x, _, _, h⟩ <;>
    simp only [h, forget]

theorem source_parse (f : Formula) (scope : Scope Float) :
    (f.parse scope).2.source = f.source := by
  rcases f.parse_cases scope with ⟨ts, _, h⟩ | ⟨e, _, _, h⟩ | ⟨x, _, _, h⟩ <;>
    simp only [h, forget]

theorem parse_of_tokens {ts program : List Token}
    (hts : (f.settings.lexicon scope).tokens f.settings.limits f.source = .ok ts)
    (hprogram : Postfix.ofTokens f.settings.limits (some f.source) ts = .ok program) :
    f.parse scope = (.ok none, { f with reading := .program program }) := by
  have hto : f.settings.toProgram scope f.source = .ok program := by
    rw [Settings.toProgram, hts, Result.ok_bind, hprogram]
  have hcompile : f.settings.compile scope f.source = .ok program := by
    rw [Settings.compile, hto]
    rfl
  rw [parse, hcompile]

theorem exists_parse_eq_ok (scanner : f.settings.scanner = .literals)
    (options : f.settings.options.keepsDigits = true) : ∃ e, (f.parse scope).1 = .ok e := by
  rcases f.parse_cases scope with ⟨ts, _, hparse⟩ | ⟨e, _, _, hparse⟩ | ⟨x, rest, hx, _⟩
  · exact ⟨none, by rw [hparse]⟩
  · exact ⟨some e, by rw [hparse]⟩
  · rw [scanner] at hx
    obtain ⟨m, hm⟩ := Literal.exists_scan_eq_ok options rest
    cases hm.symm.trans hx

theorem parse_eq_ok_iff :
    (f.parse scope).1 = .ok none ↔ ∃ ts, f.settings.toProgram scope f.source = .ok ts := by
  constructor
  · intro h
    rcases f.parse_cases scope with ⟨ts, hts, _⟩ | ⟨e, _, _, hparse⟩ | ⟨x, _, _, hparse⟩
    · exact ⟨ts, hts⟩
    · rw [hparse] at h
      cases h
    · rw [hparse] at h
      cases h
  · rintro ⟨ts, hts⟩
    rw [parse, Settings.compile, hts]
    rfl

theorem program_of_parse (h : (f.parse scope).1 = .ok none) :
    ∃ ts, f.settings.toProgram scope f.source = .ok ts ∧
      (f.parse scope).2.program = some ts := by
  rcases f.parse_cases scope with ⟨ts, hts, hparse⟩ | ⟨e, _, _, hparse⟩ | ⟨x, _, _, hparse⟩
  · exact ⟨ts, hts, by rw [hparse]; rfl⟩
  · rw [hparse] at h
    cases h
  · rw [hparse] at h
    cases h

theorem error_of_parse {e : Error} (h : (f.parse scope).1 = .ok (some e)) :
    (f.parse scope).2.error = some e := by
  rcases f.parse_cases scope with ⟨ts, _, hparse⟩ | ⟨d, _, _, hparse⟩ | ⟨x, _, _, hparse⟩
  · rw [hparse] at h
    cases h
  · rw [hparse] at h ⊢
    cases h
    rfl
  · rw [hparse] at h
    cases h

theorem parse_eq_error_iff {e : Error} :
    (f.parse scope).1 = .ok (some e) ↔
      f.settings.Refuses scope f.source e.cause ∧ e.expression = some f.source := by
  constructor
  · intro h
    rcases f.parse_cases scope with
      ⟨ts, _, hparse⟩ | ⟨e', hrefuses, hexp, hparse⟩ | ⟨x, _, _, hparse⟩
    · rw [hparse] at h
      cases h
    · rw [hparse] at h
      cases h
      exact ⟨hrefuses, hexp⟩
    · rw [hparse] at h
      cases h
  · rintro ⟨hrefuses, hexp⟩
    obtain ⟨e', he', hcause⟩ := hrefuses.exists_error
    rcases f.settings.toProgram_cases scope f.source with
      ⟨ts, hts⟩ | ⟨e'', he'', _, hexp'⟩ | ⟨x, rest, _, hfault⟩
    · rw [he'] at hts
      cases hts
    · rw [he'] at he''
      cases he''
      have hwithin : e'.within f.source = e := by
        obtain ⟨cause, expression⟩ := e
        obtain ⟨cause', expression'⟩ := e'
        obtain rfl : cause' = cause := hcause
        obtain rfl : expression = some f.source := hexp
        rcases hexp' with rfl | rfl <;> rfl
      rw [parse, Settings.compile, he', ← hwithin]
      rfl
    · rw [he'] at hfault
      cases hfault

end Formula

end Calculator
