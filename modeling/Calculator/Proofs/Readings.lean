import Calculator.Proofs.Histories
import Calculator.Proofs.Parsing

/-!
# What a formula knows of its source

A formula keeps what came of reading its source until it is made, loaded, reset or parsed again.
After any run the last of these operations accounts for it (`ReadBy`): the formula holds a program
or an error if and only if that was a parse which replied so, and the program is the one of the
source that the formula has now (`remembers_latest`).
-/

namespace Calculator

open Workspace (Operation)

namespace Formula

theorem parse_forget (f : Formula) (scope : Scope Float) :
    f.forget.parse scope = f.parse scope := rfl

theorem parse_congr {f g : Formula} (hsource : g.source = f.source)
    (hsettings : g.settings = f.settings) (scope : Scope Float) :
    g.parse scope = f.parse scope := by
  have hforget : g.forget = f.forget := by rw [forget, forget, hsource, hsettings]
  rw [← parse_forget, hforget, parse_forget]

theorem parse_parse (f : Formula) (scope scope' : Scope Float) :
    (f.parse scope).2.parse scope' = f.parse scope' :=
  parse_congr (f.source_parse scope) (f.settings_parse scope) scope'

/-- The formula is as an operation left it. -/
def ReadBy (f : Formula) : Operation → Prop
  | .parse scope reply =>
    ∃ r, f.parse scope = (r, f) ∧ reply = .formula ((r.map .parsed).mapError .fault)
  | _ => f.reading = .none

/-- What a formula knows is what the last operation on it has found. -/
structure Remembers (f : Formula) (last : Option Operation) : Prop where
  exclusive : f.program = none ∨ f.error = none
  program_iff : f.program.isSome = true ↔
    ∃ scope, last = some (.parse scope (.formula (.ok (.parsed none))))
  program_eq (ts : List Token) (h : f.program = some ts) : ∃ scope tokens,
    last = some (.parse scope (.formula (.ok (.parsed none)))) ∧
    (f.settings.lexicon scope).tokens f.settings.limits f.source = .ok tokens ∧
    Postfix.ofTokens f.settings.limits (some f.source) tokens = .ok ts
  error_iff (e : Error) : f.error = some e ↔
    ∃ scope, last = some (.parse scope (.formula (.ok (.parsed (some e)))))
  expression (e : Error) (h : f.error = some e) : e.expression = some f.source

theorem remembers_of_unread {f : Formula} {last : Option Operation} (h : f.reading = .none)
    (hlast : ∀ scope e, last ≠ some (.parse scope (.formula (.ok (.parsed e))))) :
    f.Remembers last := by
  have hprogram : f.program = none := by rw [program, h]
  have herror : f.error = none := by rw [error, h]
  refine ⟨.inl hprogram, ?_, fun ts hts => ?_, fun e => ?_, fun e he => ?_⟩
  · simp [hprogram, hlast]
  · rw [hprogram] at hts
    cases hts
  · simp [herror, hlast]
  · rw [herror] at he
    cases he

theorem ReadBy.remembers {f : Formula} {o : Operation} (h : f.ReadBy o) : f.Remembers (some o) := by
  cases o with
  | create | load | reset => exact remembers_of_unread h fun scope e => nofun
  | parse scope reply =>
    obtain ⟨r, hparse, rfl⟩ := h
    rcases f.parse_cases scope with ⟨ts, hts, hcase⟩ | ⟨e, _, hexp, hcase⟩ | ⟨x, _, _, hcase⟩
    · obtain ⟨rfl, hf⟩ := Prod.mk.inj (hparse.symm.trans hcase)
      have hprogram : f.program = some ts := by rw [hf]; rfl
      have herror : f.error = none := by rw [hf]; rfl
      refine ⟨.inr herror, ?_, fun ts' hts' => ?_, fun e => ?_, fun e he => ?_⟩
      · simp [hprogram, Except.map]
      · obtain rfl : ts = ts' := Option.some.inj (hprogram.symm.trans hts')
        obtain ⟨tokens, htokens, hof⟩ := Settings.toProgram_eq_ok_iff.1 hts
        exact ⟨scope, tokens, rfl, htokens, hof⟩
      · simp [herror, Except.map]
      · rw [herror] at he
        cases he
    · obtain ⟨rfl, hf⟩ := Prod.mk.inj (hparse.symm.trans hcase)
      have hprogram : f.program = none := by rw [hf]; rfl
      have herror : f.error = some e := by rw [hf]; rfl
      refine ⟨.inl hprogram, ?_, fun ts hts => ?_, fun e' => ?_, fun e' he => ?_⟩
      · simp [hprogram, Except.map]
      · rw [hprogram] at hts
        cases hts
      · simp [herror, Except.map]
      · obtain rfl : e = e' := Option.some.inj (herror.symm.trans he)
        exact hexp
    · obtain ⟨rfl, hf⟩ := Prod.mk.inj (hparse.symm.trans hcase)
      refine remembers_of_unread (by rw [hf]; rfl) fun scope e h => ?_
      cases h

end Formula

namespace Workspace

variable {w : Workspace} {name : String}

/-! ## Runs -/

theorem readBy_step {c : Command} {last : Option Operation} {q : Placed}
    (hadds : ∀ g, c.Adds g → g.reading = .none)
    (hw : ∀ p, w.formulas name = some p → ∃ o, last = some o ∧ p.formula.ReadBy o)
    (hq : (w.run c).workspace.formulas name = some q) :
    ∃ o, (w.operation? name c).or last = some o ∧ q.formula.ReadBy o := by
  cases arises hq with
  | kept p hp op hf =>
    rw [op, hf]
    exact hw p hp
  | added op hf => exact ⟨.create, by rw [op]; rfl, hadds _ hf⟩
  | copied n p source _ op hf => exact ⟨.create, by rw [op]; rfl, by rw [hf]; rfl⟩
  | loaded p source _ op hf => exact ⟨.load, by rw [op]; rfl, by rw [hf]; rfl⟩
  | reset p _ op hf => exact ⟨.reset, by rw [op]; rfl, by rw [hf]; rfl⟩
  | parsed p hp op hf =>
    refine ⟨.parse (w.scopes p.scope) (w.runFormula name .parse).reply, by rw [op]; rfl,
      (p.formula.parse (w.scopes p.scope)).1, ?_, ?_⟩
    · rw [hf, Formula.parse_parse]
    · simp only [runFormula, hp]
      rfl

/-- After a run a formula is as the last operation on it has left it. -/
theorem readBy_latest {cs : List Command} {last : String → Option Operation}
    (hw : ∀ name p, w.formulas name = some p → ∃ o, last name = some o ∧ p.formula.ReadBy o)
    (hadds : ∀ c ∈ cs, ∀ f, c.Adds f → f.reading = .none) {p : Placed}
    (hp : (w.after cs).formulas name = some p) :
    ∃ o, (w.latest name cs).or (last name) = some o ∧ p.formula.ReadBy o := by
  induction cs generalizing w last with
  | nil => exact hw name p hp
  | cons c cs ih =>
    rw [latest, Option.or_assoc]
    exact @ih _ (fun n => (w.operation? n c).or (last n))
      (fun n q hq => readBy_step (hadds c List.mem_cons_self) (hw n) hq)
      (fun d hd => hadds d (List.mem_cons_of_mem _ hd)) hp

theorem setScope_self (w : Workspace) (i : Nat) : w.setScope i (w.scopes i) = w := by
  have hscopes : (fun j => if j = i then w.scopes i else w.scopes j) = w.scopes := by
    funext j
    split
    · next hj => rw [hj]
    · rfl
  rw [setScope, hscopes]

theorem setFormula_self {p : Placed} (hp : w.formulas name = some p) :
    w.setFormula name (some p) = w := by
  have hformulas : (fun n => if n = name then some p else w.formulas n) = w.formulas := by
    funext n
    split
    · next hn => rw [hn, hp]
    · rfl
  rw [setFormula, hformulas]

theorem run_evaluate_of_none {p : Placed} (hp : w.formulas name = some p)
    (h : p.formula.program = none) :
    w.run (.formula name .evaluate) =
      ⟨.formula (.error (.error
        { cause := .notParsed, expression := some p.formula.source })), w, []⟩ := by
  have heval : (w.sheet p).run .evaluate =
      { reply := .error (.error { cause := .notParsed, expression := some p.formula.source }),
        sheet := w.sheet p } := by
    simp only [Worksheet.run, Worksheet.evaluate, Formula.evaluate, sheet, h]
    rfl
  simp only [run, runFormula, hp, heval]
  congr 1
  exact (congrArg (·.setFormula name (some p)) (w.setScope_self p.scope)).trans (setFormula_self hp)

theorem program_of_run_evaluate {p : Placed} (hp : w.formulas name = some p) {e : Error}
    (h : (w.run (.formula name .evaluate)).reply = .formula (.error (.error e))) :
    p.formula.program = none := by
  cases hprogram : p.formula.program with
  | none => rfl
  | some ts =>
    simp only [run, runFormula, hp, Worksheet.run, Worksheet.evaluate, Formula.evaluate, sheet,
      hprogram] at h
    split at h <;> cases h

/--
After any run a formula remembers what the last operation on it has found. It is evaluated with an
error if and only if it has no program, and then nothing changes.
-/
theorem remembers_latest {cs : List Command}
    (hadds : ∀ c ∈ cs, ∀ f, c.Adds f → f.reading = .none) {p : Placed}
    (hp : (({} : Workspace).after cs).formulas name = some p) :
    p.formula.Remembers (({} : Workspace).latest name cs) ∧
    ((∃ e, ((({} : Workspace).after cs).run (.formula name .evaluate)).reply =
      .formula (.error (.error e))) ↔ p.formula.program = none) ∧
    (p.formula.program = none →
      (({} : Workspace).after cs).run (.formula name .evaluate) =
        ⟨.formula (.error (.error { cause := .notParsed, expression := some p.formula.source })),
          ({} : Workspace).after cs, []⟩) := by
  obtain ⟨o, ho, hread⟩ :=
    @readBy_latest _ name cs (fun _ => none) (fun _ _ h => absurd h formulas_empty) hadds p hp
  rw [Option.or_none] at ho
  refine ⟨ho ▸ hread.remembers, ⟨?_, fun h => ?_⟩, run_evaluate_of_none hp⟩
  · rintro ⟨e, he⟩
    exact program_of_run_evaluate hp he
  · rw [run_evaluate_of_none hp h]
    exact ⟨_, rfl⟩

def parseThenBind (f : Formula) : List Command :=
  [.add "f" { formula := f }, .formula "f" .parse, .formula "f" (.setSymbol "x" 1)]

/-- When `x` is bound, a formula of two characters remembers that one was allowed. -/
theorem remembers_latest_tooLong :
    ∃ p, (({} : Workspace).after (parseThenBind
        { source := "xy", settings := { limits := { length := 1 } } })).formulas "f" = some p ∧
      p.formula.Remembers (some (.parse {} (.formula (.ok (.parsed
        (some { cause := .limit ⟨.length, 1, 2⟩, expression := some "xy" })))))) := by
  have hlatest : ({} : Workspace).latest "f" (parseThenBind
      { source := "xy", settings := { limits := { length := 1 } } }) =
        some (.parse {} (.formula (.ok (.parsed
          (some { cause := .limit ⟨.length, 1, 2⟩, expression := some "xy" }))))) := rfl
  rw [← hlatest]
  refine ⟨_, rfl, (remembers_latest ?_ rfl).1⟩
  simp [parseThenBind, Command.Adds]

end Workspace

end Calculator
