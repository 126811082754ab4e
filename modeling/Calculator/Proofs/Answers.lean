import Calculator.Proofs.Histories
import Calculator.Proofs.Lexing
import Calculator.Proofs.Machine
import Calculator.Proofs.Parsing
import Calculator.Proofs.Refusals

/-!
# What commands are answered

A parse is answered with its result and an evaluation with its outcome. Refused are only an
evaluation without a program and the binding of a constant; no other command is (`Documented`). Of
all formulas of all runs this holds exactly where digits are kept (`documented_iff`): with a digit
as the separator there is a literal without a value, on which a parse ends in a fault.
-/

namespace Calculator

/-! ## Settings -/

/-- The scanner for literals, and standard actions with some replaced by others of their arity. -/
structure Settings.Built (s : Settings) : Prop where
  actions : ∃ overrides : List (Operator × Action), (∀ p ∈ overrides, p.2.arity = p.1.arity) ∧
    ActionTable.ofOverrides overrides = .ok s.actions
  scanner : s.scanner = .literals

theorem ActionTable.Complete.overrides {t t' : ActionTable} {overrides : List (Operator × Action)}
    (ht : t.Complete) (harity : ∀ p ∈ overrides, p.2.arity = p.1.arity)
    (h : overrides.foldlM (fun t p => t.override p.1 p.2) t = .ok t') : t'.Complete := by
  induction overrides generalizing t with
  | nil =>
    cases h
    exact ht
  | cons p ps ih =>
    obtain ⟨u, hu, h⟩ := Result.bind_eq_ok_iff.1 h
    obtain ⟨hp, hps⟩ := List.forall_mem_cons.1 harity
    exact ih (ht.override hp hu) hps h

theorem Settings.Built.complete {s : Settings} (h : s.Built) : s.actions.Complete := by
  obtain ⟨overrides, harity, htable⟩ := h.actions
  exact ActionTable.standard_complete.overrides harity htable

theorem Settings.consistent_of_toProgram {s : Settings} {scope : Scope Float} {source : String}
    {program : List Token} (h : s.toProgram scope source = .ok program) :
    ∀ t ∈ program, t.Consistent := by
  obtain ⟨ts, htokens, hperm⟩ := perm_of_toProgram h
  intro t ht
  exact Lexicon.consistent_of_tokens htokens t (List.mem_filter.1 (hperm.mem_iff.1 ht)).1

/-! ## Formulas -/

/-- What commands keep of a formula: how it is built, and that its program has a lexer's tokens. -/
structure Formula.Sound (f : Formula) : Prop where
  built : f.settings.Built
  consistent (ts : List Token) (h : f.program = some ts) : ∀ t ∈ ts, t.Consistent

namespace Formula

variable {f : Formula}

theorem Sound.of_none (built : f.settings.Built) (h : f.reading = .none) : f.Sound := by
  refine ⟨built, fun ts hts => ?_⟩
  rw [program, h] at hts
  cases hts

theorem Sound.parse (hf : f.Sound) (scope : Scope Float) : (f.parse scope).2.Sound := by
  rcases f.parse_cases scope with ⟨ts, hts, h⟩ | ⟨e, _, _, h⟩ | ⟨x, _, _, h⟩
  · rw [h]
    refine ⟨hf.built, fun us hus => ?_⟩
    cases hus
    exact Settings.consistent_of_toProgram hts
  · rw [h]
    exact ⟨hf.built, nofun⟩
  · rw [h]
    exact .of_none hf.built rfl

theorem Sound.exists_outcome (hf : f.Sound) {ts : List Token} (h : f.program = some ts)
    (scope : Scope Float) : ∃ o, (f.evaluate scope).1 = .ok o := by
  have hne := Evaluation.evaluate_ne_fault hf.built.complete (hf.consistent ts h) scope
  rw [evaluate, h]
  rcases hrun : Evaluation.evaluate f.settings.actions scope ts with ⟨(e | x) | x, s⟩
  · exact ⟨.error e, by simp only [hrun]⟩
  · exact absurd (by rw [hrun]) (hne x)
  · exact ⟨.ok x, by simp only [hrun]⟩

end Formula

/-! ## Commands -/

namespace Worksheet

/-- The replies that a command may have. -/
def Documented (w : Worksheet) (reply : Except Problem Reply) : Command → Prop
  | .parse => ∃ e, reply = .ok (.parsed e)
  | .evaluate =>
    (w.formula.program ≠ none ∧ ∃ o, reply = .ok (.outcome o)) ∨
      (w.formula.program = none ∧ reply =
        .error (.error { cause := .notParsed, expression := some w.formula.source }))
  | .setSymbol n _ =>
    (w.scope.isConstant n = false ∧ reply = .ok .itself) ∨
      (w.scope.isConstant n = true ∧ reply = .error (.error { cause := .constantAssignment n }))
  | .replaceSymbols b =>
    ((∀ n ∈ b.names, w.scope.isConstant n = false) ∧ reply = .ok .itself) ∨
      ∃ n ∈ b.names, w.scope.isConstant n = true ∧
        reply = .error (.error { cause := .constantAssignment n })
  | _ => ∃ r, reply = .ok r

variable {w : Worksheet}

theorem documented_evaluate (hf : w.formula.Sound) : w.Documented w.evaluate.reply .evaluate := by
  cases h : w.formula.program with
  | none =>
    refine .inr ⟨h, ?_⟩
    rw [evaluate, Formula.evaluate_of_none h]
    rfl
  | some ts =>
    obtain ⟨o, ho⟩ := hf.exists_outcome h w.scope
    refine .inl ⟨by simp [h], o, ?_⟩
    show (w.formula.evaluate w.scope).1.map Reply.outcome = _
    rw [ho]
    rfl

theorem documented_setSymbol (n : String) (x : Float) :
    w.Documented (w.setSymbol n x).reply (.setSymbol n x) := by
  by_cases hn : w.scope.isConstant n = true
  · exact .inr ⟨hn, by simp [setSymbol, Scope.set, hn, Scope.Refusal.toError]⟩
  · exact .inl ⟨by simpa using hn, by simp [setSymbol, Scope.set, hn]⟩

theorem documented_replaceSymbols (b : Bindings Float) :
    w.Documented (w.replaceSymbols b).reply (.replaceSymbols b) := by
  rcases w.scope.firstConstant_cases b.entries with hall | ⟨before, n, hfirst⟩
  · refine .inl ⟨fun n hn => ?_, ?_⟩
    · obtain ⟨p, hp, rfl⟩ := List.mem_map.1 hn
      exact hall p hp
    · rw [replaceSymbols, Scope.withVariables_of_not_isConstant hall]
  · obtain ⟨x, after, hentries⟩ := hfirst.2.2
    have hname : n ∈ b.names := by simp [Bindings.names, hentries]
    refine .inr ⟨n, hname, hfirst.2.1, ?_⟩
    rw [replaceSymbols, Scope.withVariables_of_firstConstant hfirst]
    rfl

/-- Where digits are kept every command is answered as documented. -/
theorem documented_run (hf : w.formula.Sound)
    (options : w.formula.settings.options.keepsDigits = true) (c : Command) :
    w.Documented (w.run c).reply c := by
  cases c with
  | parse =>
    obtain ⟨e, he⟩ := @Formula.exists_parse_eq_ok _ w.scope hf.built.scanner options
    refine ⟨e, ?_⟩
    show ((w.formula.parse w.scope).1.map Reply.parsed).mapError Problem.fault = _
    rw [he]
    rfl
  | evaluate => exact documented_evaluate hf
  | setSymbol n x => exact documented_setSymbol n x
  | replaceSymbols b => exact documented_replaceSymbols b
  | _ => exact ⟨_, rfl⟩

end Worksheet

namespace Workspace

/-- Commands on the formula of a name are answered as documented. -/
structure Documented (w : Workspace) (name : String) (p : Placed) : Prop where
  formula (c : Worksheet.Command) : ∃ reply, (w.run (.formula name c)).reply = .formula reply ∧
    (w.sheet p).Documented reply c
  copy (target : String) (source : Option String) :
    (w.run (.copy name target source)).reply = .nothing
  move (place : Place) (h : (w.locate place).isSome = true) :
    (w.run (.move name place)).reply = .itself

theorem sound_of_after {cs : List Command}
    (hadds : ∀ c ∈ cs, ∀ f, c.Adds f → f.reading = .none ∧ f.settings.Built) {name : String}
    {p : Placed} (hp : (({} : Workspace).after cs).formulas name = some p) : p.formula.Sound := by
  refine forall_formulas (fun f source hf => ?_) (fun f scope hf => hf.parse scope)
    (fun _ _ h => absurd h formulas_empty) (fun c hc f hf => ?_) hp
  · exact .of_none hf.built rfl
  · obtain ⟨hreading, hbuilt⟩ := hadds c hc f hf
    exact .of_none hbuilt hreading

theorem run_parse {w : Workspace} {name : String} {p : Placed} (hp : w.formulas name = some p) :
    (w.run (.formula name .parse)).reply =
      .formula (((p.formula.parse (w.scopes p.scope)).1.map .parsed).mapError .fault) := by
  simp only [run, runFormula, hp]
  rfl

theorem documented_of_sound {w : Workspace} {name : String} {p : Placed}
    (hp : w.formulas name = some p) (hf : p.formula.Sound)
    (options : p.formula.settings.options.keepsDigits = true) : w.Documented name p := by
  refine ⟨fun c => ?_, fun target source => ?_, fun place hplace => ?_⟩
  · refine ⟨((w.sheet p).run c).reply, ?_, Worksheet.documented_run hf options c⟩
    simp only [run, runFormula, hp]
  · simp only [run, sheet?, hp, Option.map_some]
  · obtain ⟨i, hi⟩ := Option.isSome_iff_exists.1 hplace
    simp only [run, hp, hi]

/-! ## Digits as separators -/

theorem parse_of_literal {o : Literal.Options} {c : Char} {cs : List Char} {x : Literal.Fault}
    (hc : Number.isDigit c = true) (hlength : cs.length ≤ 2)
    (hliteral : Literal.scan o (c :: cs) = .error x) :
    (Formula.parse { source := String.ofList (c :: cs), settings := { options := o } } {}).1 =
      .error (.literal x) := by
  have hstarts : Text.startsOperand c = true := by simp [Text.startsOperand, hc]
  have hname : Lexicon.isName { options := o } (Text.nameRun (c :: cs)) = false :=
    Lexicon.isName_eq_false (fun _ h => Bool.noConfusion h) (Text.not_isLetter_of_isDigit hc)
  have hscan : Lexicon.scan { options := o } 0 (String.ofList (c :: cs)).toList =
      .error (.fault (.literal x)) := by
    rw [String.toList_ofList, Lexicon.scan, Lexicon.pieceAt_fault hstarts hname hliteral]
  have hbound : (String.ofList (c :: cs)).length ≤ ({} : Limits).length := by
    rw [String.length_ofList, List.length_cons]
    exact Nat.le_trans (Nat.succ_le_succ hlength) (by decide)
  have htokens : Lexicon.tokens { options := o } {} (String.ofList (c :: cs)) =
      .error (.fault (.literal x)) :=
    Lexicon.tokens_eq_error_iff.2 (.inr (.inl ⟨hbound, _, hscan, rfl⟩))
  have hlexicon : Settings.lexicon { options := o } {} = { options := o } := rfl
  rw [Formula.parse, Settings.compile, Settings.toProgram, hlexicon, htokens]
  rfl

def addFormula (source : String) (settings : Settings) : Command :=
  .add "f" { formula := { source, settings } }

theorem formula_addFormula (source : String) (settings : Settings) :
    (({} : Workspace).after [addFormula source settings]).formulas "f" =
      some ⟨{ source, settings }, 0⟩ := rfl

theorem scope_addFormula (source : String) (settings : Settings) :
    (({} : Workspace).after [addFormula source settings]).scopes 0 = {} := rfl

theorem built_of_addFormula {source : String} {o : Literal.Options} {c : Command} {f : Formula}
    (hc : c ∈ [addFormula source { options := o }]) (hf : c.Adds f) :
    f.reading = .none ∧ f.settings.Built := by
  obtain rfl := List.mem_singleton.1 hc
  obtain rfl := hf
  exact ⟨rfl, ⟨[], nofun, rfl⟩, rfl⟩

/--
Where digits are kept, and only there, commands are answered as documented on all formulas of all
runs.
-/
theorem documented_iff (o : Literal.Options) :
    o.keepsDigits = true ↔
      ∀ cs : List Command, (∀ c ∈ cs, ∀ f, c.Adds f → f.reading = .none ∧ f.settings.Built) →
        ∀ name p, (({} : Workspace).after cs).formulas name = some p →
          p.formula.settings.options = o → (({} : Workspace).after cs).Documented name p := by
  constructor
  · rintro ho cs hadds name p hp rfl
    exact documented_of_sound hp (sound_of_after hadds hp) ho
  · intro hall
    cases ho : o.keepsDigits with
    | true => rfl
    | false =>
      obtain ⟨c, cs, x, hc, hlength, hliteral⟩ := Literal.exists_scan_eq_error ho
      have hp := formula_addFormula (String.ofList (c :: cs)) { options := o }
      have hdocumented := hall _ (fun c hc f => built_of_addFormula hc) _ _ hp rfl
      obtain ⟨reply, hreply, e, rfl⟩ := hdocumented.formula .parse
      rw [run_parse hp, scope_addFormula, parse_of_literal hc hlength hliteral] at hreply
      cases hreply

/-- Where `5` separates digits, nothing is left of the literal `5`. -/
theorem fault_of_separator :
    ((({} : Workspace).after [addFormula "5" { options := { separator := some '5' } }]).run
      (.formula "f" .parse)).reply = .formula (.error (.fault (.literal (.decimal [])))) := by
  have hsource : "5" = String.ofList ['5'] := rfl
  have hliteral : Literal.scan { separator := some '5' } ['5'] = .error (.decimal []) := rfl
  rw [run_parse (formula_addFormula _ _), scope_addFormula, hsource,
    parse_of_literal (by decide) (by decide) hliteral]
  rfl

end Workspace

end Calculator
