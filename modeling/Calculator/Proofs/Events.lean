import Calculator.Proofs.Histories
import Calculator.Proofs.Lexing
import Calculator.Proofs.Parsing

/-!
# What the log tells

`Worksheet.Tells` and `Workspace.Tells` say what one command puts into the log, from the command,
the source and the reply: one entry for a parse, with the count of the source's tokens or with the
error that is replied, one for an evaluation whose outcome is a failure, and none for anything else,
a parse or an evaluation that ends in a fault among it. A `Chronicle` goes on with the next command
where the last one left the workspace. The log of a run is its one chronicle (`chronicle_iff_log`).
-/

namespace Calculator

open Evaluation (FailureKind)

/-- What an entry says beside the name of its event. -/
inductive Detail where
  | tokens (count : Nat)
  | error (position : Option Int) (message : String)
  | failure (kind : FailureKind) (position : Option Nat)

structure Entry where
  name : String
  detail : Detail

def Event.detail : Event → Detail
  | parsed count => .tokens count
  | parseFailed e => .error e.position e.message
  | evaluationFailed f => .failure f.kind (f.token.map Token.position)

def Event.entry (e : Event) : Entry := ⟨e.name, e.detail⟩

/-! ## One command on a formula -/

/-- The entries for a command on a worksheet and the reply to it. -/
inductive Worksheet.Tells (w : Worksheet) :
    Worksheet.Command → Except Problem Worksheet.Reply → List Entry → Prop
  | parsed {ts : List Token}
    (h : (w.formula.settings.lexicon w.scope).tokens w.formula.settings.limits w.formula.source =
      .ok ts) :
    Tells w .parse (.ok (.parsed none))
      [⟨"expression_parsed", .tokens (ts.filter fun t => !t.isParenthesis).length⟩]
  | refused {e : Error}
    (h : w.formula.settings.compile w.scope w.formula.source = .error (.error e)) :
    Tells w .parse (.ok (.parsed (some e)))
      [⟨"expression_parse_failed", .error e.position e.message⟩]
  /-- A literal has no value: the parse ends without a result. -/
  | faulted {x : Fault}
    (h : w.formula.settings.compile w.scope w.formula.source = .error (.fault x)) :
    Tells w .parse (.error (.fault x)) []
  | failed {o : Formula.Outcome} {kind : FailureKind} (h : o.report.success = false)
    (hkind : o.report.kind? = some kind) :
    Tells w .evaluate (.ok (.outcome o))
      [⟨"expression_evaluation_failed", .failure kind (o.report.token?.map Token.position)⟩]
  | computed {o : Formula.Outcome} (h : o.report.success = true) :
    Tells w .evaluate (.ok (.outcome o)) []
  | unread (h : w.formula.program = none) (e : Error) : Tells w .evaluate (.error (.error e)) []
  /-- An action refuses its operands: the evaluation ends without an outcome. -/
  | stopped {ts : List Token} {x : Fault} (hread : w.formula.program = some ts)
    (h : (Evaluation.evaluate w.formula.settings.actions w.scope ts).1 = .error (.fault x)) :
    Tells w .evaluate (.error (.fault x)) []
  | silent {c : Worksheet.Command} (h : c ≠ .parse ∧ c ≠ .evaluate)
    (reply : Except Problem Worksheet.Reply) : Tells w c reply []

namespace Worksheet

variable {w : Worksheet} {c : Command} {reply : Except Problem Reply}
  {entries entries' : List Entry}

theorem Tells.unique (h : w.Tells c reply entries) (h' : w.Tells c reply entries') :
    entries = entries' := by
  cases h with
  | parsed h =>
    cases h' with
    | parsed h' =>
      cases h.symm.trans h'
      rfl
    | silent h' => exact absurd rfl h'.1
  | refused e =>
    cases h' with
    | refused => rfl
    | silent h' => exact absurd rfl h'.1
  | failed h hkind =>
    cases h' with
    | failed h' hkind' =>
      cases hkind.symm.trans hkind'
      rfl
    | computed h' => cases h.symm.trans h'
    | silent h' => exact absurd rfl h'.2
  | computed h =>
    cases h' with
    | failed h' => cases h.symm.trans h'
    | computed => rfl
    | silent h' => exact absurd rfl h'.2
  | faulted | unread | stopped => cases h' <;> rfl
  | silent h =>
    cases h' with
    | parsed | refused | faulted => exact absurd rfl h.1
    | failed | computed | unread | stopped => exact absurd rfl h.2
    | silent => rfl

theorem tells_parse (w : Worksheet) :
    w.Tells .parse w.parse.reply (w.parse.events.map Event.entry) := by
  rw [parse, Formula.parse]
  cases hcompile : w.formula.settings.compile w.scope w.formula.source with
  | ok program =>
    have hprogram := Result.mapError_eq_ok_iff.1 hcompile
    obtain ⟨ts, hts, hperm⟩ := Settings.perm_of_toProgram hprogram
    have htold := Tells.parsed hts
    rw [← hperm.length_eq] at htold
    exact htold
  | error p =>
    cases p with
    | error e => exact .refused hcompile
    | fault x => exact .faulted hcompile

theorem tells_evaluate (w : Worksheet) :
    w.Tells .evaluate w.evaluate.reply (w.evaluate.events.map Event.entry) := by
  cases hread : w.formula.program with
  | none =>
    rw [evaluate, Formula.evaluate_of_none hread]
    exact .unread hread _
  | some ts =>
    rcases hrun : Evaluation.evaluate w.formula.settings.actions w.scope ts with
      ⟨(f | x) | x, s⟩ <;> simp only [evaluate, Formula.evaluate, hread, hrun]
    · exact .failed (o := .error f) rfl rfl
    · exact .stopped hread (by rw [hrun])
    · exact .computed (o := .ok x) rfl

theorem events_run (h : c ≠ .parse ∧ c ≠ .evaluate) : (w.run c).events = [] := by
  cases c with
  | parse => exact absurd rfl h.1
  | evaluate => exact absurd rfl h.2
  | setSymbol n x =>
    simp only [run, setSymbol]
    split <;> rfl
  | replaceSymbols b =>
    simp only [run, replaceSymbols]
    split <;> rfl
  | _ => rfl

theorem tells_run (w : Worksheet) (c : Command) :
    w.Tells c (w.run c).reply ((w.run c).events.map Event.entry) := by
  by_cases hparse : c = .parse
  · rw [hparse]
    exact w.tells_parse
  by_cases hevaluate : c = .evaluate
  · rw [hevaluate]
    exact w.tells_evaluate
  rw [events_run ⟨hparse, hevaluate⟩]
  exact .silent ⟨hparse, hevaluate⟩ _

end Worksheet

/-! ## One command of a workspace -/

namespace Workspace

/-- The entries for a command and the reply to it. -/
inductive Tells (w : Workspace) : Command → Reply → List Entry → Prop
  | formula {name : String} {s : Worksheet} {c : Worksheet.Command}
    {reply : Except Problem Worksheet.Reply} {entries : List Entry} (hs : w.sheet? name = some s)
    (h : s.Tells c reply entries) : Tells w (.formula name c) (.formula reply) entries
  | unknown {name : String} (h : w.sheet? name = none) (c : Worksheet.Command) :
    Tells w (.formula name c) (.unknown name) []
  | silent {c : Command} (h : ∀ name d, c ≠ .formula name d) (reply : Reply) : Tells w c reply []

variable {w : Workspace} {c : Command} {reply : Reply} {entries entries' : List Entry}

theorem Tells.unique (h : w.Tells c reply entries) (h' : w.Tells c reply entries') :
    entries = entries' := by
  cases h with
  | formula hs h =>
    cases h' with
    | formula hs' h' =>
      cases hs.symm.trans hs'
      exact h.unique h'
    | silent h' => exact absurd rfl (h' _ _)
  | unknown => cases h' <;> rfl
  | silent h =>
    cases h' with
    | formula => exact absurd rfl (h _ _)
    | unknown | silent => rfl

theorem tells_runFormula (w : Workspace) (name : String) (c : Worksheet.Command) :
    w.Tells (.formula name c) (w.runFormula name c).reply
      ((w.runFormula name c).events.map Event.entry) := by
  cases hp : w.formulas name with
  | none =>
    simp only [runFormula, hp]
    exact .unknown (by rw [sheet?, hp, Option.map_none]) c
  | some p =>
    have hs : w.sheet? name = some (w.sheet p) := by rw [sheet?, hp, Option.map_some]
    simp only [runFormula, hp]
    exact .formula hs ((w.sheet p).tells_run c)

theorem events_run (h : ∀ name d, c ≠ .formula name d) : (w.run c).events = [] := by
  cases c with
  | formula name c => exact absurd rfl (h name c)
  | table name c =>
    simp only [run, runTable]
    split <;> rfl
  | newTable | add | drop => rfl
  | nameTable | addOn | move | copy =>
    simp only [run]
    split <;> rfl

theorem tells_run (w : Workspace) (c : Command) :
    w.Tells c (w.run c).reply ((w.run c).events.map Event.entry) := by
  by_cases h : ∃ name d, c = .formula name d
  · obtain ⟨name, d, rfl⟩ := h
    exact w.tells_runFormula name d
  · have hother : ∀ name d, c ≠ .formula name d := fun name d hc => h ⟨name, d, hc⟩
    rw [events_run hother]
    exact .silent hother _

/-! ## Runs -/

def log (w : Workspace) : List Command → List Event
  | [] => []
  | c :: cs => (w.run c).events ++ (w.run c).workspace.log cs

/-- The entries for a run, each command told from its reply. -/
inductive Chronicle : Workspace → List Command → List Entry → Prop
  | nil (w : Workspace) : Chronicle w [] []
  | cons {w : Workspace} {c : Command} {cs : List Command} {now later : List Entry}
    (h : w.Tells c (w.run c).reply now) (hlater : Chronicle (w.run c).workspace cs later) :
    Chronicle w (c :: cs) (now ++ later)

/-! ### A parse that fails and an evaluation that fails -/

def stray : Error := { cause := .unknownCharacter '@' 0, expression := some "@" }

theorem parse_stray :
    Formula.parse { source := "@" } {} =
      (.ok (some stray), { source := "@", reading := .error stray }) := by
  have hscan : Lexicon.scan {} 0 ['@'] =
      .error (.error { cause := .unknownCharacter '@' 0 }) := by
    rw [Lexicon.scan]
    rfl
  have htokens : (({} : Settings).lexicon {}).tokens {} "@" = .error (.error stray) :=
    Lexicon.tokens_eq_error_iff.2 (.inr (.inl ⟨by decide, _, hscan, rfl⟩))
  have hcompile : ({} : Settings).compile {} "@" = .error (.error stray) := by
    rw [Settings.compile, Settings.toProgram, htokens]
    rfl
  rw [Formula.parse, hcompile]

/-- The program of `x+`. -/
def unfed : List Token := [.ofSymbol "x" 0, .ofOperator .add 1]

theorem parse_unfed :
    Formula.parse { source := "x+" } {} =
      (.ok none, { source := "x+", reading := .program unfed }) := by
  have hplus : Lexicon.scan {} 1 ['+'] = .ok [.ofOperator .add 1] := by
    refine (@Lexicon.scan_piece {} '+' [] [] (.operator .add) _ 1 rfl rfl rfl).trans ?_
    rw [Lexicon.scan]
    rfl
  have hscan : Lexicon.scan {} 0 "x+".toList =
      (Lexicon.scan {} 1 ['+']).map (Token.ofSymbol "x" 0 :: ·) :=
    @Lexicon.scan_piece {} 'x' [] ['+'] (.symbol ['x']) _ 0 rfl rfl rfl
  rw [hplus] at hscan
  exact Formula.parse_of_tokens
    (Lexicon.tokens_eq_ok_iff.2 ⟨by decide, by decide, _, hscan, rfl⟩) rfl

/-- After the parse that fails there is no program to evaluate. -/
def failures (settings : Settings) : List Command :=
  [.add "f" ⟨{ source := "@", settings }, {}⟩, .formula "f" .parse, .formula "f" .evaluate,
    .formula "f" (.load "x+"), .formula "f" .parse, .formula "f" .evaluate]

theorem log_failures :
    log {} (failures {}) =
      [.parseFailed stray, .parsed 2, .evaluationFailed (.underflow (.ofOperator .add 1) 2 1)] := by
  simp only [failures, log, run, addSheet, store, setFormula, setScope, ite_self, Nat.zero_add,
    runFormula, ↓reduceIte, Bool.false_eq_true, sheet, Worksheet.run, Worksheet.parse, parse_stray,
    parse_unfed, Worksheet.parseEvents, Worksheet.evaluate, Formula.evaluate, Formula.load,
    Formula.program, List.nil_append]
  rfl

/-- The log of a run is its one chronicle. -/
theorem chronicle_iff_log (w : Workspace) (cs : List Command) (entries : List Entry) :
    w.Chronicle cs entries ↔ (w.log cs).map Event.entry = entries := by
  induction cs generalizing w entries with
  | nil =>
    constructor
    · rintro ⟨⟩
      rfl
    · rintro rfl
      exact .nil w
  | cons c cs ih =>
    rw [log, List.map_append]
    constructor
    · intro h
      cases h with
      | cons h hlater => rw [(ih _ _).1 hlater, (w.tells_run c).unique h]
    · rintro rfl
      exact .cons (w.tells_run c) ((ih _ _).2 rfl)

/-- The evaluation without a program is not told of. -/
theorem chronicle_failures :
    Chronicle {} (failures {})
      [⟨"expression_parse_failed", .error (some 0) "Unknown token encountered '@'"⟩,
        ⟨"expression_parsed", .tokens 2⟩,
        ⟨"expression_evaluation_failed", .failure .stackUnderflow (some 1)⟩] ∧
      ¬ Chronicle {} (failures {}) [] := by
  constructor
  · refine (chronicle_iff_log _ _ _).2 ?_
    rw [log_failures]
    rfl
  · intro h
    have hnone := (chronicle_iff_log _ _ _).1 h
    rw [log_failures] at hnone
    cases hnone

end Workspace

end Calculator
