import Calculator.Proofs.Lexing
import Calculator.Proofs.Lookups
import Calculator.Proofs.Programs

/-!
# When a formula has to be parsed again

A formula that is parsed is evaluated while symbols are bound and removed. A program binds no names
but those written in it (`evaluate_keeps`), and a name that is asked for is written there only if it
was bound before. So of the names on which the parse depends only those change that a command
`Names`, and another parse finds the same unless one of them is bound that was not, or no longer
bound that was (`parse_after_symbols`).
-/

namespace Calculator

/-! ## What becomes bound -/

theorem Bindings.contains_insert {α : Type} (b : Bindings α) (name n : String) (x : α) :
    (b.insert name x).contains n = (n == name || b.contains n) := by
  rw [← find?_isSome, ← find?_isSome, find?_insert]
  by_cases h : n = name <;> simp [h]

theorem Bindings.contains_erase {α : Type} (b : Bindings α) (name n : String) :
    (b.erase name).contains n = (n != name && b.contains n) := by
  rw [← find?_isSome, ← find?_isSome, find?_erase]
  by_cases h : n = name <;> simp [h]

namespace Scope

variable {α : Type} {s t : Scope α} {name n : String}

theorem set_eq_ok_iff {x : α} : s.set name x = .ok t ↔
    s.isConstant name = false ∧ t = { s with vars := s.vars.insert name x } := by
  unfold set
  cases s.isConstant name <;> simp [eq_comm]

theorem constants_of_set {x : α} (h : s.set name x = .ok t) : t.constants = s.constants := by
  obtain ⟨_, rfl⟩ := set_eq_ok_iff.1 h
  rfl

theorem contains_of_set {x : α} (h : s.set name x = .ok t) :
    t.contains n = (n == name || s.contains n) := by
  obtain ⟨_, rfl⟩ := set_eq_ok_iff.1 h
  rw [contains, Bindings.contains_insert, contains, Bool.or_assoc]

theorem contains_delete (s : Scope α) (name n : String) :
    (s.delete name).contains n = ((n != name && s.contains n) || s.isConstant n) := by
  rw [delete, contains, Bindings.contains_erase, contains, isConstant]
  cases n != name <;> cases s.vars.contains n <;> simp

theorem contains_of_isConstant (h : s.isConstant n = true) : s.contains n = true := by
  rw [isConstant] at h
  rw [contains, h, Bool.or_true]

end Scope

namespace Evaluation

variable {actions : ActionTable} {m m' : Machine} {ts : List Token} {P : Scope Float → Prop}

theorem assign_eq_ok {scope scope' : Scope Float} {operator : Token} {target : Operand} {x : Float}
    (h : assign scope operator target x = .ok scope') :
    ∃ t, target = .token t ∧ t.Names t.text ∧ scope.set t.text x = .ok scope' := by
  unfold assign at h
  split at h
  · cases h
  · next t =>
    split at h
    · next hsymbol =>
      split at h
      · next s hset =>
        cases h
        exact ⟨t, rfl, ⟨hsymbol, rfl⟩, hset⟩
      · cases h
    · cases h

/-- An assignment binds the name on its left. Any other step leaves the scope as it is. -/
theorem scope_of_step {t : Token} (h : step actions m t = .ok m') :
    t.isA .assign = false ∧ m'.scope = m.scope ∨ ∃ right u rest x, t.isA .assign = true ∧
      m.stack = right :: .token u :: rest ∧ m'.stack = .number x :: rest ∧ u.Names u.text ∧
      m.scope.set u.text x = .ok m'.scope := by
  rcases step_cases h with ⟨u, rfl, rfl⟩ | ⟨k, u, rfl, h⟩
  · exact .inl ⟨u.isA _, rfl⟩
  have hassign : u.operator ≠ .assign → u.token.isA .assign = false := fun hne => by
    rwa [Bool.eq_false_iff, Ne, u.isA_iff]
  rcases execute_cases h with ⟨ho, a, rest, x, y, _, _, _, rfl⟩ | ⟨_, left, right, rest, hstack, h⟩
  · refine .inl ⟨hassign fun hne => ?_, rfl⟩
    rw [hne] at ho
    cases ho
  rcases h with ⟨ho, x, scope, _, hscope, rfl⟩ | ⟨hne, x, y, z, _, _, _, rfl⟩
  · obtain ⟨v, rfl, hname, hset⟩ := assign_eq_ok hscope
    exact .inr ⟨right, v, rest, x, u.isA_iff.2 ho, hstack, rfl, hname, hset⟩
  · exact .inl ⟨hassign hne, rfl⟩

/-- A machine that runs a program: the operands that are still tokens are written in it. -/
structure Confined (ts : List Token) (P : Scope Float → Prop) (m : Machine) : Prop where
  scope : P m.scope
  stack (t : Token) (h : Operand.token t ∈ m.stack) : t ∈ ts

/-- A property of scopes that is kept when a name of the program is bound. -/
def KeptBy (ts : List Token) (P : Scope Float → Prop) : Prop :=
  ∀ t ∈ ts, ∀ n, t.Names n → ∀ s x s', Scope.set s n x = .ok s' → P s → P s'

theorem Confined.step {t : Token} (hP : KeptBy ts P) (hm : Confined ts P m) (ht : t ∈ ts)
    (h : step actions m t = .ok m') : Confined ts P m' := by
  obtain ⟨hscope, hstack⟩ := hm
  refine ⟨?_, fun u hu => ?_⟩
  · rcases scope_of_step h with ⟨_, hsame⟩ | ⟨right, u, rest, x, _, hm, _, hname, hset⟩
    · rwa [hsame]
    · have hleft : u ∈ ts := hstack u (hm ▸ List.mem_cons_of_mem _ List.mem_cons_self)
      exact hP u hleft _ hname _ _ _ hset hscope
  · rcases mem_stack_of_step h hu with ⟨rfl, _⟩ | hu
    · exact ht
    · exact hstack u hu

theorem Confined.run {us : List Token} (hP : KeptBy ts P) (hm : Confined ts P m)
    (hus : ∀ t ∈ us, t ∈ ts) : Confined ts P (run actions m us).2 := by
  induction us generalizing m with
  | nil => exact hm
  | cons u us ih =>
    obtain ⟨hu, hus⟩ := List.forall_mem_cons.1 hus
    rw [Evaluation.run]
    split
    · next m' hstep => exact ih (hm.step hP hu hstep) hus
    · exact hm

theorem evaluate_snd (actions : ActionTable) (scope : Scope Float) (ts : List Token) :
    (evaluate actions scope ts).2 = (run actions { scope } ts).2.scope := by
  rw [evaluate]
  split <;> next hrun => rw [hrun]

theorem evaluate_keeps (hP : KeptBy ts P) {scope : Scope Float} (h : P scope) :
    P (evaluate actions scope ts).2 := by
  have hstart : Confined ts P { scope } := ⟨h, nofun⟩
  rw [evaluate_snd]
  exact (hstart.run hP fun _ ht => ht).scope

end Evaluation

namespace Formula

variable {f : Formula} {scope : Scope Float}

theorem evaluate_snd {ts : List Token} (hts : f.program = some ts) :
    (f.evaluate scope).2 = (Evaluation.evaluate f.settings.actions scope ts).2 := by
  unfold evaluate
  rw [hts]
  dsimp only
  split <;> next hrun => rw [hrun]

theorem evaluate_keeps {P : Scope Float → Prop}
    (hP : ∀ ts, f.program = some ts → Evaluation.KeptBy ts P) (h : P scope) :
    P (f.evaluate scope).2 := by
  cases hts : f.program with
  | none =>
    unfold evaluate
    rw [hts]
    exact h
  | some ts =>
    rw [evaluate_snd hts]
    exact Evaluation.evaluate_keeps (hP ts hts) h

end Formula

/-! ## Symbol changes -/

namespace Worksheet

/-- The command changes no more than what is bound. -/
def Command.ChangesSymbols : Command → Prop
  | .setSymbol _ _ | .deleteSymbol _ | .evaluate => True
  | _ => False

def Command.Names (n : String) : Command → Prop
  | .setSymbol m _ | .deleteSymbol m => m = n
  | _ => False

def after (w : Worksheet) (cs : List Command) : Worksheet := cs.foldl (fun w c => (w.run c).sheet) w

variable {w : Worksheet} {c : Command} {cs : List Command} {n : String}

theorem formula_of_changesSymbols (hc : c.ChangesSymbols) :
    (w.run c).sheet.formula = w.formula := by
  rw [formula_run]
  cases c <;> first | rfl | cases hc

theorem constants_run (hc : c.ChangesSymbols) :
    (w.run c).sheet.scope.constants = w.scope.constants := by
  cases c with
  | setSymbol m x =>
    simp only [run, setSymbol]
    split
    · next s hset => exact Scope.constants_of_set hset
    · rfl
  | deleteSymbol m => rfl
  | evaluate =>
    refine Formula.evaluate_keeps (P := fun s => s.constants = w.scope.constants) ?_ rfl
    exact fun _ _ _ _ _ _ _ _ _ hset hs => (Scope.constants_of_set hset).trans hs
  | _ => cases hc

theorem contains_run (hc : c.ChangesSymbols) (hnames : ¬ c.Names n)
    (hprogram : w.scope.contains n = true ∨
      ∀ ts, w.formula.program = some ts → ∀ t ∈ ts, ¬ t.Names n) :
    (w.run c).sheet.scope.contains n = w.scope.contains n := by
  cases c with
  | setSymbol m x =>
    have hne : (n == m) = false := by simpa using fun h : n = m => hnames h.symm
    simp only [run, setSymbol]
    split
    · next s hset => rw [Scope.contains_of_set hset, hne, Bool.false_or]
    · rfl
  | deleteSymbol m =>
    have hne : (n != m) = true := by simpa using fun h : n = m => hnames h.symm
    show (w.scope.delete m).contains n = w.scope.contains n
    rw [Scope.contains_delete, hne, Bool.true_and, Scope.contains, Scope.isConstant, Bool.or_assoc,
      Bool.or_self]
  | evaluate =>
    refine Formula.evaluate_keeps (P := fun s => s.contains n = w.scope.contains n) ?_ rfl
    intro ts hts t ht m hm s x s' hset hs
    rw [Scope.contains_of_set hset, hs]
    by_cases hn : n = m
    · have hbound := hprogram.resolve_right fun h => h ts hts t ht (hn ▸ hm)
      rw [hbound, Bool.or_true]
    · simp [hn]
  | _ => cases hc

theorem after_keeps {P : Worksheet → Prop} (hP : ∀ c ∈ cs, ∀ v, P v → P (v.run c).sheet)
    (h : P w) : P (w.after cs) := by
  induction cs generalizing w with
  | nil => exact h
  | cons c cs ih =>
    obtain ⟨hc, hcs⟩ := List.forall_mem_cons.1 hP
    exact ih hcs (hc w h)

theorem formula_after (hcs : ∀ c ∈ cs, c.ChangesSymbols) : (w.after cs).formula = w.formula := by
  refine after_keeps (P := fun v => v.formula = w.formula) (fun c hc v hv => ?_) rfl
  exact (formula_of_changesSymbols (hcs c hc)).trans hv

theorem constants_after (hcs : ∀ c ∈ cs, c.ChangesSymbols) :
    (w.after cs).scope.constants = w.scope.constants := by
  refine after_keeps (P := fun v => v.scope.constants = w.scope.constants) (fun c hc v hv => ?_) rfl
  exact (constants_run (hcs c hc)).trans hv

theorem contains_after (hcs : ∀ c ∈ cs, c.ChangesSymbols) (hnames : ∀ c ∈ cs, ¬ c.Names n)
    (hprogram : w.scope.contains n = true ∨
      ∀ ts, w.formula.program = some ts → ∀ t ∈ ts, ¬ t.Names n) :
    (w.after cs).scope.contains n = w.scope.contains n := by
  have hkept : (w.after cs).formula = w.formula ∧
      (w.after cs).scope.contains n = w.scope.contains n := by
    refine after_keeps (P := fun v => v.formula = w.formula ∧
      v.scope.contains n = w.scope.contains n) (fun c hc v hv => ?_) ⟨rfl, rfl⟩
    obtain ⟨hformula, hcontains⟩ := hv
    refine ⟨(formula_of_changesSymbols (hcs c hc)).trans hformula, ?_⟩
    rw [← hcontains]
    refine contains_run (hcs c hc) (hnames c hc) ?_
    rwa [hformula, hcontains]
  exact hkept.2

/-- The worksheet of a formula that is parsed before commands are run. -/
def parsedBefore (f : Formula) (scope : Scope Float) (cs : List Command) : Worksheet :=
  after ⟨(f.parse scope).2, scope⟩ cs

variable {f : Formula} {scope : Scope Float}

theorem parse_parsedBefore (hcs : ∀ c ∈ cs, c.ChangesSymbols) (scope' : Scope Float) :
    (parsedBefore f scope cs).formula = (f.parse scope).2 ∧
      (parsedBefore f scope cs).formula.parse scope' = f.parse scope' := by
  have hformula : (parsedBefore f scope cs).formula = (f.parse scope).2 := formula_after hcs
  exact ⟨hformula, by rw [hformula, Formula.parse_parse]⟩

theorem sheet_parse_iff (hparse : (f.parse scope).1 = .ok none)
    (hcs : ∀ c ∈ cs, c.ChangesSymbols) :
    ((parsedBefore f scope cs).run .parse).sheet = parsedBefore f scope cs ↔
      f.Agrees scope (parsedBefore f scope cs).scope := by
  obtain ⟨hformula, hagain⟩ := parse_parsedBefore hcs (parsedBefore f scope cs).scope
  have hsheet : ((parsedBefore f scope cs).run .parse).sheet =
      { parsedBefore f scope cs with
        formula := (f.parse (parsedBefore f scope cs).scope).2 } := by
    rw [← hagain]
    rfl
  rw [← Formula.parse_again_iff hparse, hsheet, ← hformula]
  constructor
  · exact congrArg formula
  · intro h
    rw [h]

theorem contains_of_asked (hparse : (f.parse scope).1 = .ok none)
    (hcs : ∀ c ∈ cs, c.ChangesSymbols) (hasked : n ∈ f.asked scope)
    (hnames : ∀ c ∈ cs, ¬ c.Names n) :
    (parsedBefore f scope cs).scope.contains n = scope.contains n := by
  obtain ⟨ts, hts, hprogram⟩ := Formula.program_of_parse hparse
  refine contains_after hcs hnames ?_
  by_cases hn : scope.contains n = true
  · exact .inl hn
  · refine .inr fun us hus t ht htn => hn ?_
    obtain rfl := Option.some.inj (hprogram.symm.trans hus)
    exact Settings.contains_of_asked hts ht htn hasked

theorem isConstant_of_always (hparse : (f.parse scope).1 = .ok none)
    (h : ∀ cs : List Command, (∀ c ∈ cs, c.ChangesSymbols) →
      ((parsedBefore f scope cs).run .parse).sheet = parsedBefore f scope cs)
    (hasked : n ∈ f.asked scope) : scope.isConstant n = true := by
  have same (c : Command) (hc : c.ChangesSymbols) :
      (run ⟨(f.parse scope).2, scope⟩ c).sheet.scope.contains n = scope.contains n := by
    have hcs : ∀ d ∈ [c], d.ChangesSymbols := by simpa using hc
    exact (sheet_parse_iff hparse hcs).1 (h [c] hcs) n hasked
  have hdelete : (scope.delete n).contains n = scope.contains n := same (.deleteSymbol n) trivial
  rw [Scope.contains_delete, bne_self_eq_false, Bool.false_and, Bool.false_or] at hdelete
  by_cases hconstant : scope.isConstant n = true
  · exact hconstant
  · have hset : scope.set n 0 = .ok { scope with vars := scope.vars.insert n 0 } :=
      Scope.set_eq_ok_iff.2 ⟨by simpa using hconstant, rfl⟩
    have hbound := same (.setSymbol n 0) trivial
    simp only [run, setSymbol, hset, Scope.contains_of_set hset, beq_self_eq_true, Bool.true_or]
      at hbound
    rw [hdelete, ← hbound]

/--
After a successful parse and any changes of symbols, another parse changes nothing if and only if
the same of the names asked for are bound as at the first. It succeeds then, and the evaluation
behind it is the one without it. So it is if no command binds or removes such a name, and so it
always is if and only if all of them are constants.
-/
theorem parse_after_symbols (hparse : (f.parse scope).1 = .ok none) :
    (∀ cs : List Command, (∀ c ∈ cs, c.ChangesSymbols) →
      (((parsedBefore f scope cs).run .parse).sheet = parsedBefore f scope cs ↔
        f.Agrees scope (parsedBefore f scope cs).scope) ∧
      (f.Agrees scope (parsedBefore f scope cs).scope →
        ((parsedBefore f scope cs).run .parse).reply = .ok (.parsed none) ∧
        ((parsedBefore f scope cs).run .parse).sheet.run .evaluate =
          (parsedBefore f scope cs).run .evaluate) ∧
      ((∀ n ∈ f.asked scope, ∀ c ∈ cs, ¬ c.Names n) →
        f.Agrees scope (parsedBefore f scope cs).scope)) ∧
    ((∀ cs : List Command, (∀ c ∈ cs, c.ChangesSymbols) →
        ((parsedBefore f scope cs).run .parse).sheet = parsedBefore f scope cs) ↔
      ∀ n ∈ f.asked scope, scope.isConstant n = true) := by
  refine ⟨fun cs hcs => ⟨sheet_parse_iff hparse hcs, fun hagree => ?_, fun hnames n hn => ?_⟩,
    fun h n hn => isConstant_of_always hparse h hn, fun hall cs hcs => ?_⟩
  · obtain ⟨_, hagain⟩ := parse_parsedBefore hcs (parsedBefore f scope cs).scope
    refine ⟨?_, by rw [(sheet_parse_iff hparse hcs).2 hagree]⟩
    show ((Formula.parse _ _).1.map Reply.parsed).mapError Problem.fault = _
    rw [hagain, Formula.parse_of_agrees hagree, hparse]
    rfl
  · exact contains_of_asked hparse hcs hn (hnames n hn)
  · refine (sheet_parse_iff hparse hcs).2 fun n hn => ?_
    have hafter : (parsedBefore f scope cs).scope.isConstant n = true := by
      rw [Scope.isConstant, parsedBefore, constants_after hcs]
      exact hall n hn
    rw [Scope.contains_of_isConstant hafter, Scope.contains_of_isConstant (hall n hn)]

/-! ## A numeral with a name behind it -/

/-- The tokens of `1st` where it is not bound. -/
def ordinal : List Token := [.ofNumber "1" (Number.Decimal.mk 1 0).toFloat 0, .ofSymbol "st" 1]

def ordinalScope : Scope Float := { vars := Bindings.empty.insert "1st" 10 }

theorem tokens_ordinal : (({} : Settings).lexicon {}).tokens {} "1st" = .ok ordinal := by
  have hone : Lexicon.scan {} 0 "1st".toList = (Lexicon.scan {} 1 ['s', 't']).map
      (Token.ofNumber "1" (Number.Decimal.mk 1 0).toFloat 0 :: ·) :=
    @Lexicon.scan_piece {} '1' [] ['s', 't']
      (.number ⟨['1'], (Number.Decimal.mk 1 0).toFloat⟩) _ 0 rfl rfl rfl
  have hname : Lexicon.scan {} 1 ['s', 't'] = .ok [.ofSymbol "st" 1] := by
    refine (@Lexicon.scan_piece {} 's' ['t'] [] (.symbol ['s', 't']) _ 1 rfl rfl rfl).trans ?_
    rw [Lexicon.scan]
    rfl
  rw [hname] at hone
  exact Lexicon.tokens_eq_ok_iff.2 ⟨by decide, by decide, _, hone, rfl⟩

theorem tokens_ordinalScope :
    (({} : Settings).lexicon ordinalScope).tokens {} "1st" = .ok [.ofSymbol "1st" 0] := by
  have hscan : (({} : Settings).lexicon ordinalScope).scan 0 "1st".toList =
      .ok [.ofSymbol "1st" 0] := by
    refine (@Lexicon.scan_piece (({} : Settings).lexicon ordinalScope) '1' ['s', 't'] []
      (.symbol ['1', 's', 't']) _ 0 rfl rfl rfl).trans ?_
    rw [Lexicon.scan]
    rfl
  exact Lexicon.tokens_eq_ok_iff.2 ⟨by decide, by decide, _, hscan, rfl⟩

theorem parse_ordinal :
    Formula.parse { source := "1st" } {} =
      (.ok none, { source := "1st", reading := .program ordinal }) :=
  Formula.parse_of_tokens tokens_ordinal rfl

theorem parsedBefore_ordinal :
    parsedBefore { source := "1st" } {} [.setSymbol "1st" 10] =
      ⟨{ source := "1st", reading := .program ordinal }, ordinalScope⟩ := by
  rw [parsedBefore, parse_ordinal]
  rfl

/-- When `1st` is bound after the parse, the program still has two operands and so no value. -/
theorem evaluate_ordinal :
    (Formula.parse { source := "1st" } {}).1 = .ok none ∧
      ((parsedBefore { source := "1st" } {} [.setSymbol "1st" 10]).run .evaluate).reply =
        .ok (.outcome (.error (.leftover 2 (some (.ofSymbol "st" 1))))) ∧
      (((parsedBefore { source := "1st" } {} [.setSymbol "1st" 10]).run .parse).sheet.run
        .evaluate).reply = .ok (.outcome (.ok 10)) := by
  have hagain : Formula.parse { source := "1st", reading := .program ordinal } ordinalScope =
      (.ok none, { source := "1st", reading := .program [.ofSymbol "1st" 0] }) :=
    Formula.parse_of_tokens tokens_ordinalScope rfl
  rw [parsedBefore_ordinal]
  refine ⟨by rw [parse_ordinal], rfl, ?_⟩
  have hsheet :
      (run ⟨{ source := "1st", reading := .program ordinal }, ordinalScope⟩ .parse).sheet =
        ⟨{ source := "1st", reading := .program [.ofSymbol "1st" 0] }, ordinalScope⟩ := by
    simp only [run, parse, hagain]
  rw [hsheet]
  rfl

/-- Another parse after `1st` is bound changes the worksheet. -/
theorem parse_after_ordinal :
    (Formula.parse { source := "1st" } {}).1 = .ok none ∧
      (∀ c ∈ [Command.setSymbol "1st" 10], c.ChangesSymbols) ∧
      ((parsedBefore { source := "1st" } {} [.setSymbol "1st" 10]).run .parse).sheet ≠
        parsedBefore { source := "1st" } {} [.setSymbol "1st" 10] := by
  have hparse : (Formula.parse { source := "1st" } {}).1 = .ok none := by rw [parse_ordinal]
  have hcs : ∀ c ∈ [Command.setSymbol "1st" 10], c.ChangesSymbols := by
    simp [Command.ChangesSymbols]
  have hasked : "1st" ∈ Formula.asked { source := "1st" } {} := by
    have hpiece : Lexicon.pieceAt {} '1' ['s', 't'] =
        .ok (some (.number ⟨['1'], (Number.Decimal.mk 1 0).toFloat⟩)) := rfl
    show "1st" ∈ Lexicon.asked {} ['1', 's', 't']
    rw [Lexicon.asked, hpiece]
    exact List.mem_append_left _ (by decide)
  obtain ⟨hiff, -⟩ := (parse_after_symbols hparse).1 _ hcs
  refine ⟨hparse, hcs, fun hsame => ?_⟩
  have hagree := hiff.1 hsame "1st" hasked
  rw [parsedBefore_ordinal] at hagree
  exact absurd hagree (by decide)

end Worksheet

end Calculator
