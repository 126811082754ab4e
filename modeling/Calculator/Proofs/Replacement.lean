import Calculator.Proofs.Refusals
import Calculator.Proofs.Sharing

/-!
# New symbols for a formula

New symbols for a formula become the variables of a scope of their own, beside the constants of the
old one, and only then is the formula given this scope. A constant among the new names is found
while nothing has changed yet. Otherwise the formula stays as it was read, and the old scope, with
all that refer to it, stays as it was (`Replaced`). Nothing is done by halves
(`replaceSymbols_all_or_nothing`).
-/

namespace Calculator.Workspace

variable {w : Workspace} {name : String} {p : Placed} {symbols : Bindings Float}

/-- A formula has been given a new scope, with the number `i`, and nothing else has been done. -/
structure Replaced (w : Workspace) (name : String) (p : Placed) (symbols : Bindings Float)
    (v : Workspace) (i : Nat) : Prop where
  /-- Source, settings and reading of the formula stay. -/
  formula : v.formulas name = some { p with scope := i }
  contents : v.scopes i = { vars := symbols, constants := (w.scopes p.scope).constants }
  scopes (j : Nat) (hj : j ≠ i) : v.scopes j = w.scopes j
  others (b : Place) (hb : b ≠ .formula name) : v.locate b = w.locate b
  unused (b : Place) : w.locate b ≠ some i
  /-- What is done to the new scope later on is not seen elsewhere, nor the other way round. -/
  apart (b : Place) (hb : b ≠ .formula name) (cs : List Command)
    (hcs : v.NeverShares (.formula name) b cs) : (v.after cs).Apart (.formula name) b

theorem run_replaceSymbols_of_ok (hp : w.formulas name = some p) {s : Scope Float}
    (h : (w.scopes p.scope).withVariables symbols = .ok s) :
    w.run (.formula name (.replaceSymbols symbols)) =
      ⟨.formula (.ok .itself), w.addSheet name ⟨p.formula, s⟩, []⟩ := by
  simp [run, runFormula, hp, sheet, Worksheet.run, Worksheet.replaceSymbols, h]

theorem run_replaceSymbols_of_error (hp : w.formulas name = some p) {e : Scope.Refusal}
    (h : (w.scopes p.scope).withVariables symbols = .error e) :
    w.run (.formula name (.replaceSymbols symbols)) =
      ⟨.formula (.error (.error e.toError)), w, []⟩ := by
  simp [run, runFormula, hp, sheet, Worksheet.run, Worksheet.replaceSymbols, h, setScope_self,
    setFormula_self hp]

theorem Closed.replaced (hw : w.Closed) {sheet : Worksheet} (hformula : sheet.formula = p.formula)
    (hscope : sheet.scope = { vars := symbols, constants := (w.scopes p.scope).constants }) :
    w.Replaced name p symbols (w.addSheet name sheet) w.next := by
  have hchange : Change w (.add name sheet) (w.addSheet name sheet) := change_run w _
  have hothers (b : Place) (hb : b ≠ .formula name) :
      (w.addSheet name sheet).locate b = w.locate b := hchange.locate hb
  have hunused (b : Place) : w.locate b ≠ some w.next := fun h => Nat.lt_irrefl _ (hw b _ h)
  have hapart (b : Place) (hb : b ≠ .formula name) :
      (w.addSheet name sheet).Apart (.formula name) b := by
    intro i hi
    rw [hothers b hb]
    simp only [locate, addSheet, setFormula, if_true, Option.map_some, Option.some.injEq] at hi
    exact hi ▸ hunused b
  exact {
    formula := by simp [addSheet, setFormula, hformula]
    contents := by simp [addSheet, setFormula, store, setScope, hscope]
    scopes := fun j hj => if_neg hj
    others := hothers
    unused := hunused
    apart := fun b hb cs hcs => (hapart b hb).after (hw.change hchange) hb.symm hcs }

/--
New symbols are refused exactly where one of them is a constant, for the first such, and then
nothing at all has changed. Otherwise they are the variables of a new scope that belongs to the
formula alone.
-/
theorem replaceSymbols_all_or_nothing {cs : List Command}
    (hp : (({} : Workspace).after cs).formulas name = some p) (symbols : Bindings Float) :
    let w := ({} : Workspace).after cs
    let answer := w.run (.formula name (.replaceSymbols symbols))
    ((∃ e, answer.reply = .formula (.error e)) ↔
        ∃ n ∈ symbols.names, (w.scopes p.scope).isConstant n = true) ∧
      (∀ e, answer.reply = .formula (.error e) →
        answer.workspace = w ∧
          ∃ before n, (w.scopes p.scope).FirstConstant symbols.entries before n ∧
            e = .error { cause := .constantAssignment n }) ∧
      ((∀ n ∈ symbols.names, (w.scopes p.scope).isConstant n = false) →
        answer.reply = .formula (.ok .itself) ∧
          ∃ i, w.Replaced name p symbols answer.workspace i) := by
  intro w answer
  rcases (w.scopes p.scope).firstConstant_cases symbols.entries with hall | ⟨before, n, hfirst⟩
  · have hanswer : answer = _ :=
      run_replaceSymbols_of_ok hp (Scope.withVariables_of_not_isConstant hall)
    have hnames : ∀ n ∈ symbols.names, (w.scopes p.scope).isConstant n = false := by
      intro n hn
      obtain ⟨e, he, rfl⟩ := List.mem_map.1 hn
      exact hall e he
    have haccepted (e : Problem) : answer.reply ≠ .formula (.error e) := by
      rw [hanswer]
      nofun
    refine ⟨⟨fun ⟨e, he⟩ => absurd he (haccepted e), ?_⟩, fun e he => absurd he (haccepted e),
      fun _ => ?_⟩
    · rintro ⟨n, hn, hconstant⟩
      rw [hnames n hn] at hconstant
      cases hconstant
    · rw [hanswer]
      exact ⟨rfl, w.next, (closed_empty.after cs).replaced rfl rfl⟩
  · have hanswer : answer = _ :=
      run_replaceSymbols_of_error hp (Scope.withVariables_of_firstConstant hfirst)
    obtain ⟨x, after, hentries⟩ := hfirst.2.2
    have hn : n ∈ symbols.names := by simp [Bindings.names, hentries]
    rw [hanswer]
    refine ⟨⟨fun _ => ⟨n, hn, hfirst.2.1⟩, fun _ => ⟨_, rfl⟩⟩, fun e he => ?_, fun hnone => ?_⟩
    · cases he
      exact ⟨rfl, before, n, hfirst, rfl⟩
    · have hconstant := hfirst.2.1
      rw [hnone n hn] at hconstant
      cases hconstant

def onShadowing (f : Formula) : List Command :=
  [.newTable "t" Scope.shadowing, .addOn "f" f (.table "t")]

/-- The constant `c` is refused behind `b`, which would be accepted alone. -/
theorem replaceSymbols_all_or_nothing_shadowing :
    let f : Formula := { source := "b" }
    let w := ({} : Workspace).after (onShadowing f)
    let b : Bindings Float := Bindings.empty.insert "b" 5
    w.formulas "f" = some ⟨f, 0⟩ ∧
      (w.run (.formula "f" (.replaceSymbols (b.insert "c" 6)))).workspace = w ∧
      (∀ n ∈ b.names, (w.scopes 0).isConstant n = false) ∧
      ∃ i, w.Replaced "f" ⟨f, 0⟩ b (w.run (.formula "f" (.replaceSymbols b))).workspace i := by
  intro f w b
  have hf : w.formulas "f" = some ⟨f, 0⟩ := rfl
  obtain ⟨hrefused, hsame, _⟩ := replaceSymbols_all_or_nothing hf (b.insert "c" 6)
  obtain ⟨e, he⟩ := hrefused.2 ⟨"c", by decide, by decide⟩
  have hb : ∀ n ∈ b.names, (w.scopes 0).isConstant n = false := by decide
  exact ⟨hf, (hsame e he).1, hb, ((replaceSymbols_all_or_nothing hf b).2.2 hb).2⟩

end Calculator.Workspace
