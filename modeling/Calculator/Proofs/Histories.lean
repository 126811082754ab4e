import Calculator.Workspace

/-!
# Histories of formulas

What becomes of the formulas of a workspace while commands are run. `Arises` lists all that one
command can do to the formula of a name; what it does not change it `keeps`. So a property of new
formulas that loading and parsing keep is one of all formulas of all runs (`forall_formulas`).

`latest` is the last operation of a run that says what is known of a formula's source.
-/

namespace Calculator

theorem Worksheet.formula_run (w : Worksheet) (c : Command) :
    (w.run c).sheet.formula =
      match c with
      | .load source => w.formula.load source
      | .reset => w.formula.forget
      | .parse => (w.formula.parse w.scope).2
      | _ => w.formula := by
  cases c with
  | setSymbol n x =>
    simp only [run, setSymbol]
    split <;> rfl
  | replaceSymbols b =>
    simp only [run, replaceSymbols]
    split <;> rfl
  | _ => rfl

namespace Workspace

def after (w : Workspace) (cs : List Command) : Workspace :=
  cs.foldl (fun w c => (w.run c).workspace) w

/-- The command adds a formula that is not made from another one. -/
def Command.Adds : Command → Formula → Prop
  | .add _ sheet, f => f = sheet.formula
  | .addOn _ g _, f => f = g
  | _, _ => False

/-- What may be done to a formula so that its source has to be read anew. -/
inductive Operation where
  | create
  | load
  | reset
  /-- A parse against the names of a scope, and the reply to it. -/
  | parse (scope : Scope Float) (reply : Reply)

/-- The operation that a command carries out on the formula of a name, if it is one of these. -/
def operation? (w : Workspace) (name : String) (c : Command) : Option Operation :=
  match c with
  | .add n _ => if n = name then some .create else none
  | .addOn n _ place => if n = name ∧ (w.locate place).isSome then some .create else none
  | .copy n target _ => if target = name ∧ (w.formulas n).isSome then some .create else none
  | .formula n c =>
    match if n = name then w.formulas name else none, c with
    | some _, .load _ => some .load
    | some _, .reset => some .reset
    | some p, .parse => some (.parse (w.scopes p.scope) (w.runFormula name .parse).reply)
    | _, _ => none
  | _ => none

def latest (w : Workspace) (name : String) : List Command → Option Operation
  | [] => none
  | c :: cs => (latest (w.run c).workspace name cs).or (w.operation? name c)

/-! ## One command -/

/-- How the formula of a name came about when a command was run. -/
inductive Arises (w : Workspace) (name : String) (c : Command) (f : Formula) : Prop where
  | kept (p : Placed) (hp : w.formulas name = some p) (op : w.operation? name c = none)
    (hf : f = p.formula)
  | added (op : w.operation? name c = some .create) (hf : c.Adds f)
  | copied (n : String) (p : Placed) (source : Option String) (hp : w.formulas n = some p)
    (op : w.operation? name c = some .create) (hf : f = p.formula.copy source)
  | loaded (p : Placed) (source : String) (hp : w.formulas name = some p)
    (op : w.operation? name c = some .load) (hf : f = p.formula.load source)
  | reset (p : Placed) (hp : w.formulas name = some p) (op : w.operation? name c = some .reset)
    (hf : f = p.formula.forget)
  | parsed (p : Placed) (hp : w.formulas name = some p)
    (op : w.operation? name c = some (.parse (w.scopes p.scope) (w.runFormula name .parse).reply))
    (hf : f = (p.formula.parse (w.scopes p.scope)).2)

theorem formulas_addSheet (w : Workspace) (name n : String) (sheet : Worksheet) :
    (w.addSheet name sheet).formulas n =
      if n = name then some ⟨sheet.formula, w.next⟩ else w.formulas n := rfl

theorem formulas_runFormula {w : Workspace} {name n : String} {c : Worksheet.Command} {p q : Placed}
    (hp : w.formulas name = some p) (h : (w.runFormula name c).workspace.formulas n = some q) :
    (n = name ∧ q.formula = ((w.sheet p).run c).sheet.formula) ∨
      (n ≠ name ∧ w.formulas n = some q) := by
  by_cases hn : n = name
  · refine .inl ⟨hn, ?_⟩
    subst hn
    simp only [runFormula, hp] at h
    split at h
    · rw [formulas_addSheet, if_pos rfl] at h
      cases h
      rfl
    · simp only [setFormula, if_true] at h
      cases h
      rfl
  · refine .inr ⟨hn, ?_⟩
    simp only [runFormula, hp] at h
    split at h
    · rwa [formulas_addSheet, if_neg hn] at h
    · simp only [setFormula, hn, if_false] at h
      exact h

theorem arises_runFormula {w : Workspace} {name n : String} {c : Worksheet.Command} {p q : Placed}
    (hp : w.formulas n = some p) (h : (w.runFormula n c).workspace.formulas name = some q) :
    Arises w name (.formula n c) q.formula := by
  rcases formulas_runFormula hp h with ⟨rfl, hq⟩ | ⟨hn, hq⟩
  · rw [Worksheet.formula_run] at hq
    cases c with
    | load source => exact .loaded p source hp (by simp [operation?, hp]) hq
    | reset => exact .reset p hp (by simp [operation?, hp]) hq
    | parse => exact .parsed p hp (by simp [operation?, hp]) hq
    | _ => exact .kept p hp (by simp [operation?, hp]) hq
  · have hn' : n ≠ name := fun e => hn e.symm
    exact .kept q hq (by simp [operation?, hn']) rfl

/-- All that a command can do to the formula of a name. -/
theorem arises {w : Workspace} {name : String} {c : Command} {q : Placed}
    (h : (w.run c).workspace.formulas name = some q) : Arises w name c q.formula := by
  cases c with
  | newTable n s => exact .kept q h rfl rfl
  | nameTable n place =>
    refine .kept q ?_ rfl rfl
    simp only [run] at h
    split at h <;> exact h
  | table n c =>
    refine .kept q ?_ rfl rfl
    simp only [run, runTable] at h
    split at h <;> exact h
  | add n sheet =>
    simp only [run, formulas_addSheet] at h
    split at h
    · next hn =>
      cases h
      exact .added (by simp [operation?, hn]) rfl
    · next hn =>
      have hn' : n ≠ name := fun e => hn e.symm
      exact .kept q h (by simp [operation?, hn']) rfl
  | addOn n g place =>
    simp only [run] at h
    split at h
    · next hplace => exact .kept q h (by simp [operation?, hplace]) rfl
    · next i hplace =>
      simp only [setFormula] at h
      split at h
      · next hn =>
        cases h
        exact .added (by simp [operation?, hn, hplace]) rfl
      · next hn =>
        have hn' : n ≠ name := fun e => hn e.symm
        exact .kept q h (by simp [operation?, hn']) rfl
  | formula n c =>
    cases hp : w.formulas n with
    | none =>
      simp only [run, runFormula, hp] at h
      have hnone : (if n = name then w.formulas name else none) = none := by
        split
        · next hn => rw [← hn, hp]
        · rfl
      exact .kept q h (by simp [operation?, hnone]) rfl
    | some p => exact arises_runFormula hp h
  | move n place =>
    simp only [run] at h
    split at h
    · next p i hp hplace =>
      simp only [setFormula] at h
      split at h
      · next hn =>
        cases h
        exact .kept p (hn ▸ hp) rfl rfl
      · exact .kept q h rfl rfl
    · exact .kept q h rfl rfl
  | copy n target source =>
    simp only [run, sheet?] at h
    cases hp : w.formulas n with
    | none =>
      simp only [hp, Option.map_none] at h
      exact .kept q h (by simp [operation?, hp]) rfl
    | some p =>
      simp only [hp, Option.map_some, formulas_addSheet] at h
      split at h
      · next hn =>
        cases h
        exact .copied n p source hp (by simp [operation?, hp, hn]) rfl
      · next hn =>
        have hn' : target ≠ name := fun e => hn e.symm
        exact .kept q h (by simp [operation?, hn']) rfl
  | drop n =>
    simp only [run, setFormula] at h
    split at h
    · cases h
    · exact .kept q h rfl rfl

/-! ## Runs -/

theorem formulas_empty {name : String} {p : Placed} : ({} : Workspace).formulas name ≠ some p :=
  Option.some_ne_none p |>.symm

theorem forall_formulas {P : Formula → Prop} (hload : ∀ f source, P f → P (f.load source))
    (hparse : ∀ f scope, P f → P (f.parse scope).2) {w : Workspace} {cs : List Command}
    (hw : ∀ name p, w.formulas name = some p → P p.formula)
    (hadds : ∀ c ∈ cs, ∀ f, c.Adds f → P f) {name : String} {p : Placed}
    (hp : (w.after cs).formulas name = some p) : P p.formula := by
  induction cs generalizing w with
  | nil => exact hw name p hp
  | cons c cs ih =>
    refine ih (fun n q hq => ?_) (fun d hd => hadds d (List.mem_cons_of_mem _ hd)) hp
    cases arises hq with
    | kept r hr _ hf => exact hf ▸ hw n r hr
    | added _ hf => exact hadds c List.mem_cons_self _ hf
    | copied m r source hr _ hf => exact hf ▸ hload r.formula _ (hw m r hr)
    | loaded r source hr _ hf => exact hf ▸ hload r.formula _ (hw n r hr)
    | reset r hr _ hf => exact hf ▸ hload r.formula r.formula.source (hw n r hr)
    | parsed r hr _ hf => exact hf ▸ hparse r.formula _ (hw n r hr)

end Workspace

end Calculator
