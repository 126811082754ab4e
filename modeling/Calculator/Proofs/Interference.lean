import Calculator.Proofs.Constants
import Calculator.Proofs.Footprint
import Calculator.Proofs.Turns

/-!
# Evaluations on one scope

Formulas that refer to one scope are evaluated in turns. A formula that reads none of the names that
the others write answers as it would on a copy of the scope, and leaves the names that it reads as
it would there (`undisturbed`). So of two formulas that write nothing which the other one reads
neither is disturbed, and what the scope holds in the end does not depend on whose turn was when
(`evaluations_independent`).
-/

namespace Calculator.Workspace

variable {w : Workspace} {name a b : String} {p q : Placed} {names ns : List String}

def evaluations (names : List String) : List Turn := names.map (·, .evaluate)

/-! ## One evaluation -/

theorem takeTurn_evaluate (hp : w.formulas name = some p) :
    w.takeTurn (name, .evaluate) =
      w.setScope p.scope (p.formula.evaluate (w.scopes p.scope)).2 := by
  have hformula : (w.setScope p.scope (p.formula.evaluate (w.scopes p.scope)).2).formulas name =
      some p := hp
  refine Eq.trans ?_ (setFormula_self hformula)
  rw [takeTurn, run, runFormula]
  simp only [hp]
  rfl

theorem formulas_evaluation (w : Workspace) (name : String) :
    (w.takeTurn (name, .evaluate)).formulas = w.formulas := by
  cases hp : w.formulas name with
  | none => rw [takeTurn, run, runFormula, hp]
  | some p =>
    rw [takeTurn_evaluate hp]
    rfl

theorem answer_observe_evaluate (hp : w.formulas name = some p) {scope : Scope Float}
    (h : (p.formula.evaluate (w.scopes p.scope)).1 = (p.formula.evaluate scope).1) :
    (w.observe (name, .evaluate)).answer =
      (Worksheet.observe ⟨p.formula, scope⟩ .evaluate).answer := by
  have hsheet : w.sheet? name = some (w.sheet p) := congrArg (Option.map w.sheet) hp
  rw [observe_eq hsheet]
  simp only [Observation.answer, Worksheet.observe, Worksheet.run, Worksheet.evaluate, sheet, h]

/-- The formula of a name writes none of the listed names. -/
def Spares (w : Workspace) (name : String) (ns : List String) : Prop :=
  ∀ q, w.formulas name = some q → ∀ n ∈ q.formula.writes, n ∉ ns

theorem Spares.only_scopes (h : w.Spares name ns) (i : Nat) :
    ((w.takeTurn (name, .evaluate)).scopes i).only ns = (w.scopes i).only ns := by
  cases hq : w.formulas name with
  | none => rw [takeTurn, run, runFormula, hq]
  | some q =>
    have hkept := q.formula.only_evaluate (h q hq) (w.scopes q.scope)
    rw [takeTurn_evaluate hq]
    simp only [setScope]
    split
    · next hi => rw [hi, hkept]
    · rfl

/-! ## Many evaluations -/

theorem constants_evaluations (w : Workspace) (names : List String) (i : Nat) :
    ((w.takeTurns (evaluations names)).scopes i).constants = (w.scopes i).constants := by
  induction names generalizing w with
  | nil => rfl
  | cons m names ih =>
    refine (ih (w.takeTurn (m, .evaluate))).trans ?_
    cases hq : w.formulas m with
    | none => rw [takeTurn, run, runFormula, hq]
    | some q =>
      rw [takeTurn_evaluate hq, setScope]
      dsimp only
      split
      · next hi => rw [hi, (Scope.keepsConstants_evaluateFormula _ _).constants]
      · rfl

/-- Where the other formulas spare what one reads, its evaluations are those on a scope that is the
same on these names. -/
theorem undisturbed (hp : w.formulas name = some p) (hreads : ∀ n ∈ p.formula.reads, n ∈ ns)
    (hspare : ∀ m ∈ names, m ≠ name → w.Spares m ns) {scope : Scope Float}
    (hscope : (w.scopes p.scope).only ns = scope.only ns) :
    (w.observations name (evaluations names)).map Observation.answer =
        (Worksheet.observations ⟨p.formula, scope⟩
          (List.replicate (names.count name) .evaluate)).map Observation.answer ∧
      ((w.takeTurns (evaluations names)).scopes p.scope).only ns =
        (Worksheet.after ⟨p.formula, scope⟩
          (List.replicate (names.count name) .evaluate)).scope.only ns := by
  induction names generalizing w scope with
  | nil => exact ⟨rfl, hscope⟩
  | cons m names ih =>
    obtain ⟨hm, hspare⟩ := List.forall_mem_cons.1 hspare
    have hformulas := w.formulas_evaluation m
    have hlater : ∀ k ∈ names, k ≠ name → (w.takeTurn (m, .evaluate)).Spares k ns := by
      intro k hk hne q hq
      exact hspare k hk hne q (hformulas ▸ hq)
    by_cases hname : m = name
    · subst hname
      obtain ⟨houtcome, hafter⟩ := Formula.evaluate_of_only hreads hscope
      have hnext : ((w.takeTurn (m, .evaluate)).scopes p.scope).only ns =
          (p.formula.evaluate scope).2.only ns := by
        rw [takeTurn_evaluate hp, ← hafter]
        simp only [setScope, if_pos]
      obtain ⟨hanswers, hend⟩ := ih (hformulas ▸ hp) hlater hnext
      rw [List.count_cons_self, List.replicate_succ, Worksheet.observations, List.map_cons,
        ← answer_observe_evaluate hp houtcome]
      refine ⟨?_, hend⟩
      rw [evaluations, List.map_cons, observations, if_pos rfl]
      exact congrArg _ hanswers
    · have hnext : ((w.takeTurn (m, .evaluate)).scopes p.scope).only ns = scope.only ns :=
        ((hm hname).only_scopes p.scope).trans hscope
      rw [List.count_cons_of_ne hname]
      obtain ⟨hanswers, hend⟩ := ih (hformulas ▸ hp) hlater hnext
      refine ⟨?_, hend⟩
      rw [evaluations, List.map_cons, observations, if_neg hname]
      exact hanswers

/-! ## Two formulas -/

/-- In the course of evaluations a formula answers as it does alone on a copy of its scope, and the
names that it reads end as they do there. -/
structure Undisturbed (w : Workspace) (name : String) (p : Placed) (names : List String) :
    Prop where
  answers : (w.observations name (evaluations names)).map Observation.answer =
    ((w.sheet p).observations (List.replicate (names.count name) .evaluate)).map Observation.answer
  bindings : ((w.takeTurns (evaluations names)).scopes p.scope).vars.only p.formula.reads =
    (((w.sheet p).after (List.replicate (names.count name) .evaluate)).scope.vars.only
      p.formula.reads)

theorem undisturbed_of_spares (hp : w.formulas name = some p)
    (hspare : ∀ m ∈ names, m ≠ name → w.Spares m p.formula.reads) :
    w.Undisturbed name p names := by
  obtain ⟨hanswers, hend⟩ := undisturbed hp (fun _ hn => hn) hspare rfl
  exact ⟨hanswers, congrArg Scope.vars hend⟩

theorem spares_of_pair (hb : w.formulas b = some q) (hwrites : ∀ n ∈ q.formula.writes, n ∉ ns)
    (hnames : ∀ m ∈ names, m = a ∨ m = b) : ∀ m ∈ names, m ≠ a → w.Spares m ns := by
  rintro m hm hma r hr
  obtain rfl := (hnames m hm).resolve_left hma
  obtain rfl := Option.some.inj (hr.symm.trans hb)
  exact hwrites

theorem find?_evaluations_of_perm (hp : w.formulas name = some p) {n : String}
    (hspare : ∀ m ∈ names, m ≠ name → w.Spares m (n :: p.formula.reads)) {names' : List String}
    (hperm : names'.Perm names) :
    ((w.takeTurns (evaluations names')).scopes p.scope).vars.find? n =
      ((w.takeTurns (evaluations names)).scopes p.scope).vars.find? n := by
  have hreads : ∀ m ∈ p.formula.reads, m ∈ n :: p.formula.reads :=
    fun _ hm => List.mem_cons_of_mem _ hm
  have hspare' : ∀ m ∈ names', m ≠ name → w.Spares m (n :: p.formula.reads) :=
    fun m hm => hspare m (hperm.mem_iff.1 hm)
  have hsame := (undisturbed hp hreads hspare' rfl).2
  rw [hperm.count_eq, ← (undisturbed hp hreads hspare rfl).2] at hsame
  have hvars := congrArg (fun s => s.vars.find? n) hsame
  simpa only [Scope.only, Bindings.find?_only List.mem_cons_self] using hvars

/--
Two formulas on one scope, neither of which writes a name that the other one reads, are evaluated
in any order. Each answers as if it had been evaluated alone on a copy of the scope, and the names
that it reads end as there. The constants stay, and in any other order of the same evaluations all
names end with the same values.
-/
theorem evaluations_independent (ha : w.formulas a = some p) (hb : w.formulas b = some q)
    (hscope : p.scope = q.scope) (hab : ∀ n ∈ p.formula.writes, n ∉ q.formula.reads)
    (hba : ∀ n ∈ q.formula.writes, n ∉ p.formula.reads) (hnames : ∀ m ∈ names, m = a ∨ m = b) :
    w.Undisturbed a p names ∧ w.Undisturbed b q names ∧
      ((w.takeTurns (evaluations names)).scopes p.scope).constants =
        (w.scopes p.scope).constants ∧
      ∀ names' : List String, names'.Perm names → ∀ n,
        ((w.takeTurns (evaluations names')).scopes p.scope).find? n =
          ((w.takeTurns (evaluations names)).scopes p.scope).find? n := by
  have hswap : ∀ m ∈ names, m = b ∨ m = a := fun m hm => (hnames m hm).symm
  refine ⟨undisturbed_of_spares ha (spares_of_pair hb hba hnames),
    undisturbed_of_spares hb (spares_of_pair ha hab hswap),
    w.constants_evaluations names p.scope, fun names' hperm n => ?_⟩
  -- a name that one of them writes is not written by the other one, which would read it then
  have hvars : ((w.takeTurns (evaluations names')).scopes p.scope).vars.find? n =
      ((w.takeTurns (evaluations names)).scopes p.scope).vars.find? n := by
    by_cases hn : n ∈ q.formula.writes
    · have hfree : n ∉ p.formula.writes := fun h =>
        hba n hn (Formula.mem_reads_of_mem_writes h)
      have hwrites : ∀ m ∈ p.formula.writes, m ∉ n :: q.formula.reads := fun m hm h =>
        (List.mem_cons.1 h).elim (fun h => hfree (h ▸ hm)) (hab m hm)
      rw [hscope]
      exact find?_evaluations_of_perm hb (spares_of_pair ha hwrites hswap) hperm
    · have hwrites : ∀ m ∈ q.formula.writes, m ∉ n :: p.formula.reads := fun m hm h =>
        (List.mem_cons.1 h).elim (fun h => hn (h ▸ hm)) (hba m hm)
      exact find?_evaluations_of_perm ha (spares_of_pair hb hwrites hnames) hperm
  rw [Scope.find?, Scope.find?, hvars, constants_evaluations, constants_evaluations]

/-- The program of `(x = 2) + u`. -/
def storesTwo : List Token :=
  [.ofSymbol "x" 1, .ofNumber "2" 2 5, .ofOperator .assign 3, .ofSymbol "u" 10, .ofOperator .add 8]

/-- The program of `z = y`. -/
def copiesY : List Token := [.ofSymbol "z" 0, .ofSymbol "y" 4, .ofOperator .assign 2]

/-- Two formulas on one table, in which `u` is not bound. -/
def oneTable (f g : Formula) : Workspace :=
  ({} : Workspace).after [.newTable "t" { vars := Bindings.empty.insert "y" 5 },
    .addOn "a" f (.table "t"), .addOn "b" g (.table "t")]

/-- One of them fails on `u` every time, its assignment made. -/
theorem evaluations_independent_oneTable :
    let f : Formula := { source := "(x = 2) + u", reading := .program storesTwo }
    let g : Formula := { source := "z = y", reading := .program copiesY }
    let w := oneTable f g
    w.formulas "a" = some ⟨f, 0⟩ ∧ w.formulas "b" = some ⟨g, 0⟩ ∧ f.writes = ["x"] ∧
      g.writes = ["z"] ∧
      (f.evaluate (w.scopes 0)).1 =
        .ok (.error (.unbound (.ofSymbol "u" 10) (some (.ofOperator .add 8)))) ∧
      w.Undisturbed "a" ⟨f, 0⟩ ["a", "b", "a"] ∧ w.Undisturbed "b" ⟨g, 0⟩ ["a", "b", "a"] ∧
      ((w.takeTurns (evaluations ["b", "a", "a"])).scopes 0).find? "x" =
        ((w.takeTurns (evaluations ["a", "b", "a"])).scopes 0).find? "x" := by
  intro f g w
  have hnames : ∀ m ∈ ["a", "b", "a"], m = "a" ∨ m = "b" := by decide
  have hab : ∀ n ∈ f.writes, n ∉ g.reads := by decide
  have hba : ∀ n ∈ g.writes, n ∉ f.reads := by decide
  obtain ⟨ha, hb, _, horder⟩ :=
    evaluations_independent (w := w) (p := ⟨f, 0⟩) (q := ⟨g, 0⟩) rfl rfl rfl hab hba hnames
  have hperm : ["b", "a", "a"].Perm ["a", "b", "a"] := by decide
  have hx := horder ["b", "a", "a"] hperm "x"
  dsimp only at hx
  exact ⟨rfl, rfl, by decide, by decide, rfl, ha, hb, hx⟩

end Calculator.Workspace
