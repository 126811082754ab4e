import Calculator.Proofs.Turns

/-!
# Copies

A copy of a formula is not parsed and has a scope of its own with the same names in the same order.
What its original knows of the source is lost, but a parse does not ask for it. So from a parse or
another source on both are seen to do the same, in whatever order they take their turns, and so they
are at once where the copy is given a source and the original loads it (`copies_behave`). Settings
are taken over as they are; a table of actions that is built again from its own actions is the same
(`ofOverrides_entries`).
-/

namespace Calculator

/-! ## Tables of actions -/

namespace ActionTable

variable {t u : ActionTable}

def pair? (t : ActionTable) (o : Operator) : Option (Operator × Action) :=
  (t.action? o).map fun a => (o, a)

def entries (t : ActionTable) : List (Operator × Action) := Operator.all.filterMap t.pair?

theorem foldlM_entries (ht : t.Serves) (os : List Operator) (u : ActionTable) :
    (os.filterMap t.pair?).foldlM (fun t p => t.override p.1 p.2) u =
      .ok ⟨fun p => if p ∈ os then (t.action? p).or (u.action? p) else u.action? p⟩ := by
  induction os generalizing u with
  | nil => rfl
  | cons o os ih =>
    cases ho : t.action? o with
    | none =>
      rw [List.filterMap_cons_none (by rw [pair?, ho]; rfl), ih]
      congr 2
      funext p
      by_cases hp : p = o
      · simp [hp, ho]
      · simp [hp]
    | some a =>
      have hcomputing : o.isComputing = true := by rw [← ht o, ho]; rfl
      rw [List.filterMap_cons_some (b := (o, a)) (by rw [pair?, ho]; rfl), List.foldlM_cons,
        override_eq_ok_iff.2 ⟨hcomputing, rfl⟩, Result.ok_bind, ih]
      congr 2
      funext p
      by_cases hp : p = o
      · simp [hp, ho]
      · simp [hp]

/-- A table that is built again from its actions is the same. -/
theorem ofOverrides_entries {os : List (Operator × Action)} (h : ofOverrides os = .ok t) :
    ofOverrides t.entries = .ok t := by
  have ht : t.Serves := standard_serves.overrides h
  rw [ofOverrides, entries, foldlM_entries ht]
  refine congrArg (fun f => Except.ok (ActionTable.mk f)) (funext fun p => ?_)
  rw [if_pos (Operator.mem_all p)]
  cases hp : t.action? p with
  | some a => rfl
  | none =>
    have hstandard := standard_serves p
    rw [← ht p, hp] at hstandard
    exact Option.not_isSome_iff_eq_none.1 (by simp [hstandard])

end ActionTable

/-! ## Worksheets -/

namespace Worksheet

variable {w : Worksheet} {cs : List Command}

/-- The first command is a parse, or brings another source. -/
def StartsAnew : List Command → Prop
  | .parse :: _ | .load _ :: _ => True
  | _ => False

theorem observations_copy (w : Worksheet) (hcs : StartsAnew cs) :
    (w.copy none).observations cs = w.observations cs := by
  cases cs with
  | nil => rfl
  | cons c cs => cases c <;> first | rfl | cases hcs

theorem copy_some (w : Worksheet) (source : String) :
    w.copy (some source) = (w.run (.load source)).sheet := rfl

end Worksheet

/-! ## Workspaces -/

namespace Workspace

variable {w : Workspace} {a b name target : String} {p : Placed} {s : Worksheet}

/-- Two formulas take the same turns, in any order between them, and the same is seen of each of
them as of one worksheet alone. -/
def BothShow (w : Workspace) (a b : String) (s : Worksheet) (cs : List Worksheet.Command) : Prop :=
  ∀ ts : List Turn, (∀ t ∈ ts, t.1 = a ∨ t.1 = b) → commandsOf a ts = cs → commandsOf b ts = cs →
    w.observations a ts = s.observations cs ∧ w.observations b ts = s.observations cs

theorem bothShow_of_apart {r : Worksheet} {cs : List Worksheet.Command} (hw : w.Closed)
    (hab : w.Apart (.formula a) (.formula b)) (ha : w.sheet? a = some s) (hb : w.sheet? b = some r)
    (hr : r.observations cs = s.observations cs) : w.BothShow a b s cs := by
  intro ts hts hca hcb
  refine ⟨?_, ?_⟩
  · rw [observations_of_apart hw ha, hca]
    intro t ht hne
    rw [(hts t ht).resolve_left hne]
    exact hab.symm
  · rw [observations_of_apart hw hb, hcb, hr]
    intro t ht hne
    rw [(hts t ht).resolve_right hne]
    exact hab

theorem sheet?_copy (hw : w.Closed) (hp : w.formulas name = some p) (hne : name ≠ target)
    (source : Option String) :
    (w.run (.copy name target source)).workspace.sheet? name = some (w.sheet p) ∧
      (w.run (.copy name target source)).workspace.sheet? target =
        some ((w.sheet p).copy source) := by
  have hrun : (w.run (.copy name target source)).workspace =
      w.addSheet target ((w.sheet p).copy source) := by
    simp [run, sheet?, hp]
  have hscope : p.scope ≠ w.next :=
    Nat.ne_of_lt (hw (.formula name) p.scope (congrArg (Option.map Placed.scope) hp))
  rw [hrun]
  constructor
  · simp [sheet?, sheet, addSheet, store, setFormula, setScope, hne, hp, hscope]
  · simp [sheet?, sheet, addSheet, store, setFormula, setScope]

/--
In every session a copy and its original are seen to do the same: from the next parse or source on,
and at once where the copy is given a source and the original loads it. The table of actions would
be the same if it were built again.
-/
theorem copies_behave {history : List Command}
    (hp : (({} : Workspace).after history).formulas name = some p) (hne : name ≠ target) :
    let w := ({} : Workspace).after history
    (∀ cs, Worksheet.StartsAnew cs →
      (w.run (.copy name target none)).workspace.BothShow name target (w.sheet p) cs) ∧
    (∀ source cs, ((w.run (.copy name target (some source))).workspace.takeTurn
        (name, .load source)).BothShow name target ((w.sheet p).run (.load source)).sheet cs) ∧
    ∀ os, ActionTable.ofOverrides os = .ok p.formula.settings.actions →
      ActionTable.ofOverrides p.formula.settings.actions.entries =
        .ok p.formula.settings.actions := by
  intro w
  have hw : w.Closed := closed_empty.after history
  have hplace : Place.formula name ≠ .formula target := fun h => hne (Place.formula.inj h)
  have apart (source : Option String) : (w.run (.copy name target source)).workspace.Apart
      (.formula name) (.formula target) :=
    ((hw.copiesApart hp hne source).own _ hplace).symm
  have closed (source : Option String) : (w.run (.copy name target source)).workspace.Closed :=
    hw.change (change_run w _)
  refine ⟨fun cs hcs => ?_, fun source cs => ?_, fun os => ActionTable.ofOverrides_entries⟩
  · obtain ⟨hname, htarget⟩ := sheet?_copy hw hp hne none
    exact bothShow_of_apart (closed none) (apart none) hname htarget
      ((w.sheet p).observations_copy hcs)
  · obtain ⟨hname, htarget⟩ := sheet?_copy hw hp hne (some source)
    have hkept := sheet?_takeTurn_of_apart (closed _) (t := (name, .load source)) hne
      (apart (some source))
    refine bothShow_of_apart ((closed _).change (change_run _ _))
      (apart_takeTurn (closed _) hne (apart _) _) (sheet?_takeTurn hname _) (hkept.trans htarget) ?_
    rw [Worksheet.copy_some]

def changed (f : Formula) : List Command :=
  [.add "e" { formula := f }, .formula "e" .parse, .formula "e" (.setSymbol "y" 2)]

def inTurns : List Turn :=
  [("e", .parse), ("c", .parse), ("c", .evaluate), ("e", .evaluate), ("e", .getSymbol "x"),
    ("c", .getSymbol "x")]

theorem copies_behave_changed :
    let f : Formula := { source := "x = y" }
    let w := ({} : Workspace).after (changed f)
    let v := (w.run (.copy "e" "c" none)).workspace
    w.formulas "e" = some ⟨(f.parse {}).2, 0⟩ ∧ "e" ≠ "c" ∧
      Worksheet.StartsAnew (commandsOf "e" inTurns) ∧
      v.observations "c" inTurns = v.observations "e" inTurns := by
  intro f w v
  have hp : w.formulas "e" = some ⟨(f.parse {}).2, 0⟩ := rfl
  have hne : "e" ≠ "c" := by decide
  have hturns : ∀ t ∈ inTurns, t.1 = "e" ∨ t.1 = "c" := by simp [inTurns]
  obtain ⟨hcopy, _⟩ := copies_behave hp hne
  obtain ⟨he, hc⟩ := hcopy (commandsOf "e" inTurns) trivial inTurns hturns rfl rfl
  exact ⟨hp, hne, trivial, hc.trans he.symm⟩

end Workspace

end Calculator
