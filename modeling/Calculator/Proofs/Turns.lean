import Calculator.Proofs.Sharing

/-!
# Formulas that take turns

A `Turn` is a command on the formula of a name, and an `Observation` is all that is seen when it is
answered: the reply, the events, and the formula with its scope. Of a formula among others the same
is seen as of its worksheet alone, in whatever order they take turns, as long as none of the others
refers to its scope (`observations_of_apart`).
-/

namespace Calculator

/-- What is seen of a formula when it answers a command. -/
structure Observation where
  reply : Workspace.Reply
  events : List Event
  /-- The formula and its scope afterwards. -/
  sheet : Option Worksheet

def Observation.answer (o : Observation) : Workspace.Reply × List Event := (o.reply, o.events)

namespace Worksheet

def observe (w : Worksheet) (c : Command) : Observation :=
  ⟨.formula (w.run c).reply, (w.run c).events, some (w.run c).sheet⟩

def observations (w : Worksheet) : List Command → List Observation
  | [] => []
  | c :: cs => w.observe c :: (w.run c).sheet.observations cs

end Worksheet

namespace Workspace

abbrev Turn := String × Worksheet.Command

def commandsOf (name : String) (ts : List Turn) : List Worksheet.Command :=
  (ts.filter (·.1 = name)).map Prod.snd

def takeTurn (w : Workspace) (t : Turn) : Workspace := (w.run (.formula t.1 t.2)).workspace

def takeTurns (w : Workspace) (ts : List Turn) : Workspace := ts.foldl takeTurn w

def observe (w : Workspace) (t : Turn) : Observation :=
  ⟨(w.run (.formula t.1 t.2)).reply, (w.run (.formula t.1 t.2)).events, (w.takeTurn t).sheet? t.1⟩

def observations (w : Workspace) (name : String) : List Turn → List Observation
  | [] => []
  | t :: ts => (if t.1 = name then [w.observe t] else []) ++ (w.takeTurn t).observations name ts

variable {w : Workspace} {name other : String} {s : Worksheet} {t : Turn} {ts : List Turn}
  {p : Placed}

theorem commandsOf_cons_self (name : String) (c : Worksheet.Command) (ts : List Turn) :
    commandsOf name ((name, c) :: ts) = c :: commandsOf name ts := by
  simp [commandsOf]

theorem commandsOf_cons_of_ne (h : t.1 ≠ name) (ts : List Turn) :
    commandsOf name (t :: ts) = commandsOf name ts := by
  simp [commandsOf, h]

theorem sheet?_eq (h : w.sheet? name = some s) : ∃ p, w.formulas name = some p ∧ w.sheet p = s :=
  Option.map_eq_some_iff.1 h

theorem sheet?_takeTurn (h : w.sheet? name = some s) (c : Worksheet.Command) :
    (w.takeTurn (name, c)).sheet? name = some (s.run c).sheet := by
  obtain ⟨p, hp, rfl⟩ := sheet?_eq h
  simp only [takeTurn, run, runFormula, hp]
  split
  · simp [sheet?, sheet, addSheet, store, setFormula, setScope]
  · simp [sheet?, sheet, setFormula, setScope]

theorem observe_eq (h : w.sheet? name = some s) (c : Worksheet.Command) :
    w.observe (name, c) = s.observe c := by
  have hafter := sheet?_takeTurn h c
  obtain ⟨p, hp, rfl⟩ := sheet?_eq h
  simp only [observe, Worksheet.observe, hafter, run, runFormula, hp]

theorem sheet?_takeTurn_of_apart (hw : w.Closed) (hne : t.1 ≠ name)
    (hapart : w.Apart (.formula t.1) (.formula name)) :
    (w.takeTurn t).sheet? name = w.sheet? name := by
  have hplace : Place.formula t.1 ≠ .formula name := fun h => hne (Place.formula.inj h)
  have hchange := change_run w (.formula t.1 t.2)
  have hformulas : (w.takeTurn t).formulas name = w.formulas name := hchange.formulas hplace
  have hscope : (w.takeTurn t).scope? (.formula name) = w.scope? (.formula name) :=
    hapart.scope?_run hw hplace (.inl rfl)
  unfold sheet?
  rw [hformulas]
  cases hp : w.formulas name with
  | none => rfl
  | some p =>
    simp only [scope?, locate, hformulas, hp, Option.map_some, Option.some.injEq] at hscope ⊢
    rw [sheet, hscope, sheet]

theorem apart_takeTurn (hw : w.Closed) (hne : other ≠ name)
    (hapart : w.Apart (.formula other) (.formula name)) (t : Turn) :
    (w.takeTurn t).Apart (.formula other) (.formula name) :=
  hapart.change hw (fun h => hne (Place.formula.inj h)) (change_run w (.formula t.1 t.2)) nofun
    nofun

/-- Among formulas of other scopes a formula is seen to do what its worksheet does alone. -/
theorem observations_of_apart (hw : w.Closed) (hs : w.sheet? name = some s)
    (hapart : ∀ t ∈ ts, t.1 ≠ name → w.Apart (.formula t.1) (.formula name)) :
    w.observations name ts = s.observations (commandsOf name ts) := by
  induction ts generalizing w s with
  | nil => rfl
  | cons t ts ih =>
    have hclosed : (w.takeTurn t).Closed := hw.change (change_run w _)
    have hlater : ∀ u ∈ ts, u.1 ≠ name → (w.takeTurn t).Apart (.formula u.1) (.formula name) :=
      fun u hu hne => apart_takeTurn hw hne (hapart u (List.mem_cons_of_mem _ hu) hne) t
    rw [observations]
    by_cases ht : t.1 = name
    · obtain ⟨n, c⟩ := t
      obtain rfl : n = name := ht
      rw [if_pos rfl, observe_eq hs, commandsOf_cons_self, Worksheet.observations,
        ih hclosed (sheet?_takeTurn hs c) hlater]
      rfl
    · have hkept := sheet?_takeTurn_of_apart hw ht (hapart t List.mem_cons_self ht)
      rw [if_neg ht, commandsOf_cons_of_ne ht, ih hclosed (hkept.trans hs) hlater]
      rfl

end Workspace

end Calculator
