import Calculator.Scope.Command
import Calculator.Worksheet

/-!
# Workspaces

A workspace holds named tables and named formulas. A table is a scope; every
formula refers to one scope, and several formulas may refer to the scope of one
table or of each other. A table name, too, may be given to the scope that a
formula refers to. Scopes are numbered: whoever holds the number sees every
change of the scope. `Workspace.run` carries out one command.
-/

namespace Calculator

/-- A formula and the number of the scope that it refers to. -/
structure Placed where
  formula : Formula
  scope : Nat

structure Workspace where
  /-- The scopes by number; those from `next` on are not in use. -/
  scopes : Nat → Scope Float := fun _ => {}
  next : Nat := 0
  tables : String → Option Nat := fun _ => none
  formulas : String → Option Placed := fun _ => none

namespace Workspace

/-- A scope already in the workspace. -/
inductive Place where
  | table (name : String)
  | formula (name : String)

inductive Command where
  /-- Makes a table. -/
  | newTable (name : String) (scope : Scope Float)
  /-- Gives a scope that is already there a name as a table. -/
  | nameTable (name : String) (place : Place)
  | table (name : String) (c : Scope.Command Float)
  /-- Adds a formula with a scope of its own. -/
  | add (name : String) (sheet : Worksheet)
  /-- Adds a formula on a scope that is already there. -/
  | addOn (name : String) (formula : Formula) (place : Place)
  | formula (name : String) (c : Worksheet.Command)
  /-- Lets a formula refer to another scope. -/
  | move (name : String) (place : Place)
  /-- Copies a formula together with its scope. -/
  | copy (name target : String) (source : Option String)
  | drop (name : String)

inductive Reply where
  | itself
  | nothing
  | table (r : Except Scope.Refusal (Scope.Reply Float))
  | formula (r : Except Problem Worksheet.Reply)
  /-- A name that stands for no table or formula. -/
  | unknown (name : String)

structure Answer where
  reply : Reply
  workspace : Workspace
  events : List Event := []

/-! ## Names and scopes -/

def setScope (w : Workspace) (i : Nat) (s : Scope Float) : Workspace :=
  { w with scopes := fun j => if j = i then s else w.scopes j }

def setTable (w : Workspace) (name : String) (i : Nat) : Workspace :=
  { w with tables := fun n => if n = name then some i else w.tables n }

def setFormula (w : Workspace) (name : String) (p : Option Placed) : Workspace :=
  { w with formulas := fun n => if n = name then p else w.formulas n }

/-- Stores a scope under a number of its own, which is `next` of the workspace before. -/
def store (w : Workspace) (s : Scope Float) : Workspace :=
  { w.setScope w.next s with next := w.next + 1 }

def locate (w : Workspace) : Place → Option Nat
  | .table name => w.tables name
  | .formula name => (w.formulas name).map Placed.scope

def scope? (w : Workspace) (place : Place) : Option (Scope Float) := (w.locate place).map w.scopes

def sheet (w : Workspace) (p : Placed) : Worksheet := ⟨p.formula, w.scopes p.scope⟩

def sheet? (w : Workspace) (name : String) : Option Worksheet := (w.formulas name).map w.sheet

/-! ## Commands -/

def runTable (w : Workspace) (name : String) (c : Scope.Command Float) : Answer :=
  match w.tables name with
  | none => ⟨.unknown name, w, []⟩
  | some i =>
    let (r, s) := (w.scopes i).run c
    ⟨.table r, w.setScope i s, []⟩

def addSheet (w : Workspace) (name : String) (sheet : Worksheet) : Workspace :=
  (w.store sheet.scope).setFormula name (some ⟨sheet.formula, w.next⟩)

def runFormula (w : Workspace) (name : String) (c : Worksheet.Command) : Answer :=
  match w.formulas name with
  | none => ⟨.unknown name, w, []⟩
  | some p =>
    let a := (w.sheet p).run c
    let after :=
      if a.fresh then w.addSheet name a.sheet
      else (w.setScope p.scope a.sheet.scope).setFormula name (some ⟨a.sheet.formula, p.scope⟩)
    ⟨.formula a.reply, after, a.events⟩

def run (w : Workspace) : Command → Answer
  | .newTable name s => ⟨.nothing, (w.store s).setTable name w.next, []⟩
  | .nameTable name place =>
    match w.locate place with
    | none => ⟨.unknown name, w, []⟩
    | some i => ⟨.nothing, w.setTable name i, []⟩
  | .table name c => w.runTable name c
  | .add name sheet => ⟨.nothing, w.addSheet name sheet, []⟩
  | .addOn name f place =>
    match w.locate place with
    | none => ⟨.unknown name, w, []⟩
    | some i => ⟨.nothing, w.setFormula name (some ⟨f, i⟩), []⟩
  | .formula name c => w.runFormula name c
  | .move name place =>
    match w.formulas name, w.locate place with
    | some p, some i => ⟨.itself, w.setFormula name (some { p with scope := i }), []⟩
    | _, _ => ⟨.unknown name, w, []⟩
  | .copy name target source =>
    match w.sheet? name with
    | none => ⟨.unknown name, w, []⟩
    | some s => ⟨.nothing, w.addSheet target (s.copy source), []⟩
  | .drop name => ⟨.nothing, w.setFormula name none, []⟩

end Workspace

end Calculator
