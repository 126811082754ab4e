import Calculator.Scope.Command

/-!
# Tables

Named scopes that are filled, merged, copied and compared. Every number carries
the occasion on which it was given, and goes from table to table with it. Two
numbers of one name agree when they were given on one occasion or are equal. The
occasion matters for NaN, which equals no number, itself included: a table reads
like its copy, until NaN is bound anew in one of the two.

`Tables.run` carries out one command, which is an occasion of its own.
-/

namespace Calculator

/-- A number and the occasion on which it was given. -/
structure Given where
  number : Float
  occasion : Nat

/-- Whether two numbers of one name are the same: given on one occasion, or equal. -/
def Given.agrees (x y : Given) : Bool := x.occasion == y.occasion || x.number == y.number

structure Tables where
  scope? : String → Option (Scope Given) := fun _ => none
  /-- The next occasion. -/
  occasion : Nat := 0

namespace Tables

inductive Command where
  /-- Makes a table. Its constants are given after its variables, on an occasion of their own. -/
  | add (name : String) (scope : Scope Float)
  | scope (name : String) (c : Scope.Command Float)
  /-- Binds in a table every readable name of another, constants too. -/
  | update (name other : String)
  | copy (name target : String)
  | compare (name other : String)
  | describe (name : String)

inductive Reply where
  | nothing
  | scope (r : Except Scope.Refusal (Scope.Reply Float))
  | flag (b : Bool)
  | text (s : String)
  /-- A name that stands for no table. -/
  | unknown (name : String)

def numbers? (t : Tables) (name : String) : Option (Scope Float) :=
  (t.scope? name).map (·.map Given.number)

def put (t : Tables) (name : String) (s : Scope Given) : Tables :=
  { t with scope? := fun n => if n = name then some s else t.scope? n }

/-- The tables with a number of occasions gone by. -/
def after (t : Tables) (n : Nat) : Tables := { t with occasion := t.occasion + n }

def give (t : Tables) (x : Float) : Given := ⟨x, t.occasion⟩

def giveScope (t : Tables) (s : Scope Float) : Scope Given :=
  ⟨s.vars.map t.give, s.constants.map (t.after 1).give⟩

def runScope (t : Tables) (name : String) (c : Scope.Command Given) : Reply × Tables :=
  match t.scope? name with
  | none => (.unknown name, t)
  | some s =>
    let (r, s) := s.run c
    (.scope (r.map (·.map Given.number)), t.put name s)

def run (t : Tables) : Command → Reply × Tables
  | .add name s => (.nothing, (t.put name (t.giveScope s)).after 2)
  | .scope name c => (t.after 1).runScope name (c.map t.give)
  | .update name other =>
    match t.scope? other with
    | none => (.unknown other, t)
    | some s => t.runScope name (.update s.items)
  | .copy name target =>
    match t.scope? name with
    | none => (.unknown name, t)
    | some s => (.nothing, t.put target s)
  | .compare name other =>
    match t.scope? name, t.scope? other with
    | none, _ => (.unknown name, t)
    | some _, none => (.unknown other, t)
    | some s, some o => (.flag (s.readsLike Given.agrees o), t)
  | .describe name =>
    match t.numbers? name with
    | none => (.unknown name, t)
    | some s => (.text s.describe, t)

theorem agrees_self (x : Given) : x.agrees x = true := by simp [Given.agrees]

theorem compare_copy {t : Tables} {name target : String} {s : Scope Given}
    (h : t.scope? name = some s) :
    ((t.run (.copy name target)).2.run (.compare name target)).1 = .flag true := by
  have self := Scope.readsLike_self agrees_self s
  by_cases hn : name = target
  · subst hn
    simp [run, put, h, self]
  · simp [run, put, h, hn, self]

end Tables

end Calculator
