import Calculator.Bindings
import Calculator.Error
import Calculator.Number.Shortest
import Calculator.Text.Quoted

/-!
# Scopes

A scope gives names their values; formulas are evaluated on a scope of numbers.
Variables come first and may change; constants are read only. A name may be
both, if a scope is built so, and is then read as the variable.

`find?` reads a name, `names` lists the readable names without repetition, and
`set` binds a variable unless the name is a constant. The operations that read
before they write (`take`, `takeFirst`, `getOrSet`) are built from these.
-/

namespace Calculator

structure Scope (α : Type) where
  vars : Bindings α := .empty
  constants : Bindings α := .empty

namespace Scope

variable {α β : Type}

/-- Why a scope refuses an operation. -/
inductive Refusal where
  /-- The name is a constant and cannot be written. -/
  | constant (name : String)
  /-- The name cannot be read, or is no variable that could be removed. -/
  | missing (name : String)
  /-- There is no name at all. -/
  | empty
  deriving DecidableEq, Repr

def Refusal.toError : Refusal → Error
  | constant name => { cause := .constantAssignment name }
  | missing name => { cause := .note name none }
  | empty => { cause := .note "" none }

/-! ## Reading -/

/-- The value of a variable, else of a constant. -/
def find? (s : Scope α) (name : String) : Option α :=
  (s.vars.find? name).or (s.constants.find? name)

def contains (s : Scope α) (name : String) : Bool :=
  s.vars.contains name || s.constants.contains name

def hasVariable (s : Scope α) (name : String) : Bool := s.vars.contains name

def isConstant (s : Scope α) (name : String) : Bool := s.constants.contains name

def visibleConstants (s : Scope α) : List String :=
  s.constants.names.filter fun n => !s.vars.contains n

/-- The readable names: variables, then the constants that no variable hides. -/
def names (s : Scope α) : List String := s.vars.names ++ s.visibleConstants

def size (s : Scope α) : Nat := s.vars.size + s.visibleConstants.length

theorem size_eq_length_names (s : Scope α) : s.size = s.names.length := by
  simp [size, names, Bindings.size, Bindings.names]

theorem find?_isSome (s : Scope α) (name : String) : (s.find? name).isSome = s.contains name := by
  simp [find?, contains, Bindings.find?_isSome]

def read (s : Scope α) (name : String) : Except Refusal α :=
  match s.find? name with
  | some x => .ok x
  | none => .error (.missing name)

def items (s : Scope α) : List (String × α) :=
  s.names.filterMap fun n => (s.find? n).map fun x => (n, x)

theorem find?_of_mem_items {s : Scope α} {e : String × α} (h : e ∈ s.items) :
    s.find? e.1 = some e.2 := by
  simp only [items, List.mem_filterMap, Option.map_eq_some_iff] at h
  obtain ⟨n, _, x, hx, rfl⟩ := h
  exact hx

/-- Whether two scopes read alike up to `same`; the order of names does not matter. -/
def readsLike (same : α → α → Bool) (s t : Scope α) : Bool :=
  s.size == t.size && s.items.all fun e =>
    match t.find? e.1 with
    | some y => same e.2 y
    | none => false

theorem readsLike_self {same : α → α → Bool} (refl : ∀ x, same x x = true) (s : Scope α) :
    s.readsLike same s = true := by
  simp only [readsLike, beq_self_eq_true, Bool.true_and, List.all_eq_true]
  intro e he
  simp [find?_of_mem_items he, refl]

/-! ## Writing -/

def set (s : Scope α) (name : String) (x : α) : Except Refusal (Scope α) :=
  if s.isConstant name then .error (.constant name)
  else .ok { s with vars := s.vars.insert name x }

def delete (s : Scope α) (name : String) : Scope α := { s with vars := s.vars.erase name }

def remove (s : Scope α) (name : String) : Except Refusal (Scope α) :=
  if s.hasVariable name then .ok (s.delete name) else .error (.missing name)

def clear (s : Scope α) : Scope α := { s with vars := .empty }

/-- Adds a constant; a variable of that name is dropped. -/
def define (s : Scope α) (name : String) (x : α) : Scope α :=
  ⟨s.vars.erase name, s.constants.insert name x⟩

/-- Reads a name and removes the variable; an unreadable name gives the default if there is one. -/
def take (s : Scope α) (name : String) (default? : Option α) : Except Refusal (α × Scope α) :=
  match s.find? name with
  | some x => (s.remove name).map fun t => (x, t)
  | none =>
    match default? with
    | some x => .ok (x, s)
    | none => .error (.missing name)

def takeFirst (s : Scope α) : Except Refusal ((String × α) × Scope α) :=
  match s.names with
  | [] => .error .empty
  | n :: _ => (s.take n none).map fun r => ((n, r.1), r.2)

/-- Reads a name, binding it first if it is unreadable. -/
def getOrSet (s : Scope α) (name : String) (x : α) : Except Refusal (α × Scope α) :=
  match s.find? name with
  | some y => .ok (y, s)
  | none => (s.set name x).map fun t => (x, t)

/-- Binds names in order up to the first constant; what was bound before it stays. -/
def setAll (s : Scope α) : List (String × α) → Option Refusal × Scope α
  | [] => (none, s)
  | (n, x) :: es =>
    match s.set n x with
    | .ok t => t.setAll es
    | .error e => (some e, s)

/-- The constants with new variables, unless one of them is a constant. -/
def withVariables (s : Scope α) (b : Bindings α) : Except Refusal (Scope α) :=
  match s.clear.setAll b.entries with
  | (none, t) => .ok t
  | (some e, _) => .error e

def map (f : α → β) (s : Scope α) : Scope β := ⟨s.vars.map f, s.constants.map f⟩

theorem names_map (f : α → β) (s : Scope α) : (s.map f).names = s.names := by
  simp [names, visibleConstants, map, Bindings.names_map, Bindings.contains]

theorem find?_map (f : α → β) (s : Scope α) (name : String) :
    (s.map f).find? name = (s.find? name).map f := by
  simp only [find?, map, Bindings.find?_map]
  cases s.vars.find? name <;> simp

/-! ## Showing -/

/--
Numbers have the fewest digits that read back, written out in positions from `0.0001` to below
`10 ^ 16`.
-/
def numberLayout : Number.Layout := ⟨-4, 15, 2⟩

def showBindings (b : Bindings Float) : String :=
  let entry (e : String × Float) := Text.quoted e.1 ++ ": " ++ numberLayout.render e.2
  "\x7b" ++ ", ".intercalate (b.entries.map entry) ++ "\x7d"

def describe (s : Scope Float) : String :=
  "SymbolTable(symbols=" ++ showBindings s.vars ++ ", constants=" ++
    showBindings s.constants ++ ")"

end Scope

end Calculator
