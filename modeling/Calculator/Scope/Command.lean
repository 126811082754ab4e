import Calculator.Scope

/-!
# Commands on a scope

What can be asked of a single scope, as data. `Scope.run` answers one command
and gives the scope after it; a refused command leaves the scope as it was,
except that `update` keeps the bindings it made before the refusal. `map` changes
the values that a command or a reply carries.
-/

namespace Calculator.Scope

variable {α β : Type}

inductive Command (α : Type) where
  /-- Binds a variable and gives the scope itself back; `put` gives nothing back. -/
  | set (name : String) (x : α)
  | put (name : String) (x : α)
  /-- Removes a variable if there is one; `remove` refuses a name that is no variable. -/
  | delete (name : String)
  | remove (name : String)
  | define (name : String) (x : α)
  | read (name : String)
  | get (name : String) (default? : Option α)
  | has (name : String)
  | contains (name : String)
  | isConstant (name : String)
  | clear
  | names
  | items
  | size
  | take (name : String) (default? : Option α)
  | takeFirst
  | getOrSet (name : String) (x : α)
  | update (items : List (String × α))

inductive Reply (α : Type) where
  | itself
  | nothing
  | value (x : α)
  | optional (x : Option α)
  | flag (b : Bool)
  | names (ns : List String)
  | items (es : List (String × α))
  | size (n : Nat)
  | entry (e : String × α)

def Command.map (f : α → β) : Command α → Command β
  | set n x => .set n (f x)
  | put n x => .put n (f x)
  | delete n => .delete n
  | remove n => .remove n
  | define n x => .define n (f x)
  | read n => .read n
  | get n default? => .get n (default?.map f)
  | has n => .has n
  | contains n => .contains n
  | isConstant n => .isConstant n
  | clear => .clear
  | names => .names
  | items => .items
  | size => .size
  | take n default? => .take n (default?.map f)
  | takeFirst => .takeFirst
  | getOrSet n x => .getOrSet n (f x)
  | update es => .update (es.map fun e => (e.1, f e.2))

def Reply.map (f : α → β) : Reply α → Reply β
  | itself => .itself
  | nothing => .nothing
  | value x => .value (f x)
  | optional x => .optional (x.map f)
  | flag b => .flag b
  | names ns => .names ns
  | items es => .items (es.map fun e => (e.1, f e.2))
  | size n => .size n
  | entry e => .entry (e.1, f e.2)

/-- The reply to a write: the scope after it, or the refusal and the scope before. -/
def written (s : Scope α) (reply : Reply α) :
    Except Refusal (Scope α) → Except Refusal (Reply α) × Scope α
  | .ok t => (.ok reply, t)
  | .error e => (.error e, s)

def taken {γ : Type} (s : Scope α) (reply : γ → Reply α) :
    Except Refusal (γ × Scope α) → Except Refusal (Reply α) × Scope α
  | .ok (a, t) => (.ok (reply a), t)
  | .error e => (.error e, s)

def updated : Option Refusal × Scope α → Except Refusal (Reply α) × Scope α
  | (none, t) => (.ok .nothing, t)
  | (some e, t) => (.error e, t)

def run (s : Scope α) : Command α → Except Refusal (Reply α) × Scope α
  | .set n x => s.written .itself (s.set n x)
  | .put n x => s.written .nothing (s.set n x)
  | .delete n => (.ok .itself, s.delete n)
  | .remove n => s.written .nothing (s.remove n)
  | .define n x => (.ok .itself, s.define n x)
  | .read n => ((s.read n).map .value, s)
  | .get n default? => (.ok (.optional ((s.find? n).or default?)), s)
  | .has n => (.ok (.flag (s.hasVariable n)), s)
  | .contains n => (.ok (.flag (s.contains n)), s)
  | .isConstant n => (.ok (.flag (s.isConstant n)), s)
  | .clear => (.ok .nothing, s.clear)
  | .names => (.ok (.names s.names), s)
  | .items => (.ok (.items s.items), s)
  | .size => (.ok (.size s.size), s)
  | .take n default? => s.taken .value (s.take n default?)
  | .takeFirst => s.taken .entry s.takeFirst
  | .getOrSet n x => s.taken .value (s.getOrSet n x)
  | .update items => updated (s.setAll items)

end Calculator.Scope
