import Calculator.Number.Binary64
import Calculator.Number.Decimal
import Calculator.Text.Blank

/-!
# Setting values

A `Setting` is a value of a configuration as it comes from outside: null, a
truth value, a number, a text, or a list or object of such values. Numbers keep
whether they were written whole. `number?` and `switch?` are the lenient
readings of a setting as a float and as a truth value.
-/

namespace Calculator

inductive Setting where
  | null
  | bool (b : Bool)
  | int (n : Int)
  | float (x : Float)
  | text (s : String)
  | list (xs : List Setting)
  | object (fields : List (String × Setting))

namespace Setting

/-- The value of a field; of two fields of one name the later counts. -/
def field? (fields : List (String × Setting)) (name : String) : Option Setting :=
  fields.reverse.lookup name

def positive? : Setting → Option Nat
  | .int n => if 0 < n then some n.toNat else none
  | _ => none

/-- The text without underscores that stand between two other characters, if it has any. -/
def withoutUnderscores? (cs : List Char) : Option (List Char) :=
  let isDoubled := (cs.zip cs.tail).contains ('_', '_')
  if '_' ∈ cs ∧ cs.head? ≠ some '_' ∧ cs.getLast? ≠ some '_' ∧ ¬isDoubled then
    some (cs.filter (· ≠ '_'))
  else none

/-- Reads a float from a trimmed text, or from one whose digits are grouped by underscores. -/
def textNumber? (s : String) : Option Float :=
  (Number.ofText? (Text.trim s.toList)).or
    ((withoutUnderscores? s.toList).bind Number.ofText?)

/-- Why a setting is no number: its text is none, or it is of another kind. -/
inductive NotANumber where
  | text
  | kind
  deriving DecidableEq, Repr

def number? : Setting → Except NotANumber Float
  | .bool b => .ok (if b then 1.0 else 0.0)
  | .int n => if (Number.ofInt n).isInf then .error .kind else .ok (Number.ofInt n)
  | .float x => .ok x
  | .text s =>
    match textNumber? s with
    | some x => .ok x
    | none => .error .text
  | .null | .list _ | .object _ => .error .kind

/--
Why a setting is no truth value: a whole number or text that stands for none, or another kind.
Numbers with a fraction or beyond a signed 64-bit word are of another kind.
-/
inductive NotASwitch where
  | value
  | kind
  deriving DecidableEq, Repr

def textSwitch? (s : String) : Option Bool :=
  match String.ofList (s.toList.map Char.toLower) with
  | "0" | "off" | "f" | "false" | "n" | "no" => some false
  | "1" | "on" | "t" | "true" | "y" | "yes" => some true
  | _ => none

/-- Zero is off and one is on. -/
def wholeSwitch? (n : Int) : Except NotASwitch Bool :=
  if n = 0 then .ok false
  else if n = 1 then .ok true
  else if -9223372036854775808 ≤ n ∧ n ≤ 9223372036854775807 then .error .value
  else .error .kind

def switch? : Setting → Except NotASwitch Bool
  | .bool b => .ok b
  | .int n => wholeSwitch? n
  | .float x =>
    match (Number.Binary64.ofFloat? x).bind Number.Binary64.whole? with
    | some n => wholeSwitch? n
    | none => .error .kind
  | .text s =>
    match textSwitch? s with
    | some b => .ok b
    | none => .error .value
  | .null | .list _ | .object _ => .error .kind

/-- Whether a setting counts as set: neither null, false, zero nor empty. -/
def isSet : Setting → Bool
  | .null => false
  | .bool b => b
  | .int n => n != 0
  | .float x => x != 0.0
  | .text s => !s.isEmpty
  | .list xs => !xs.isEmpty
  | .object fields => !fields.isEmpty

end Setting

end Calculator
