import Calculator.Literal.Scanner
import Calculator.Setting

/-!
# Options from settings

`Config.Options` are the literal options that a configuration gives. What stands
for the separator is only asked for its length, so that a list or an object of
one item passes as well as a character; a scanner finds literals then, and can
read none. A truth value or a number has no length to ask for, which is no error
of the configuration but ends the reading (`Setting.Unsized`).
-/

namespace Calculator

namespace Setting

def kindName : Setting → String
  | .null => "NoneType"
  | .bool _ => "bool"
  | .int _ => "int"
  | .float _ => "float"
  | .text _ => "str"
  | .list _ => "list"
  | .object _ => "dict"

/-- A kind of settings that have no length. -/
structure Unsized where
  kind : String
  deriving DecidableEq, Repr

def Unsized.message (u : Unsized) : String := s!"object of type '{u.kind}' has no len()"

/-- The number of characters, items or keys. -/
def length : Setting → Except Unsized Nat
  | .text s => .ok s.length
  | .list xs => .ok xs.length
  | .object fields => .ok (fields.map Prod.fst).eraseDups.length
  | v => .error ⟨v.kindName⟩

end Setting

namespace Config

/-- What is accepted as a separator. -/
inductive Separator where
  | none
  | char (c : Char)
  /-- A list or an object of one item. -/
  | item (v : Setting)

/-- Reads a separator. What has a length has to have that of one character. -/
def Separator.ofSetting :
    Setting → Except Setting.Unsized (Except Literal.Options.Error Separator)
  | .null => .ok (.ok none)
  | .text s =>
    match s.toList with
    | [c] => .ok (.ok (char c))
    | _ => .ok (.error .separator)
  | v => v.length.map fun n => if n = 1 then .ok (item v) else .error .separator

structure Options where
  exponent : Bool := true
  decimal : Bool := true
  separator : Separator := .char '_'
  signed : Bool := false

namespace Options

/-- The options that a scanner asks for. -/
def literal (o : Options) : Literal.Options where
  exponent := o.exponent
  decimal := o.decimal
  separator :=
    match o.separator with
    | .char c => some c
    | .none | .item _ => none
  signed := o.signed

def scanner (o : Options) : Scanner :=
  match o.separator with
  | .item v => .unreadable v.kindName
  | .none | .char _ => .literals

def keys : List String := ["exponent", "decimal", "separator", "signed"]

/-- Options from their fields, the others having their defaults. -/
def ofFields (fields : List (String × Setting)) :
    Except Setting.Unsized (Except Literal.Options.Error Options) :=
  let flag (key : String) (standard : Bool) : Bool :=
    ((Setting.field? fields key).map Setting.isSet).getD standard
  let o : Options :=
    { exponent := flag "exponent" true, decimal := flag "decimal" true,
      signed := flag "signed" false }
  match Setting.field? fields "separator" with
  | none => .ok (.ok o)
  | some v => (Separator.ofSetting v).map fun r => r.map fun separator => { o with separator }

end Options

end Config

end Calculator
