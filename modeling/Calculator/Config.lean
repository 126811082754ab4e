import Calculator.Bindings
import Calculator.Config.Options
import Calculator.Limits

/-!
# Configurations

A `Config` says which limits, literal options and constants a new formula gets.
`Config.ofSetting` reads one from a setting value and either succeeds or lists
every error, field by field and then the unknown keys; only a separator without
a length ends the reading at once. Most keys have two spellings, such as
`numberOptions` and `number_options`; inside `limits` either may be used, and of
two values for one limit the later counts.
-/

namespace Calculator

structure Config where
  limits : Option Limits := none
  options : Option Config.Options := none
  constants : Bindings Float := .empty
  includeDefaults : Bool := true

namespace Config

def effectiveLimits (c : Config) : Limits := c.limits.getD {}

def effectiveOptions (c : Config) : Options := c.options.getD {}

/-! ## Errors -/

inductive Flaw where
  | unknownKeys (label : String) (keys : List String)
  | limit (e : Limits.Error)
  | option (e : Literal.Options.Error)
  deriving DecidableEq, Repr

def Flaw.message : Flaw → String
  | unknownKeys label keys => s!"Unknown {label}: " ++ ", ".intercalate keys
  | limit e => e.message
  | option e => e.message

inductive ErrorKind where
  | notAnObject
  | unknownKey
  | notLimits
  | notOptions
  | flaw (f : Flaw)
  | notConstants
  | number (e : Setting.NotANumber)
  | switch (e : Setting.NotASwitch)
  deriving DecidableEq, Repr

namespace ErrorKind

def name : ErrorKind → String
  | notAnObject => "model_type"
  | unknownKey => "extra_forbidden"
  | notLimits | notOptions => "dataclass_type"
  | flaw _ => "value_error"
  | notConstants => "dict_type"
  | number .text => "float_parsing"
  | number .kind => "float_type"
  | switch .value => "bool_parsing"
  | switch .kind => "bool_type"

def message : ErrorKind → String
  | notAnObject => "Input should be a valid dictionary or instance of ExpressionConfig"
  | unknownKey => "Extra inputs are not permitted"
  | notLimits => "Input should be a dictionary or an instance of ExpressionLimits"
  | notOptions => "Input should be a dictionary or an instance of NumberOptions"
  | flaw f => "Value error, " ++ f.message
  | notConstants => "Input should be a valid dictionary"
  | number .text => "Input should be a valid number, unable to parse string as a number"
  | number .kind => "Input should be a valid number"
  | switch .value => "Input should be a valid boolean, unable to interpret input"
  | switch .kind => "Input should be a valid boolean"

end ErrorKind

/-- An error and the keys that lead to it. -/
structure Error where
  location : List String
  kind : ErrorKind
  deriving DecidableEq, Repr

/-- Why there is no configuration: all its errors, or a separator that ends the reading. -/
inductive Refusal where
  | errors (es : List Error)
  | unsized (u : Setting.Unsized)
  deriving DecidableEq, Repr

/-! ## Objects of limits and options -/

def camelName : Limit → String
  | .length => "maxExpressionLength"
  | .tokens => "maxTokens"
  | .depth => "maxParenDepth"

/-- The plain spelling of a key of `limits`. -/
def limitKey (key : String) : String :=
  match Limit.all.find? fun k => camelName k == key with
  | some k => k.name
  | none => key

def unknownKeys (known : List String) (fields : List (String × Setting)) : List String :=
  ((fields.map Prod.fst).filter fun k => !known.contains k).mergeSort fun a b => !(b < a)

/-- A bound from its field; zero stands for a value that is no positive whole number. -/
def boundOf (fields : List (String × Setting)) (k : Limit) : Nat :=
  match Setting.field? fields k.name with
  | none => ({} : Limits).bound k
  | some v => v.positive?.getD 0

/-- Limits from fields in plain spelling, the others having their defaults. -/
def limitsOfFields (fields : List (String × Setting)) : Except Limits.Error Limits :=
  Limits.ofValues (boundOf fields .length) (boundOf fields .tokens) (boundOf fields .depth)

def limitsOfObject (fields : List (String × Setting)) : Except Flaw Limits :=
  let fields := fields.map fun f => (limitKey f.1, f.2)
  match unknownKeys (Limit.all.map Limit.name) fields with
  | [] => (limitsOfFields fields).mapError .limit
  | keys => .error (.unknownKeys "expression limits" keys)

def optionsOfObject (fields : List (String × Setting)) :
    Except Setting.Unsized (Except Flaw Options) :=
  match unknownKeys Options.keys fields with
  | [] => (Options.ofFields fields).map fun r => r.mapError .option
  | keys => .ok (.error (.unknownKeys "number options" keys))

/-! ## The fields of a configuration -/

/-- The outcome of one field: its value, the default where it has errors, and the errors. -/
abbrev Field (α : Type) := α × List Error

def readField {α : Type} (key : String) : Except Flaw α → Field (Option α)
  | .ok a => (some a, [])
  | .error f => (none, [⟨[key], .flaw f⟩])

def limitsField : Option Setting → Field (Option Limits)
  | none | some .null => (none, [])
  | some (.object fields) => readField "limits" (limitsOfObject fields)
  | some _ => (none, [⟨["limits"], .notLimits⟩])

def optionsField (key : String) : Option Setting → Except Setting.Unsized (Field (Option Options))
  | none | some .null => .ok (none, [])
  | some (.object fields) => (optionsOfObject fields).map (readField key)
  | some _ => .ok (none, [⟨[key], .notOptions⟩])

def constantField (b : Bindings Float) (name : String) (v : Setting) : Field (Bindings Float) :=
  match v.number? with
  | .ok x => (b.insert name x, [])
  | .error e => (b, [⟨["constants", name], .number e⟩])

def constantFields (fields : List (String × Setting)) : Field (Bindings Float) :=
  fields.foldl
    (fun acc f =>
      let r := constantField acc.1 f.1 f.2
      (r.1, acc.2 ++ r.2))
    (.empty, [])

def constantsField : Option Setting → Field (Bindings Float)
  | none => (.empty, [])
  | some (.object fields) => constantFields fields
  | some _ => (.empty, [⟨["constants"], .notConstants⟩])

def switchField (key : String) : Option Setting → Field Bool
  | none => (true, [])
  | some v =>
    match v.switch? with
    | .ok b => (b, [])
    | .error e => (true, [⟨[key], .switch e⟩])

/-- The spelling under which a field is given; the first one if it is not given at all. -/
def spelling (fields : List (String × Setting)) (camel plain : String) : String :=
  if (fields.map Prod.fst).contains camel then camel
  else if (fields.map Prod.fst).contains plain then plain
  else camel

/-- Reads a configuration or lists all errors. -/
def ofSetting : Setting → Except Refusal Config
  | .object fields => do
    let optionsKey := spelling fields "numberOptions" "number_options"
    let switchKey := spelling fields "includeDefaultConstants" "include_default_constants"
    let field (key : String) := Setting.field? fields key
    let limits := limitsField (field "limits")
    let options ← (optionsField optionsKey (field optionsKey)).mapError .unsized
    let constants := constantsField (field "constants")
    let switch := switchField switchKey (field switchKey)
    let known := ["limits", optionsKey, "constants", switchKey]
    let unknown := (fields.map Prod.fst).filter fun k => !known.contains k
    let errors := limits.2 ++ options.2 ++ constants.2 ++ switch.2 ++
      unknown.map fun k => ⟨[k], .unknownKey⟩
    if errors = [] then .ok ⟨limits.1, options.1, constants.1, switch.1⟩
    else .error (.errors errors)
  | _ => .error (.errors [⟨[], .notAnObject⟩])

end Config

end Calculator
