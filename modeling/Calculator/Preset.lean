import Calculator.Config
import Calculator.Worksheet

/-!
# Ready-made formulas

`Preset.constants` are well-known numbers. `Preset.sheet` makes a formula on a
scope of its own, with these and the constants of a configuration, and
`Preset.create` reads a source at once if one is given.
-/

namespace Calculator.Preset

/--
The circle number, the base of logarithms, the solution of `x * exp x = 1`, the golden ratio, the
logarithm of two and its square root.
-/
def constants : Bindings Float :=
  .ofList [("pi", 3.141592653589793), ("e", 2.718281828459045), ("omega", 0.5671432904097838),
    ("phi", 1.618033988749895), ("ln2", 0.6931471805599453), ("sqrt2", 1.4142135623730951)]

/-- The constants of a configuration; its own win over the well-known ones. -/
def constantsOf (c : Config) : Bindings Float :=
  c.constants.entries.foldl (fun b e => b.insert e.1 e.2)
    (if c.includeDefaults then constants else .empty)

def sheet (c : Config) : Worksheet :=
  { formula :=
      { settings :=
          { limits := c.effectiveLimits, options := c.effectiveOptions.literal
            scanner := c.effectiveOptions.scanner } }
    scope := { constants := constantsOf c } }

/-- A formula under a configuration; a given source is loaded and read. -/
def create (c : Config) : Option String → Worksheet.Answer
  | none => { reply := .ok .nothing, sheet := sheet c }
  | some source => Worksheet.parse { sheet c with formula := (sheet c).formula.load source }

end Calculator.Preset
