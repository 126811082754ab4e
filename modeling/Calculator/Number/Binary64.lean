import Calculator.Number.Basic

/-!
# Finite floats as integers times powers of two

`Binary64` is the exact value of a finite float: a sign, a whole number and a
power of two. `ofFloat?` takes a float apart and `toFloat` puts one together;
`whole?` is the value as an integer where it is one.
-/

namespace Calculator.Number

/-- The value `± mantissa * 2 ^ exponent`. -/
structure Binary64 where
  negative : Bool
  mantissa : Nat
  exponent : Int
  deriving DecidableEq, Repr

namespace Binary64

/-- The exact value of a float; an infinity or a NaN has none. -/
def ofFloat? (x : Float) : Option Binary64 :=
  let fraction : Nat := x.toBits.toNat % Nat.pow 2 52
  let field : Nat := x.toBits.toNat / Nat.pow 2 52 % Nat.pow 2 11
  if field = 2047 then none
  else if field = 0 then some ⟨isNegative x, fraction, -1074⟩
  else some ⟨isNegative x, Nat.pow 2 52 + fraction, field - 1075⟩

def toFloat (b : Binary64) : Float :=
  let size :=
    match b.exponent with
    | .ofNat e => Float.ofScientific (b.mantissa * Nat.pow 2 e) false 0
    | .negSucc e => Float.ofScientific (b.mantissa * Nat.pow 5 (e + 1)) true (e + 1)
  if b.negative then -size else size

def whole? (b : Binary64) : Option Int :=
  let size? : Option Nat :=
    match b.exponent with
    | .ofNat e => some (b.mantissa * Nat.pow 2 e)
    | .negSucc e =>
      let unit := Nat.pow 2 (e + 1)
      if b.mantissa % unit = 0 then some (b.mantissa / unit) else none
  size?.map fun (n : Nat) => if b.negative then -(n : Int) else (n : Int)

/-- The mantissa on the grid of a lower exponent. -/
def mantissaAt (b : Binary64) (exponent : Int) : Nat :=
  b.mantissa * Nat.pow 2 (b.exponent - exponent).toNat

end Binary64

end Calculator.Number
