import Calculator.Number.Binary64

/-!
# The shortest decimal that reads back

A finite float is written with the fewest digits that lie closer to it than to
any other float, and of those with the nearest, an exact tie going to the even
digit. `shortest` finds the digits; a `Layout` says which exponents are written
out in positions and how the others look.
-/

namespace Calculator.Number

/-- The value `0.d₁d₂… * 10 ^ point`. -/
structure Digits where
  digits : List Char
  point : Int
  deriving DecidableEq, Repr

/-- A positive number as a quotient together with the interval that rounds to it. -/
structure Target where
  value : Nat
  lower : Nat
  upper : Nat
  unit : Nat
  closed : Bool

namespace Target

/--
The reals that round to `mantissa * 2 ^ exponent`, in quarters of its last place. Below a power of
two the neighbours are half as far away.
-/
def ofBinary64 (b : Binary64) : Target :=
  let up := Nat.pow 2 b.exponent.toNat
  let below := if b.mantissa = Nat.pow 2 52 ∧ b.exponent ≠ -1074 then 1 else 2
  { value := 4 * b.mantissa * up
    lower := (4 * b.mantissa - below) * up
    upper := (4 * b.mantissa + 2) * up
    unit := 4 * Nat.pow 2 (-b.exponent).toNat
    closed := b.mantissa % 2 = 0 }

def contains (t : Target) (num den : Nat) : Bool :=
  let x := num * t.unit
  if t.closed then t.lower * den ≤ x && x ≤ t.upper * den
  else t.lower * den < x && x < t.upper * den

/-- The grid point nearest to the value among its two neighbours, if one rounds to the value. -/
def onGrid? (t : Target) (point : Int) (count : Nat) : Option Nat :=
  let e := point - count
  let up := Nat.pow 10 e.toNat
  let down := Nat.pow 10 (-e).toNat
  let low := t.value * down / (t.unit * up)
  let inLow := t.contains (low * up) down
  let inHigh := t.contains ((low + 1) * up) down
  let double := 2 * (t.value * down)
  let middle := (2 * low + 1) * (t.unit * up)
  if inLow && inHigh then
    if double < middle || (double == middle && low % 2 == 0) then some low else some (low + 1)
  else if inLow then some low
  else if inHigh then some (low + 1)
  else none

/-- The `point` for which the value lies between a tenth and one, at or above a guess. -/
def pointFrom (t : Target) : Nat → Int → Int
  | 0, guess => guess
  | fuel + 1, guess =>
    if t.value * Nat.pow 10 (-guess).toNat < t.unit * Nat.pow 10 guess.toNat then guess
    else t.pointFrom fuel (guess + 1)

/-- Tries one digit, then two, and so on; seventeen always suffice. -/
def search (t : Target) (point : Int) : Nat → Nat → Digits
  | 0, _ => ⟨['0'], point⟩
  | fuel + 1, count =>
    match t.onGrid? point count with
    | none => t.search point fuel (count + 1)
    | some n =>
      let text := Nat.toDigits 10 n
      ⟨(text.reverse.dropWhile (· == '0')).reverse, point + text.length - count⟩

end Target

/-- The shortest digits of a value with a positive mantissa. -/
def shortest (b : Binary64) : Digits :=
  let t := Target.ofBinary64 b
  let guess := (b.mantissa.log2 + b.exponent) * 30103 / 100000 - 1
  t.search (t.pointFrom 8 guess) 17 1

structure Layout where
  /-- The least and the greatest exponent of the leading digit written out in positions. -/
  least : Int
  greatest : Int
  /-- The fewest digits of a written exponent. -/
  exponentWidth : Nat

namespace Layout

/-- Digits with a point among them, a zero standing where there would be none. -/
def positional (d : Digits) : List Char :=
  match d.point with
  | .ofNat p =>
    let whole := d.digits.take p ++ List.replicate (p - d.digits.length) '0'
    let fraction := d.digits.drop p
    (if whole = [] then ['0'] else whole) ++ '.' :: (if fraction = [] then ['0'] else fraction)
  | .negSucc p => '0' :: '.' :: (List.replicate (p + 1) '0' ++ d.digits)

/-- One digit, the others behind a point, and the exponent with its sign. -/
def scientific (layout : Layout) (d : Digits) : List Char :=
  let e := d.point - 1
  let size := Nat.toDigits 10 e.natAbs
  let fraction := d.digits.drop 1
  d.digits.take 1 ++ (if fraction = [] then [] else '.' :: fraction) ++
    'e' :: (if e < 0 then '-' else '+') ::
      (List.replicate (layout.exponentWidth - size.length) '0' ++ size)

def render (layout : Layout) (x : Float) : String :=
  let size :=
    match Binary64.ofFloat? x with
    | none => if x.isNaN then "nan".toList else "inf".toList
    | some b =>
      if b.mantissa = 0 then "0.0".toList
      else
        let d := shortest b
        if layout.least < d.point ∧ d.point ≤ layout.greatest + 1 then positional d
        else layout.scientific d
  String.ofList (if isNegative x && !x.isNaN then '-' :: size else size)

end Layout

end Calculator.Number
