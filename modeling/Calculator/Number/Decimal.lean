import Calculator.Number.Basic

/-!
# Decimal numerals

`Decimal` is a whole number times a power of ten. `read?` reads one from digits
with an optional point and an optional exponent; `toFloat` is the nearest float,
which is infinite or zero for numbers out of range. Signs and the names of the
special values are read by `Number.ofText?`.
-/

namespace Calculator.Number

def isDigit (c : Char) : Bool := '0' ≤ c && c ≤ '9'

/-- The worth of a digit in a base up to sixteen. -/
def digitValue (c : Char) : Nat :=
  if isDigit c then c.toNat - '0'.toNat
  else if 'a' ≤ c then c.toNat - 'a'.toNat + 10
  else c.toNat - 'A'.toNat + 10

def ofDigits (base : Nat) (digits : List Char) : Nat :=
  digits.foldl (fun n c => base * n + digitValue c) 0

/-- The value `mantissa * 10 ^ exponent`. -/
structure Decimal where
  mantissa : Nat
  exponent : Int
  deriving DecidableEq, Repr

namespace Decimal

/--
The float nearest to the value, a tie going to the even neighbour. Beyond the two bounds the power
of ten alone decides, and is not computed.
-/
def toFloat (d : Decimal) : Float :=
  if d.mantissa = 0 then 0.0
  else if 400 ≤ d.exponent then infinity
  else if d.exponent < -(400 + d.mantissa.log2 : Int) then 0.0
  else
    match d.exponent with
    | .ofNat e => Float.ofScientific d.mantissa false e
    | .negSucc e => Float.ofScientific d.mantissa true (e + 1)

def readSigned? (cs : List Char) : Option Int :=
  let digits := match cs with
    | '+' :: r => r
    | '-' :: r => r
    | r => r
  if digits ≠ [] ∧ digits.all isDigit then
    let n : Int := ofDigits 10 digits
    some (if cs.head? = some '-' then -n else n)
  else none

/-- Reads what follows the digits: nothing or an exponent. -/
def readExponent? : List Char → Option Int
  | [] => some 0
  | 'e' :: r => readSigned? r
  | 'E' :: r => readSigned? r
  | _ => none

/--
Reads a numeral such as `12`, `1.`, `.5` or `0.3e-7`; at least one digit stands before the exponent.
-/
def read? (cs : List Char) : Option Decimal :=
  let whole := cs.takeWhile isDigit
  let rest := cs.dropWhile isDigit
  let (fraction, rest) := match rest with
    | '.' :: r => (r.takeWhile isDigit, r.dropWhile isDigit)
    | r => ([], r)
  if whole = [] ∧ fraction = [] then none
  else (readExponent? rest).map fun e =>
    ⟨ofDigits 10 (whole ++ fraction), e - fraction.length⟩

end Decimal

/-- The float nearest to a whole number; an infinity beyond the range. -/
def ofNat (n : Nat) : Float := Float.ofScientific n false 0

def ofInt (n : Int) : Float := if n < 0 then -(ofNat n.natAbs) else ofNat n.natAbs

/-- Reads a numeral with an optional sign, or the name of an infinity or of NaN in any case. -/
def ofText? (cs : List Char) : Option Float :=
  let (negative, body) := match cs with
    | '+' :: r => (false, r)
    | '-' :: r => (true, r)
    | r => (false, r)
  let size :=
    match String.ofList (body.map Char.toLower) with
    | "inf" | "infinity" => some infinity
    | "nan" => some nan
    | _ => (Decimal.read? body).map Decimal.toFloat
  size.map fun x => if negative then -x else x

end Calculator.Number
