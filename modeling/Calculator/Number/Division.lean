import Calculator.Number.Binary64

/-!
# Division that never traps

`quotient` divides and gives an infinity or NaN where the divisor is zero.
`remainder` is the remainder of a division that rounds toward zero, computed
without rounding.
-/

namespace Calculator.Number

/-- A quotient by zero is an infinity with the sign of both operands, or NaN for a zero or NaN. -/
def quotient (a b : Float) : Float :=
  if b == 0.0 then
    if isFalse a then nan
    else if isNegative a == isNegative b then infinity else -infinity
  else a / b

/--
What division toward zero leaves, with the sign of the dividend. Both values lie on the grid of the
lower of the two exponents, where the remainder is one of whole numbers. An infinite divisor leaves
the dividend; a zero divisor or an infinite dividend leaves NaN.
-/
def remainder (a b : Float) : Float :=
  match Binary64.ofFloat? a, Binary64.ofFloat? b with
  | some x, some y =>
    let e := min x.exponent y.exponent
    if y.mantissa = 0 then nan
    else Binary64.toFloat ⟨x.negative, x.mantissaAt e % y.mantissaAt e, e⟩
  | some _, none => if b.isNaN then nan else a
  | none, _ => nan

end Calculator.Number
