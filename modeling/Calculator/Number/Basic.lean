/-!
# Special values of the floats

Names for NaN and infinity, the sign bit, and truth as a number: comparisons
answer one or zero, and zero and NaN count as false.
-/

namespace Calculator.Number

def nan : Float := 0.0 / 0.0

def infinity : Float := 1.0 / 0.0

/-- The sign bit, which zeros and infinities have too. -/
def isNegative (x : Float) : Bool := x.toBits >>> 63 == 1

def ofBool (b : Bool) : Float := if b then 1.0 else 0.0

def isFalse (x : Float) : Bool := x == 0.0 || x.isNaN

end Calculator.Number
