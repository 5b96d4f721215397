import EntityJson.Decimal.Basic

/-!
# Digits and their exponent

The value of a decimal on its way to text: a coefficient, and the power of ten that its last digit
stands for. `Digits.rescale` moves the last digit to another power, `Digits.roundSignificant` keeps
a number of leading digits; both round to the nearest, a tie to the even neighbour.
-/

namespace EntityJson

/-- The number `coefficient * 10 ^ exponent` with a sign. -/
structure Digits where
  negative : Bool
  coefficient : Nat
  exponent : Int
  deriving DecidableEq, Repr

namespace Digits

def ofDecimal (x : Decimal) : Digits :=
  ⟨x.negative, x.coefficient, -x.scale⟩

/-- How many digits the coefficient has. -/
def length (x : Digits) : Nat :=
  digitCount x.coefficient

def isZero (x : Digits) : Bool :=
  x.coefficient = 0

/-- The exponent of the first digit. -/
def leading (x : Digits) : Int :=
  x.exponent + x.length - 1

/-- The number with `exponent` as the exponent of its last digit. Zeros are appended, or digits are
dropped and the rest is rounded; where more digits are dropped than there are, nothing is left. -/
def rescale (x : Digits) (exponent : Int) : Digits :=
  if x.isZero then { x with exponent }
  else if exponent ≤ x.exponent then
    { x with coefficient := x.coefficient * tenPow (x.exponent - exponent).toNat, exponent }
  else
    let dropped := (exponent - x.exponent).toNat
    if x.length < dropped then { x with coefficient := 0, exponent }
    else { x with coefficient := divHalfEven x.coefficient (tenPow dropped), exponent }

/-- The number rounded to `places` digits. A carry into a new first digit leaves one digit too many,
which is a zero and is dropped. -/
def roundSignificant (x : Digits) (places : Int) : Digits :=
  if x.isZero then x
  else
    let rounded := x.rescale (x.leading + 1 - places)
    if rounded.leading ≠ x.leading then rounded.rescale (rounded.leading + 1 - places) else rounded

end Digits

end EntityJson
