import EntityJson.Number.Numeral
import EntityJson.Number.Powers
import EntityJson.Number.Rounding

/-!
# Decimals

A decimal is a sign, a coefficient of at most 96 bits and a scale of at most 28 places. All three
count: `1.0` and `1.00` are different decimals, and so are `0` and `-0`.
-/

namespace EntityJson

/-- The decimal `coefficient * 10 ^ -scale` with a sign. -/
structure Decimal where
  negative : Bool
  coefficient : Nat
  scale : Nat
  coefficient_lt : coefficient < twoPow 96
  scale_le : scale ≤ 28
  deriving DecidableEq

namespace Decimal

/-- The decimal that a numeral spells, with the sign, the digits and the places as they are written,
if its digits reach neither above the unit nor too far below it. -/
def ofNumeral? (n : Numeral) : Option Decimal :=
  let scale := -n.lastExponent
  if h : n.coefficient < twoPow 96 ∧ 0 ≤ scale ∧ scale.toNat ≤ 28 then
    some {
      negative := n.negative
      coefficient := n.coefficient
      scale := scale.toNat
      coefficient_lt := h.1
      scale_le := h.2.2 }
  else none

def read? (s : String) : Option Decimal :=
  (Numeral.read? s).bind ofNumeral?

end Decimal

end EntityJson
