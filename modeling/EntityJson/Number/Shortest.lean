import EntityJson.Number.Binary64

/-!
# The fewest digits that read back

A decimal reads back as a binary floating-point number when it lies in the interval of numbers that
round to it, whose ends belong to it when the significand is even. `Magnitude.shortest` finds the
fewest digits with which that can be done, and of the decimals with so many digits the one nearest
to the number: on each grid of decimals with 1, 2, … 17 digits it tries the two neighbours of the
number.
-/

namespace EntityJson

/-- Which of two decimals is taken that are equally near. -/
inductive TieBreak where
  | toEven
  | up
  deriving DecidableEq, Repr

/-- The decimal `digits * 10 ^ exponent`. -/
structure DecimalDigits where
  digits : Nat
  exponent : Int
  deriving DecidableEq, Repr

namespace DecimalDigits

/-- The exponent of the first digit. -/
def leading (x : DecimalDigits) : Int :=
  x.exponent + digitCount x.digits - 1

/-- The same number without zeros at the end of its digits. -/
def trim (x : DecimalDigits) : DecimalDigits :=
  if h : 0 < x.digits ∧ x.digits % 10 = 0 then trim ⟨x.digits / 10, x.exponent + 1⟩ else x
termination_by x.digits
decreasing_by omega

end DecimalDigits

/-- The greatest `e` with `10 ^ e ≤ n / d`, for `n` and `d` that are not zero. -/
def floorLog10 (n d : Nat) : Int :=
  let e : Int := (digitCount n : Int) - digitCount d
  if d * tenPow e.toNat ≤ n * tenPow (-e).toNat then e else e - 1

namespace Magnitude

/-- The numbers that round to a magnitude, as the numerators `low ≤ value ≤ high` of fractions with
one denominator; `closed` says whether the ends belong to them. -/
structure Interval where
  low : Nat
  value : Nat
  high : Nat
  denominator : Nat
  closed : Bool

/-- The interval of a magnitude that is not zero. Below a power of two the numbers are twice as
dense as above it, unless it is the least one of full precision. -/
def interval (f : BinaryFormat) (x : Magnitude) : Interval :=
  let unit := twoPow x.exponent.toNat
  let power := x.significand = twoPow (f.precision - 1) ∧ f.minExponent < x.exponent
  { low := (4 * x.significand - if power then 1 else 2) * unit
    value := 4 * x.significand * unit
    high := (4 * x.significand + 2) * unit
    denominator := 4 * twoPow (-x.exponent).toNat
    closed := x.significand % 2 = 0 }

/-- The neighbour of the value on the grid of multiples of `10 ^ exponent` that reads back, if one
does; of two that do the nearer. -/
def Interval.onGrid (i : Interval) (tie : TieBreak) (exponent : Int) : Option Nat :=
  let up := tenPow (-exponent).toNat
  let unit := i.denominator * tenPow exponent.toNat
  let below := i.value * up / unit
  let above := below + 1
  let fits (k : Nat) : Bool :=
    if i.closed then i.low * up ≤ k * unit && k * unit ≤ i.high * up
    else i.low * up < k * unit && k * unit < i.high * up
  let toBelow := i.value * up - below * unit
  let toAbove := above * unit - i.value * up
  match fits below, fits above with
  | false, false => none
  | true, false => some below
  | false, true => some above
  | true, true =>
    if toBelow < toAbove then some below
    else if toAbove < toBelow then some above
    else match tie with
      | .toEven => some (if below % 2 = 0 then below else above)
      | .up => some above

/-- Tries grids of more and more digits, of which the first is at `10 ^ exponent`. -/
def Interval.firstGrid (i : Interval) (tie : TieBreak) : Nat → Int → DecimalDigits
  | 0, exponent =>
    ⟨i.value * tenPow (-exponent).toNat / (i.denominator * tenPow exponent.toNat), exponent⟩
  | tries + 1, exponent =>
    match i.onGrid tie exponent with
    | some digits => ⟨digits, exponent⟩
    | none => firstGrid i tie tries (exponent - 1)

/-- The fewest digits that read back as the magnitude in the 53-bit format; 17 always suffice. -/
def shortest (tie : TieBreak) (x : Magnitude) : DecimalDigits :=
  if x.significand = 0 then ⟨0, 0⟩
  else
    let i := x.interval .double
    (i.firstGrid tie 17 (floorLog10 i.value i.denominator)).trim

end Magnitude

end EntityJson
