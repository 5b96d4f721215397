import EntityJson.Number.Powers
import EntityJson.Number.Rounding

/-!
# Binary floating-point numbers

A finite number is a sign, a significand of at most 53 bits and the exponent of a power of two;
beside the finite ones there are two infinities and a number that is none. All arithmetic is done
exactly on natural numbers and then rounded once, to the nearest number of the format, a tie going
to the even significand.

`BinaryFormat.round` is that rounding for a quotient of natural numbers. Everything else reads or
combines numbers through it: decimal text in `ofDecimal`, and scaling by powers of ten in `scale`.
-/

namespace EntityJson

/-- The numbers `m * 2 ^ q` with `m < 2 ^ precision` and `minExponent ≤ q ≤ maxExponent`. -/
structure BinaryFormat where
  precision : Nat
  minExponent : Int
  maxExponent : Int

/-- A significand and the exponent of the power of two that it is multiplied by. -/
structure Magnitude where
  significand : Nat
  exponent : Int
  deriving DecidableEq, Repr

namespace Magnitude

def numerator (x : Magnitude) : Nat :=
  x.significand * twoPow x.exponent.toNat

def denominator (x : Magnitude) : Nat :=
  twoPow (-x.exponent).toNat

/-- Whether two magnitudes are the same number. -/
def same (x y : Magnitude) : Bool :=
  x.numerator * y.denominator == y.numerator * x.denominator

end Magnitude

/-- The greatest `e` with `2 ^ e ≤ n / d`. -/
def floorLog2 (n d : Nat) : Int :=
  let e : Int := n.log2 - d.log2
  if d * twoPow e.toNat ≤ n * twoPow (-e).toNat then e else e - 1

namespace BinaryFormat

/-- Significands of 24 bits. -/
def single : BinaryFormat := ⟨24, -149, 104⟩

/-- Significands of 53 bits. -/
def double : BinaryFormat := ⟨53, -1074, 971⟩

/-- The number of the format nearest to `n / d`; none if that lies beyond the greatest one. -/
def round (f : BinaryFormat) (n d : Nat) : Option Magnitude :=
  if n = 0 then some ⟨0, f.minExponent⟩
  else
    let q := max (floorLog2 n d + 1 - f.precision) f.minExponent
    let m := divHalfEven (n * twoPow (-q).toNat) (d * twoPow q.toNat)
    let x : Magnitude := if m = twoPow f.precision then ⟨twoPow (f.precision - 1), q + 1⟩ else ⟨m, q⟩
    if f.maxExponent < x.exponent then none else some x

end BinaryFormat

/-- A floating-point number with a significand of 53 bits. -/
inductive Binary64 where
  | nan
  | infinite (negative : Bool)
  | finite (negative : Bool) (magnitude : Magnitude)
  deriving DecidableEq, Repr

namespace Binary64

/-- Equality of numbers: zero equals negative zero, and what is no number equals nothing. -/
def eq : Binary64 → Binary64 → Bool
  | finite s x, finite t y =>
    x.same y && (s == t || x.significand == 0)
  | infinite s, infinite t => s == t
  | _, _ => false

def isFinite : Binary64 → Bool
  | finite _ _ => true
  | _ => false

/-- A magnitude with its sign; what lies beyond the greatest number is infinite. -/
def ofMagnitude? (negative : Bool) : Option Magnitude → Binary64
  | some x => finite negative x
  | none => infinite negative

/-- The number nearest to `digits * 10 ^ exponent` in a format of at most this one's range. Powers
of ten outside of `10 ^ ±400` are beyond every such format and are not worked out. -/
def ofDecimal (f : BinaryFormat) (negative : Bool) (digits : Nat) (exponent : Int) : Binary64 :=
  let top := digitCount digits + exponent
  if digits = 0 ∨ top < -400 then finite negative ⟨0, BinaryFormat.double.minExponent⟩
  else if 400 < top then infinite negative
  else
    let rounded := f.round (digits * tenPow exponent.toNat) (tenPow (-exponent).toNat)
    ofMagnitude? negative <|
      rounded.bind fun x => BinaryFormat.double.round x.numerator x.denominator

/-- Ten to the power of `k`, rounded. -/
def powerOfTen (k : Nat) : Option Magnitude :=
  BinaryFormat.double.round (tenPow k) 1

def times (x y : Magnitude) : Option Magnitude :=
  BinaryFormat.double.round (x.numerator * y.numerator) (x.denominator * y.denominator)

def dividedBy (x y : Magnitude) : Option Magnitude :=
  BinaryFormat.double.round (x.numerator * y.denominator) (x.denominator * y.numerator)

/-- The greatest power of ten that has a rounded form. -/
def maxTenExponent : Nat := 308

/-- Multiplies by a power of ten, or divides by one where the exponent is negative, rounding at each
step. Exponents beyond the greatest power are taken in several steps downwards; upwards there is no
result unless the number is zero. -/
def scale (x : Magnitude) (exponent : Int) : Option Magnitude :=
  if x.significand = 0 then some x
  else if maxTenExponent < exponent then none
  else if 0 ≤ exponent then (powerOfTen exponent.toNat).bind (times x)
  else if _h : exponent < -maxTenExponent then do
    let y ← (powerOfTen maxTenExponent).bind (dividedBy x)
    scale y (exponent + maxTenExponent)
  else (powerOfTen (-exponent).toNat).bind (dividedBy x)
termination_by (-exponent).toNat
decreasing_by simp only [maxTenExponent] at *; omega

end Binary64

end EntityJson
