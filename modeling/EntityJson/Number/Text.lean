import EntityJson.Number.Shortest

/-!
# Writing floating-point numbers

A number is written with the fewest digits that read back, either positionally, always with a
fraction, or with an exponent. A `FloatStyle` says which exponents of the first digit are written
positionally, whether the sign of a positive exponent is written, and how ties between digits are
broken.
-/

namespace EntityJson

/-- The choices that a way of writing numbers makes. -/
structure FloatStyle where
  minPositional : Int
  maxPositional : Int
  plusSign : Bool
  tie : TieBreak

namespace FloatStyle

/-- Numbers in JSON text: positional from `10 ^ -5` to below `10 ^ 16`, exponents with a sign. -/
def json : FloatStyle := ⟨-5, 15, true, .toEven⟩

/-- Numbers in the description of a value: positional from `10 ^ -4` to below `10 ^ 16`, exponents
without a plus sign. -/
def inspection : FloatStyle := ⟨-4, 15, false, .up⟩

end FloatStyle

def zeros (n : Nat) : String :=
  String.ofList (List.replicate n '0')

/-- Puts the point behind the digit of exponent zero, with at least one digit on either side. -/
def DecimalDigits.positional (x : DecimalDigits) : String :=
  let digits := Nat.toDigits 10 x.digits
  let whole := (digits.length + x.exponent).toNat
  if 0 ≤ x.exponent then String.ofList digits ++ zeros x.exponent.toNat ++ ".0"
  else if whole = 0 then "0." ++ zeros (-(digits.length + x.exponent)).toNat ++ String.ofList digits
  else String.ofList (digits.take whole) ++ "." ++ String.ofList (digits.drop whole)

/-- Puts the point behind the first digit, if others follow, and writes the exponent. -/
def DecimalDigits.scientific (plusSign : Bool) (x : DecimalDigits) : String :=
  let digits := Nat.toDigits 10 x.digits
  let fraction := if digits.length ≤ 1 then "" else "." ++ String.ofList (digits.drop 1)
  let e := x.leading
  let sign := if e < 0 then "-" else if plusSign then "+" else ""
  s!"{String.ofList (digits.take 1)}{fraction}e{sign}{e.natAbs}"

namespace Binary64

/-- Writes a number. -/
def text (style : FloatStyle) : Binary64 → String
  | nan => "NaN"
  | infinite negative => if negative then "-inf" else "inf"
  | finite negative x =>
    let d := x.shortest style.tie
    let positional := d.digits = 0 ∨
      (style.minPositional ≤ d.leading ∧ d.leading ≤ style.maxPositional)
    let unsigned := if positional then d.positional else d.scientific style.plusSign
    if negative then "-" ++ unsigned else unsigned

end Binary64

end EntityJson
