/-!
# Numerals

A **numeral** is a number as it is spelled: a sign, digits, perhaps a point and more digits, perhaps
an exponent. Nothing of the spelling is lost in it, so readers of it decide for themselves which
numbers it stands for.
-/

namespace EntityJson

/-- The spelling of a number. The digits behind the point are empty if there is no point. -/
structure Numeral where
  negative : Bool
  whole : List Char
  fraction : List Char
  exponent : Option Int
  deriving DecidableEq, Repr

namespace Numeral

/-- The value of a run of digits. -/
def natural (digits : List Char) : Nat :=
  Nat.ofDigitChars 10 digits 0

/-- The number without its sign and its exponent, and without the point. -/
def coefficient (n : Numeral) : Nat :=
  natural (n.whole ++ n.fraction)

/-- The power of ten that the last digit of the coefficient stands for. -/
def lastExponent (n : Numeral) : Int :=
  n.exponent.getD 0 - n.fraction.length

/-- Whether the number has neither a point nor an exponent. -/
def isWhole (n : Numeral) : Bool :=
  n.fraction.isEmpty && n.exponent.isNone

/-! ## Reading -/

/-- A run of at least one digit, and the rest. -/
def scanDigits? (cs : List Char) : Option (List Char × List Char) :=
  let digits := cs.takeWhile Char.isDigit
  if digits.isEmpty then none else some (digits, cs.dropWhile Char.isDigit)

/-- The digits behind a point, if there is one, and the rest. -/
def scanFraction? : List Char → Option (List Char × List Char)
  | '.' :: rest => scanDigits? rest
  | rest => some ([], rest)

/-- The sign of an exponent, if there is one, and the rest. -/
def scanExponentSign : List Char → Bool × List Char
  | '+' :: rest => (false, rest)
  | '-' :: rest => (true, rest)
  | rest => (false, rest)

/-- The exponent, if there is one, and the rest. -/
def scanExponent? : List Char → Option (Option Int × List Char)
  | [] => some (none, [])
  | c :: cs =>
    if c = 'e' ∨ c = 'E' then do
      let (negative, rest) := scanExponentSign cs
      let (digits, rest) ← scanDigits? rest
      let value : Int := natural digits
      return (some (if negative then -value else value), rest)
    else some (none, c :: cs)

/-- The sign of a number, if there is one, and the rest. -/
def scanSign : List Char → Bool × List Char
  | '-' :: rest => (true, rest)
  | rest => (false, rest)

/-- The numeral at the front of a text, and the rest. -/
def scan? (cs : List Char) : Option (Numeral × List Char) := do
  let (negative, cs) := scanSign cs
  let (whole, cs) ← scanDigits? cs
  let (fraction, cs) ← scanFraction? cs
  let (exponent, cs) ← scanExponent? cs
  return (⟨negative, whole, fraction, exponent⟩, cs)

/-- Reads a text that is one numeral. -/
def read? (s : String) : Option Numeral :=
  match scan? s.toList with
  | some (n, []) => some n
  | _ => none

end Numeral

end EntityJson
