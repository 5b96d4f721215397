import EntityJson.Decimal.Digits
import EntityJson.Decimal.FieldFormat

/-!
# Writing decimals

A decimal is rounded as its field says, its digits are laid out in front of and behind the point,
the digits in front are grouped and filled with zeros, and the whole is filled up to the width.

Precision and width are machine words, and where the layout needs a signed number they are taken as
signed words (`signedWord`): from half of their range on they count as negative.
-/

namespace EntityJson

/-- The signed 64-bit word with the same bits as the low 64 of `n`. -/
def signedWord (n : Int) : Int :=
  n.bmod wordLimit

/-- A number within the range of signed words is its own word. -/
theorem signedWord_eq_self {n : Int} (low : -wordLimit ≤ 2 * n) (high : 2 * n < wordLimit) :
    signedWord n = n := by
  unfold signedWord
  unfold wordLimit at *
  exact Int.bmod_eq_of_le (by omega) (by omega)

namespace Decimal

/-- Rounds the digits to the precision of a field. -/
def rounded (field : FieldSpec) (x : Digits) : Digits :=
  match field.precision, field.style with
  | none, _ => x
  | some p, .scientific _ => x.roundSignificant (signedWord (p + 1))
  | some p, .fixed => x.rescale (signedWord (-p))
  | some p, .percent => x.rescale (signedWord (-p))
  | some p, .general _ => if p < x.length then x.roundSignificant p else x

/-- Whether the style writes the digits down to the unit at least. -/
def reachesUnit : NumberStyle → Bool
  | .fixed => true
  | .percent => true
  | _ => false

/-- The digits that a field shows: a hundredfold for a percentage, rounded, and a zero with its
exponent at most the unit's where the style reaches down to it. -/
def shownDigits (field : FieldSpec) (x : Digits) : Digits :=
  let x := if field.style = .percent then { x with exponent := x.exponent + 2 } else x
  let x := rounded field x
  if x.isZero ∧ 0 < x.exponent ∧ reachesUnit field.style then x.rescale 0 else x

/-- How many of the digits stand in front of the point: the ones down to the unit in positional
writing, one in scientific writing, in which a zero has its point where its precision puts it. The
general style writes positionally if no zeros have to be appended and at most five zeros follow the
point. -/
def digitsBeforePoint (field : FieldSpec) (x : Digits) : Int :=
  let toUnit := x.exponent + x.length
  match field.style with
  | .scientific _ =>
    match field.precision with
    | some p => if x.isZero then signedWord (1 - p) else 1
    | none => 1
  | .fixed => toUnit
  | .percent => toUnit
  | .general _ => if x.exponent ≤ 0 ∧ -6 < toUnit then toUnit else 1

/-- The digits in front of the point and behind it. -/
def splitAtPoint (digits : List Char) (before : Int) : List Char × List Char :=
  if before < 0 then (['0'], List.replicate (-before).toNat '0' ++ digits)
  else if digits.length < before then
    (digits ++ List.replicate (before.toNat - digits.length) '0', [])
  else
    let whole := digits.take before.toNat
    (if whole.isEmpty then ['0'] else whole, digits.drop before.toNat)

/-- The exponent with its mark and its sign. -/
def exponentText (upper : Bool) (exponent : Int) : List Char :=
  (if upper then 'E' else 'e') :: (if exponent < 0 then '-' else '+') ::
    Nat.toDigits 10 exponent.natAbs

/-- What stands in front of the digits. -/
def signText (field : FieldSpec) (x : Digits) : List Char :=
  if x.negative ∧ ¬ (x.isZero ∧ field.noNegativeZero) then ['-']
  else match field.sign with
    | .none => []
    | .plus => ['+']
    | .blank => [' ']

/-- What stands behind the digits in front of the point. -/
def tailText (field : FieldSpec) (fraction : List Char) (exponent : Int) : List Char :=
  (if fraction.isEmpty ∧ ¬ field.alwaysPoint then [] else '.' :: fraction) ++
  match field.style with
  | .scientific upper => exponentText upper exponent
  | .general upper => if exponent ≠ 0 then exponentText upper exponent else []
  | .percent => ['%']
  | .fixed => []

/-- Groups of three digits from the last one on, filled with zeros in front until they have `width`
characters together with a separator between each two. Digits and groups come last ones first. -/
def groupsBackward (digits : List Char) (width : Int) : List (List Char) :=
  let size := min (max digits.length (max width 1).toNat) 3
  let group := digits.take size ++ List.replicate (size - digits.length) '0'
  if _h : digits.length ≤ size ∧ width ≤ size then [group]
  else group :: groupsBackward (digits.drop size) (width - size - 1)
termination_by digits.length + width.toNat
decreasing_by
  rw [List.length_drop]
  omega

/-- Writes digits with a separator between groups of three, if there is one, and zeros in front up to
a width. -/
def grouped (digits : List Char) (separator : Option Char) (width : Nat) : List Char :=
  match separator with
  | none => List.replicate (width - digits.length) '0' ++ digits
  | some separator =>
    (List.intercalate [separator] (groupsBackward digits.reverse (signedWord width))).reverse

/-- Fills a text up to the width of the field. -/
def aligned (field : FieldSpec) (sign body : List Char) : List Char :=
  let missing := field.width - (sign.length + body.length)
  let fill (n : Nat) := List.replicate n field.fill
  match field.alignment with
  | .left => sign ++ body ++ fill missing
  | .right => fill missing ++ sign ++ body
  | .center => fill (missing / 2) ++ sign ++ body ++ fill (missing - missing / 2)
  | .afterSign => sign ++ fill missing ++ body

/-- Writes a decimal in a field. -/
def render (field : FieldSpec) (value : Decimal) : List Char :=
  let x := shownDigits field (.ofDecimal value)
  let before := digitsBeforePoint field x
  let (whole, fraction) := splitAtPoint (Nat.toDigits 10 x.coefficient) before
  let sign := signText field x
  let tail := tailText field fraction (x.exponent + x.length - before)
  let width := if field.zeroFill then field.width - (tail.length + sign.length) else 0
  aligned field sign (grouped whole field.separator width ++ tail)

/-- Writes a decimal in a format; none if the format is not valid. -/
def format? (value : Decimal) (format : String) : Option String :=
  (DecimalFormat.parse? format).map fun f =>
    String.ofList (f.before ++ render f.field value ++ f.after)

/-- The text with all digits of the coefficient and all places of the scale. -/
def text (value : Decimal) : String :=
  let (whole, fraction) := splitAtPoint (Nat.toDigits 10 value.coefficient)
    (digitCount value.coefficient - value.scale)
  (if value.negative then "-" else "") ++ String.ofList whole
    ++ (if fraction.isEmpty then "" else "." ++ String.ofList fraction)

end Decimal

end EntityJson
