import EntityJson.Number.Numeral
import EntityJson.Number.Powers

/-!
# Formats of decimals

A format is text around exactly one **field** in braces, in which a brace of the text is written
twice. The field is empty or a colon and

`[[fill]align][sign][z][#][0][width][grouping][.precision][type]`

* align: `<`, `>` (if none is given), `^`, or `=` for filling between sign and digits,
* sign: `-` (if none is given), `+` or a blank, for numbers that are not negative,
* `z`: a negative zero loses its sign; `#`: the point is always written,
* `0`: filling with zeros behind the sign, which leaves no room for a fill or an align of its own,
* grouping: `,` or `_` between groups of three digits in front of the point,
* type: `f` and `F` fixed point, `e` and `E` scientific, `%` percentage, `g` and `G` or none general.

Width and precision are machine words: a width that fits none counts as not given, and such a
precision makes the format invalid.
-/

namespace EntityJson

/-- Where the text of a field stands in a wider one. -/
inductive Alignment where
  | left
  | right
  | center
  | afterSign
  deriving DecidableEq, Repr

/-- What is written in front of a number that is not negative. -/
inductive SignStyle where
  | none
  | plus
  | blank
  deriving DecidableEq, Repr

/-- How the digits of a number are laid out. -/
inductive NumberStyle where
  | fixed
  | scientific (upper : Bool)
  | percent
  | general (upper : Bool)
  deriving DecidableEq, Repr

/-- The fields of a format. -/
structure FieldSpec where
  fill : Char
  alignment : Alignment
  sign : SignStyle
  noNegativeZero : Bool
  alwaysPoint : Bool
  zeroFill : Bool
  width : Nat
  separator : Option Char
  precision : Option Nat
  style : NumberStyle
  deriving DecidableEq, Repr

/-- A field with the text in front of it and behind it. -/
structure DecimalFormat where
  before : List Char
  field : FieldSpec
  after : List Char
  deriving DecidableEq, Repr

namespace Alignment

def ofChar? : Char → Option Alignment
  | '<' => some left
  | '>' => some right
  | '^' => some center
  | '=' => some afterSign
  | _ => none

end Alignment

namespace NumberStyle

def ofChar? : Char → Option NumberStyle
  | 'f' => some fixed
  | 'F' => some fixed
  | 'e' => some (scientific false)
  | 'E' => some (scientific true)
  | '%' => some percent
  | 'g' => some (general false)
  | 'G' => some (general true)
  | _ => none

end NumberStyle

namespace FieldSpec

/-- The field without any component. -/
def plain : FieldSpec where
  fill := ' '
  alignment := .right
  sign := .none
  noNegativeZero := false
  alwaysPoint := false
  zeroFill := false
  width := 0
  separator := none
  precision := none
  style := .general false

/-! Each reader below takes one component from the front of a text and gives the rest. -/

/-- A fill and an alignment, or an alignment alone. A second character that is an alignment makes
the first one the fill. -/
def readAlignment : List Char → Option (Option Char × Alignment) × List Char
  | [] => (none, [])
  | [c] =>
    match Alignment.ofChar? c with
    | some a => (some (none, a), [])
    | none => (none, [c])
  | c :: d :: rest =>
    match Alignment.ofChar? d, Alignment.ofChar? c with
    | some a, _ => (some (some c, a), rest)
    | none, some a => (some (none, a), d :: rest)
    | none, none => (none, c :: d :: rest)

def readSign : List Char → SignStyle × List Char
  | '+' :: rest => (.plus, rest)
  | '-' :: rest => (.none, rest)
  | ' ' :: rest => (.blank, rest)
  | rest => (.none, rest)

/-- Whether the text starts with the character `flag`. -/
def readFlag (flag : Char) : List Char → Bool × List Char
  | [] => (false, [])
  | c :: rest => if c = flag then (true, rest) else (false, c :: rest)

/-- The value of a run of digits that fits a machine word. -/
def wordOfDigits? (digits : List Char) : Option Nat :=
  let value := Numeral.natural digits
  if digits.isEmpty ∨ wordLimit ≤ value then none else some value

/-- The value of the run of digits at the front of a text, if there is one and it fits a word. The
run is taken in any case. -/
def readWord (cs : List Char) : Option Nat × List Char :=
  (wordOfDigits? (cs.takeWhile Char.isDigit), cs.dropWhile Char.isDigit)

def readSeparator : List Char → Option Char × List Char
  | ',' :: rest => (some ',', rest)
  | '_' :: rest => (some '_', rest)
  | rest => (none, rest)

/-- A precision behind a point, which must be there if the point is. -/
def readPrecision? : List Char → Option (Option Nat × List Char)
  | '.' :: cs =>
    let (precision, rest) := readWord cs
    precision.map fun p => (some p, rest)
  | rest => some (none, rest)

/-- The type at the end of a field; nothing may follow it. -/
def readStyle? : List Char → Option NumberStyle
  | [] => some (.general false)
  | [c] => NumberStyle.ofChar? c
  | _ => none

/-- In the general style at least one digit is shown. -/
def shownPrecision (style : NumberStyle) (precision : Option Nat) : Option Nat :=
  match style with
  | .general _ => precision.map (max 1)
  | _ => precision

/-- Reads what follows the colon of a field. -/
def ofComponents? (cs : List Char) : Option FieldSpec := do
  let (aligned, cs) := readAlignment cs
  let (sign, cs) := readSign cs
  let (noNegativeZero, cs) := readFlag 'z' cs
  let (alwaysPoint, cs) := readFlag '#' cs
  let (zeroFill, cs) := readFlag '0' cs
  let (width, cs) := readWord cs
  let (separator, cs) := readSeparator cs
  let (precision, cs) ← readPrecision? cs
  let style ← readStyle? cs
  if zeroFill ∧ aligned.isSome then none
  else
    let (fill, alignment) :=
      if zeroFill then ('0', Alignment.afterSign)
      else match aligned with
        | some (fill, alignment) => (fill.getD ' ', alignment)
        | none => (' ', .right)
    return {
      fill, alignment, sign, noNegativeZero, alwaysPoint, zeroFill
      width := width.getD 0
      separator
      precision := shownPrecision style precision
      style }

/-- Reads what stands between the braces of a field. -/
def ofList? : List Char → Option FieldSpec
  | [] => some plain
  | ':' :: cs => ofComponents? cs
  | _ => none

end FieldSpec

namespace DecimalFormat

/-- The text up to the first brace that opens a field, with doubled braces undone, and the rest from
that brace on. A closing brace that stands alone is refused. -/
def readText? : List Char → Option (List Char × List Char)
  | [] => some ([], [])
  | '{' :: '{' :: rest => (readText? rest).map fun (text, rest) => ('{' :: text, rest)
  | '}' :: '}' :: rest => (readText? rest).map fun (text, rest) => ('}' :: text, rest)
  | '{' :: rest => some ([], '{' :: rest)
  | '}' :: _ => none
  | c :: rest => (readText? rest).map fun (text, rest) => (c :: text, rest)

/-- Reads a format from its characters. -/
def ofList? (cs : List Char) : Option DecimalFormat := do
  match ← readText? cs with
  | (before, '{' :: rest) =>
    match rest.dropWhile (· ≠ '}') with
    | '}' :: behind =>
      let field ← FieldSpec.ofList? (rest.takeWhile (· ≠ '}'))
      match ← readText? behind with
      | (after, []) => return ⟨before, field, after⟩
      | _ => none
    | _ => none
  | _ => none

/-- Reads a format; none if it is not valid. -/
def parse? (format : String) : Option DecimalFormat :=
  ofList? format.toList

end DecimalFormat

end EntityJson
