import EntityJson.Proofs.Decimal.Filling
import EntityJson.Serializer.Error

/-!
# Writing decimals in checked words

Decimals are written with the arithmetic of 64-bit words, signed ones for exponents and places, unsigned
ones for lengths, widths and precisions. A number that is no word of its kind is taken for the word with
the same bits, if anything is made of it at all. Here every sum, every difference, every negation and
every change from one kind of words to the other is checked (`signed?`, `unsigned?`), and there is a third
outcome beside a text and an invalid format: none, if one of these numbers is no word
(`Decimal.formatInWords?`).

Digits are rescaled and rounded in checked words exactly if the numbers that it takes are words
(`Digits.rescaleInWords?_eq_some_iff`, `Digits.roundSignificantInWords?_eq_some_iff`). What is written in
checked words is what is written at all (`Decimal.render_of_renderInWords?`). On the way it shows of some
numbers that they are words. Those are the ones on which everything depends, since the others follow
them closely.
-/

namespace EntityJson

/-! ## Words -/

/-- Whether a number is a signed 64-bit word. -/
def IsSigned (n : Int) : Prop :=
  -wordLimit ≤ 2 * n ∧ 2 * n < wordLimit

/-- Whether a number is an unsigned 64-bit word. -/
def IsUnsigned (n : Int) : Prop :=
  0 ≤ n ∧ n < wordLimit

instance (n : Int) : Decidable (IsSigned n) := inferInstanceAs (Decidable (_ ∧ _))

instance (n : Int) : Decidable (IsUnsigned n) := inferInstanceAs (Decidable (_ ∧ _))

/-- A number as a signed word, if it is one. -/
def signed? (n : Int) : Option Int :=
  if IsSigned n then some n else none

/-- A number as an unsigned word, if it is one. -/
def unsigned? (n : Int) : Option Nat :=
  if IsUnsigned n then some n.toNat else none

theorem signed?_of_isSigned {n : Int} (h : IsSigned n) : signed? n = some n := if_pos h

/-- A checked number is the number itself, which is a word then. -/
theorem signed?_eq_some_iff {n m : Int} : signed? n = some m ↔ m = n ∧ IsSigned n := by
  unfold signed?
  rw [Option.ite_none_right_eq_some, Option.some.injEq, and_comm, eq_comm]

theorem unsigned?_eq_some_iff {n : Int} {m : Nat} : unsigned? n = some m ↔ n = m ∧ m < wordLimit := by
  unfold unsigned?
  rw [Option.ite_none_right_eq_some, Option.some.injEq]
  unfold IsUnsigned
  omega

/-- Taking a word for a word changes nothing. -/
theorem signedWord_of_isSigned {n : Int} (h : IsSigned n) : signedWord n = n :=
  signedWord_eq_self h.1 h.2

/-! ## Digits -/

namespace Digits

/-- The exponent of the first digit. -/
def leadingInWords? (x : Digits) : Option Int := do
  let length ← signed? x.length
  let toUnit ← signed? (x.exponent + length)
  signed? (toUnit - 1)

/-- The number of which so many digits are kept, up to an exponent. Less than none are kept where more
digits are dropped than there are, which leaves nothing. -/
def keepInWords? (x : Digits) (exponent kept : Int) : Option Digits :=
  if kept < 0 then some { x with coefficient := 0, exponent }
  else do
    let kept ← unsigned? kept
    let dropped := x.length - kept
    return { x with coefficient := divHalfEven x.coefficient (tenPow dropped), exponent }

/-- The number with another exponent of its last digit. -/
def rescaleInWords? (x : Digits) (exponent : Int) : Option Digits :=
  if x.isZero then some { x with exponent }
  else if exponent ≤ x.exponent then do
    let difference ← signed? (x.exponent - exponent)
    let zeros ← unsigned? difference
    return { x with coefficient := x.coefficient * tenPow zeros, exponent }
  else do
    let length ← signed? x.length
    let toUnit ← signed? (length + x.exponent)
    let kept ← signed? (toUnit - exponent)
    x.keepInWords? exponent kept

/-- The number rounded to so many digits, without a digit too many behind a carry. -/
def roundSignificantInWords? (x : Digits) (places : Nat) : Option Digits :=
  if x.isZero then some x
  else do
    let leading ← x.leadingInWords?
    let last ← lastPlace? leading
    let rounded ← x.rescaleInWords? last
    let carried ← rounded.leadingInWords?
    if carried ≠ leading then
      let last ← lastPlace? carried
      rounded.rescaleInWords? last
    else return rounded
where
  /-- The exponent of the last digit that is kept. -/
  lastPlace? (leading : Int) : Option Int := do
    let behind ← signed? (leading + 1)
    let places ← signed? places
    signed? (behind - places)

variable {x y : Digits} {e : Int} {places : Nat}

/-- The place of the first digit is found if it is a word, as well as the length and the place in
front of it. -/
theorem leadingInWords?_eq_some_iff {n : Int} : x.leadingInWords? = some n ↔
    n = x.leading ∧ IsSigned x.length ∧ IsSigned (x.exponent + x.length) ∧ IsSigned x.leading := by
  unfold leadingInWords?
  simp only [Option.bind_eq_bind, Option.bind_eq_some_iff, signed?_eq_some_iff]
  constructor
  · rintro ⟨_, ⟨rfl, length⟩, _, ⟨rfl, toUnit⟩, rfl, leading⟩
    exact ⟨rfl, length, toUnit, leading⟩
  · rintro ⟨rfl, length, toUnit, leading⟩
    exact ⟨_, ⟨rfl, length⟩, _, ⟨rfl, toUnit⟩, rfl, leading⟩

/-- A zero has no digits to round. -/
theorem roundSignificant_of_isZero (zero : x.isZero) (places : Int) :
    x.roundSignificant places = x :=
  if_pos zero

/-- Whether the numbers that it takes to rescale digits are words. -/
def RescaleFits (x : Digits) (e : Int) : Prop :=
  if e ≤ x.exponent then IsSigned (x.exponent - e)
  else IsSigned x.length ∧ IsSigned (x.length + x.exponent) ∧ IsSigned (x.length + x.exponent - e)

/-- For a zero no number is computed that could fail to be a word. -/
theorem rescaleInWords?_of_isZero (zero : x.isZero) (e : Int) :
    x.rescaleInWords? e = some (x.rescale e) := by
  unfold rescaleInWords? rescale
  rw [if_pos zero, if_pos zero]

/-- The digits that are kept are counted from the front, and those that are dropped from the end:
both counts cut at the same place. -/
theorem keepInWords?_eq (nonzero : ¬ x.isZero) (below : x.exponent < e)
    (kept : IsSigned (x.length + x.exponent - e)) :
    x.keepInWords? e (x.length + x.exponent - e) = some (x.rescale e) := by
  have limit : wordLimit = 18446744073709551616 := rfl
  have high := kept.2
  unfold keepInWords? rescale
  rw [if_neg nonzero, if_neg (Int.not_le.mpr below)]
  simp only
  by_cases none : x.length < (e - x.exponent).toNat
  · rw [if_pos none, if_pos (by omega)]
  · have word : unsigned? (x.length + x.exponent - e)
        = some (x.length + x.exponent - e).toNat :=
      unsigned?_eq_some_iff.mpr ⟨by omega, by omega⟩
    have dropped : x.length - (x.length + x.exponent - e).toNat = (e - x.exponent).toNat := by omega
    rw [if_neg none, if_neg (by omega), word, Option.bind_eq_bind, Option.bind_some, dropped]
    rfl

/-- A number other than zero is rescaled in words exactly if the numbers that it takes are words,
and then to what it is rescaled to. -/
theorem rescaleInWords?_eq_some_iff (nonzero : ¬ x.isZero) :
    x.rescaleInWords? e = some y ↔ y = x.rescale e ∧ x.RescaleFits e := by
  have limit : wordLimit = 18446744073709551616 := rfl
  unfold rescaleInWords? RescaleFits
  rw [if_neg nonzero]
  by_cases above : e ≤ x.exponent
  · have appended : x.rescale e
        = { x with coefficient := x.coefficient * tenPow (x.exponent - e).toNat, exponent := e } := by
      unfold rescale
      rw [if_neg nonzero, if_pos above]
    rw [if_pos above, if_pos above, appended]
    simp only [Option.bind_eq_bind, Option.bind_eq_some_iff, signed?_eq_some_iff,
      unsigned?_eq_some_iff, Option.pure_def, Option.some.injEq]
    constructor
    · rintro ⟨_, ⟨rfl, difference⟩, zeros, ⟨same, -⟩, rfl⟩
      rw [same, Int.toNat_natCast, ← same]
      exact ⟨rfl, difference⟩
    · rintro ⟨rfl, difference⟩
      have := difference.2
      exact ⟨_, ⟨rfl, difference⟩, (x.exponent - e).toNat, ⟨by omega, by omega⟩, rfl⟩
  · rw [if_neg above, if_neg above]
    simp only [Option.bind_eq_bind, Option.bind_eq_some_iff, signed?_eq_some_iff]
    constructor
    · rintro ⟨_, ⟨rfl, length⟩, _, ⟨rfl, toUnit⟩, _, ⟨rfl, kept⟩, keeps⟩
      rw [keepInWords?_eq nonzero (Int.not_le.mp above) kept] at keeps
      exact ⟨(Option.some.inj keeps).symm, length, toUnit, kept⟩
    · rintro ⟨rfl, length, toUnit, kept⟩
      exact ⟨_, ⟨rfl, length⟩, _, ⟨rfl, toUnit⟩, _, ⟨rfl, kept⟩,
        keepInWords?_eq nonzero (Int.not_le.mp above) kept⟩

/-- The place of the last digit that is kept is computed in three steps, each of which has to give a
word. -/
theorem lastPlace?_eq_some_iff {leading n : Int} :
    roundSignificantInWords?.lastPlace? places leading = some n ↔
      n = leading + 1 - places ∧ IsSigned (leading + 1) ∧ IsSigned places ∧
        IsSigned (leading + 1 - places) := by
  unfold roundSignificantInWords?.lastPlace?
  simp only [Option.bind_eq_bind, Option.bind_eq_some_iff, signed?_eq_some_iff]
  constructor
  · rintro ⟨_, ⟨rfl, behind⟩, _, ⟨rfl, places⟩, rfl, last⟩
    exact ⟨rfl, behind, places, last⟩
  · rintro ⟨rfl, behind, places, last⟩
    exact ⟨_, ⟨rfl, behind⟩, _, ⟨rfl, places⟩, rfl, last⟩

/-- If the numbers that it takes are words, digits can be rescaled. -/
theorem rescaleInWords?_of_fits (h : x.RescaleFits e) : x.rescaleInWords? e = some (x.rescale e) := by
  by_cases zero : x.isZero
  · exact rescaleInWords?_of_isZero zero e
  · exact (rescaleInWords?_eq_some_iff zero).mpr ⟨rfl, h⟩

/-- What is rescaled in words is what is rescaled. -/
theorem eq_of_rescaleInWords? (h : x.rescaleInWords? e = some y) : y = x.rescale e := by
  by_cases zero : x.isZero
  · rw [rescaleInWords?_of_isZero zero] at h
    exact (Option.some.inj h).symm
  · exact ((rescaleInWords?_eq_some_iff zero).mp h).1

/-- Whether the numbers that it takes to round to so many digits are words: the numbers of the digits
before and after, the exponent of the first digit and the one in front of it, the exponent of the last
digit that is kept, and the exponent in front of the digits that are left, a carry among them. -/
structure RoundFits (x : Digits) (places : Nat) : Prop where
  length : IsSigned x.length
  count : IsSigned places
  first : IsSigned x.leading
  behind : IsSigned (x.leading + 1)
  last : IsSigned (x.leading + 1 - places)
  carried : IsSigned ((x.rescale (x.leading + 1 - places)).leading + 1)

/-- Where the digits end that are kept, the numbers are words that it takes to rescale to it. -/
theorem rescaleFits_last (length : IsSigned x.length) (count : IsSigned places)
    (behind : IsSigned (x.leading + 1)) : x.RescaleFits (x.leading + 1 - places) := by
  have first := leading_eq x
  unfold RescaleFits
  unfold IsSigned at *
  split
  · omega
  · exact ⟨length, by omega, by omega⟩

/-- Rounded digits are no more than there were, or just as many as are asked for. -/
theorem isSigned_length_rescale_last (nonzero : ¬ x.isZero) (length : IsSigned x.length)
    (count : IsSigned places) : IsSigned (x.rescale (x.leading + 1 - places)).length := by
  have first := leading_eq x
  rcases le_or_gt (x.leading + 1 - places) x.exponent with above | below
  · have appended := length_rescale_of_le nonzero above
    have same : (x.rescale (x.leading + 1 - places)).length = places := by omega
    rwa [same]
  · have fewer := length_rescale_of_lt below
    unfold IsSigned at *
    omega

/-- If the numbers that it takes are words, digits can be rounded, and once more behind a carry. -/
theorem roundSignificantInWords?_of_fits (nonzero : ¬ x.isZero) (fits : x.RoundFits places) :
    x.roundSignificantInWords? places = some (x.roundSignificant places) := by
  obtain ⟨length, count, first, behind, last, carried⟩ := fits
  have fewer := isSigned_length_rescale_last nonzero length count
  have enough := le_length_rescale_last (isZero_iff.not.mp nonzero) places
  have exponent := exponent_rescale x (x.leading + 1 - places)
  have rescaled := rescaleInWords?_of_fits (rescaleFits_last length count behind)
  have found : x.leadingInWords? = some x.leading :=
    leadingInWords?_eq_some_iff.mpr ⟨rfl, length, leading_eq x ▸ behind, first⟩
  have place : roundSignificantInWords?.lastPlace? places x.leading
      = some (x.leading + 1 - places) :=
    lastPlace?_eq_some_iff.mpr ⟨rfl, behind, count, last⟩
  unfold roundSignificantInWords? roundSignificant
  rw [if_neg nonzero, if_neg nonzero]
  simp only [Option.bind_eq_bind, found, place, Option.bind_some]
  rw [rescaled, Option.bind_some]
  -- what is rounded has its last digit where it was asked for, and no fewer digits
  generalize x.rescale (x.leading + 1 - places) = rounded at *
  have next := leading_eq rounded
  have leading : IsSigned rounded.leading := by
    have := rounded.length_pos
    unfold IsSigned at *
    omega
  have foundAgain : rounded.leadingInWords? = some rounded.leading :=
    leadingInWords?_eq_some_iff.mpr ⟨rfl, fewer, next ▸ carried, leading⟩
  have placeAgain : roundSignificantInWords?.lastPlace? places rounded.leading
      = some (rounded.leading + 1 - places) := by
    refine lastPlace?_eq_some_iff.mpr ⟨rfl, carried, count, ?_⟩
    unfold IsSigned at *
    omega
  have again := rescaleInWords?_of_fits (rescaleFits_last fewer count carried)
  rw [foundAgain, Option.bind_some, placeAgain, Option.bind_some, again]
  by_cases same : rounded.leading = x.leading
  · rw [if_neg (not_not.mpr same), if_neg (not_not.mpr same)]
    rfl
  · rw [if_pos same, if_pos same]

/-- What is rounded in words is what is rounded, if the numbers that it takes are words. -/
theorem roundSignificantInWords?_eq_some_iff (nonzero : ¬ x.isZero) :
    x.roundSignificantInWords? places = some y ↔
      y = x.roundSignificant places ∧ x.RoundFits places := by
  constructor
  · intro h
    unfold roundSignificantInWords? at h
    unfold roundSignificant
    rw [if_neg nonzero] at h ⊢
    simp only [Option.bind_eq_bind, Option.bind_eq_some_iff, leadingInWords?_eq_some_iff,
      lastPlace?_eq_some_iff, rescaleInWords?_eq_some_iff nonzero] at h
    obtain ⟨_, ⟨rfl, length, -, first⟩, _, ⟨rfl, behind, count, last⟩, _, ⟨rfl, -⟩, _,
      ⟨rfl, -, toUnit, -⟩, h⟩ := h
    have next := leading_eq (x.rescale (x.leading + 1 - places))
    refine ⟨?_, length, count, first, behind, last, next ▸ toUnit⟩
    split at h
    next carried =>
      obtain ⟨_, found, rescaled⟩ := Option.bind_eq_some_iff.mp h
      obtain ⟨rfl, -⟩ := lastPlace?_eq_some_iff.mp found
      rw [if_pos carried]
      exact eq_of_rescaleInWords? rescaled
    next same =>
      rw [if_neg same]
      exact (Option.some.inj h).symm
  · rintro ⟨rfl, fits⟩
    exact roundSignificantInWords?_of_fits nonzero fits

/-- What is rounded in words is what is rounded, and the exponent of the last digit is a word, unless
the number is zero. -/
theorem eq_of_roundSignificantInWords? (h : x.roundSignificantInWords? places = some y) :
    y = x.roundSignificant places ∧
      (¬ x.isZero → IsSigned places ∧ IsSigned (x.leading + 1 - places)) := by
  by_cases zero : x.isZero
  · unfold roundSignificantInWords? at h
    rw [if_pos zero] at h
    rw [roundSignificant_of_isZero zero]
    exact ⟨(Option.some.inj h).symm, fun nonzero => absurd zero nonzero⟩
  · obtain ⟨same, fits⟩ := (roundSignificantInWords?_eq_some_iff zero).mp h
    exact ⟨same, fun _ => ⟨fits.count, fits.last⟩⟩

end Digits

/-! ## Fields -/

namespace Decimal

/-- Rounds digits to the precision of a field. -/
def roundedInWords? (field : FieldSpec) (x : Digits) : Option Digits :=
  match field.precision, field.style with
  | none, _ => some x
  | some p, .scientific _ => do
    let places ← unsigned? (p + 1)
    x.roundSignificantInWords? places
  | some p, .fixed => rescaleTo? p
  | some p, .percent => rescaleTo? p
  | some p, .general _ => if p < x.length then x.roundSignificantInWords? p else some x
where
  /-- Rounds to so many digits behind the point. -/
  rescaleTo? (p : Nat) : Option Digits := do
    let places ← signed? p
    let last ← signed? (-places)
    x.rescaleInWords? last

/-- The digits of a percentage are a hundredfold. -/
def inStyleInWords? (style : NumberStyle) (x : Digits) : Option Digits :=
  if style = .percent then do
    let exponent ← signed? (x.exponent + 2)
    return { x with exponent }
  else some x

/-- The digits that a field shows. -/
def shownDigitsInWords? (field : FieldSpec) (x : Digits) : Option Digits := do
  let x ← inStyleInWords? field.style x
  let x ← roundedInWords? field x
  if x.isZero ∧ 0 < x.exponent ∧ reachesUnit field.style then x.rescaleInWords? 0 else return x

/-- How many of the digits, of which `toUnit` reach down to the unit, stand in front of the point. -/
def digitsBeforePointInWords? (field : FieldSpec) (x : Digits) (toUnit : Int) : Option Int :=
  match field.style with
  | .scientific _ =>
    match field.precision with
    | some p =>
      if x.isZero then do
        let places ← signed? p
        signed? (1 - places)
      else some 1
    | none => some 1
  | .fixed => some toUnit
  | .percent => some toUnit
  | .general _ => some (if x.exponent ≤ 0 ∧ -6 < toUnit then toUnit else 1)

/-- The digits in front of the point and behind it. -/
def splitAtPointInWords? (digits : List Char) (before : Int) : Option (List Char × List Char) :=
  if before < 0 then do
    let behind ← signed? (-before)
    let zeros ← unsigned? behind
    return (['0'], List.replicate zeros '0' ++ digits)
  else do
    let before ← unsigned? before
    if digits.length < before then
      let zeros ← unsigned? (before - digits.length)
      return (digits ++ List.replicate zeros '0', [])
    else
      let whole := digits.take before
      return (if whole.isEmpty then ['0'] else whole, digits.drop before)

/-- Groups of three digits from the last one on, while the width is counted down. -/
def groupsBackwardInWords? (digits : List Char) (width : Int) : Option (List (List Char)) :=
  let size := min (max digits.length (max width 1).toNat) 3
  let group := digits.take size ++ List.replicate (size - digits.length) '0'
  if IsUnsigned (max width 1) ∧ IsSigned (width - size) then
    if _h : digits.length ≤ size ∧ width ≤ size then some [group]
    else if IsSigned (width - size - 1) then
      (groupsBackwardInWords? (digits.drop size) (width - size - 1)).map (group :: ·)
    else none
  else none
termination_by digits.length + width.toNat
decreasing_by
  rw [List.length_drop]
  omega

/-- Writes digits with a separator between groups of three, if there is one, and zeros in front up to
a width. Without a separator nothing but the zeros is counted, of which no more than the width are
needed. -/
def groupedInWords? (digits : List Char) (separator : Option Char) (width : Nat) :
    Option (List Char) :=
  match separator with
  | none => some (grouped digits none width)
  | some separator => do
    let width ← signed? width
    let groups ← groupsBackwardInWords? digits.reverse width
    return (List.intercalate [separator] groups).reverse

/-- The width that is left for the digits in front of the point, if zeros are to fill it. -/
def roomInWords? (field : FieldSpec) (sign tail : List Char) : Option Nat :=
  if field.zeroFill then do
    let others ← unsigned? ((tail.length + sign.length : Nat) : Int)
    return field.width - others
  else some 0

/-- Fills a text up to the width of the field. -/
def alignedInWords? (field : FieldSpec) (sign body : List Char) : Option (List Char) := do
  let _length ← unsigned? ((sign.length + body.length : Nat) : Int)
  return aligned field sign body

/-- Writes a decimal in a field. -/
def renderInWords? (field : FieldSpec) (value : Decimal) : Option (List Char) := do
  let x ← shownDigitsInWords? field (.ofDecimal value)
  let length ← signed? x.length
  let toUnit ← signed? (x.exponent + length)
  let before ← digitsBeforePointInWords? field x toUnit
  let (whole, fraction) ← splitAtPointInWords? (Nat.toDigits 10 x.coefficient) before
  let exponent ← signed? (toUnit - before)
  let sign := signText field x
  let tail := tailText field fraction exponent
  let width ← roomInWords? field sign tail
  let digits ← groupedInWords? whole field.separator width
  alignedInWords? field sign (digits ++ tail)

/-- Writes a decimal in a format, or says that the format is not valid; none if a number that it takes is
no word. -/
def formatInWords? (value : Decimal) (format : String) : Option (Except SerializeError String) :=
  match DecimalFormat.parse? format with
  | none => some (.error (.invalidFormat .decimal format))
  | some f => do
    let text ← renderInWords? f.field value
    return .ok (String.ofList (f.before ++ text ++ f.after))

/-! ## What is written -/

/-- Whether the numbers on which the digits of a field depend are words: the precision, the places that are
shown and the exponent of the last of them, and the number of the digits. -/
structure DigitsFit (field : FieldSpec) (value : Decimal) : Prop where
  precision : ∀ p : Nat, field.precision = some p → (∀ upper, field.style ≠ .general upper) → IsSigned p
  places : ∀ (p : Nat) upper, field.precision = some p → field.style = .scientific upper →
    value.coefficient ≠ 0 → IsSigned (p + 1) ∧ IsSigned ((Digits.ofDecimal value).leading - p)
  length : IsSigned (digitsIn field value).length

/-- Whether the numbers on which all others depend that it takes to write a decimal in a field are words:
those of its digits, the width that is left for digits in groups, and the length of the text that is
filled up. -/
structure FitsWords (field : FieldSpec) (value : Decimal) : Prop extends DigitsFit field value where
  room : field.separator.isSome → IsSigned (roomIn field value)
  text : (signIn field value).length + (bodyIn field value).length < wordLimit

variable {field : FieldSpec} {value : Decimal} {x y : Digits}

/-- A percentage is a hundredfold in words too. -/
theorem eq_of_inStyleInWords? {style : NumberStyle} (h : inStyleInWords? style x = some y) :
    y = x.inStyle style := by
  unfold inStyleInWords? at h
  unfold Digits.inStyle
  split at h
  next percent =>
    obtain ⟨_, found, same⟩ := Option.bind_eq_some_iff.mp h
    obtain ⟨rfl, -⟩ := signed?_eq_some_iff.mp found
    rw [if_pos percent]
    exact (Option.some.inj same).symm
  next other =>
    rw [if_neg other]
    exact (Option.some.inj h).symm

/-- Digits that are rounded behind the point. -/
theorem eq_of_rescaleTo? {p : Nat} (h : roundedInWords?.rescaleTo? x p = some y) :
    y = x.rescale (signedWord (-p)) ∧ IsSigned p := by
  unfold roundedInWords?.rescaleTo? at h
  simp only [Option.bind_eq_bind, Option.bind_eq_some_iff, signed?_eq_some_iff] at h
  obtain ⟨_, ⟨rfl, word⟩, _, ⟨rfl, last⟩, rescaled⟩ := h
  rw [signedWord_of_isSigned last]
  exact ⟨Digits.eq_of_rescaleInWords? rescaled, word⟩

/-- What is rounded in words to the precision of a field is what is rounded to it. A precision
behind the point is a word then, and so are, for scientific digits of a number other than zero,
their number and the place of the last one. -/
theorem eq_of_roundedInWords? (h : roundedInWords? field x = some y) :
    y = rounded field x ∧
      (∀ p : Nat, field.precision = some p → reachesUnit field.style → IsSigned p) ∧
      ∀ (p : Nat) upper, field.precision = some p → field.style = .scientific upper → ¬ x.isZero →
        IsSigned (p + 1) ∧ IsSigned (x.leading - p) := by
  unfold roundedInWords? at h
  unfold rounded
  cases precision : field.precision with
  | none =>
    rw [precision] at h
    exact ⟨(Option.some.inj h).symm, nofun, nofun⟩
  | some p =>
    cases style : field.style with
    | fixed | percent =>
      simp only [precision, style] at h
      obtain ⟨rfl, word⟩ := eq_of_rescaleTo? h
      refine ⟨rfl, ?_, nofun⟩
      rintro _ ⟨⟩ -
      exact word
    | scientific upper =>
      simp only [precision, style, Option.bind_eq_bind, Option.bind_eq_some_iff,
        unsigned?_eq_some_iff] at h
      obtain ⟨places, ⟨same, -⟩, roundsTo⟩ := h
      obtain ⟨rfl, words⟩ := Digits.eq_of_roundSignificantInWords? roundsTo
      have last : x.leading + 1 - ((p : Int) + 1) = x.leading - p := by omega
      rw [← same, last] at words
      refine ⟨?_, nofun, ?_⟩
      · show x.roundSignificant places = x.roundSignificant (signedWord (p + 1))
        by_cases zero : x.isZero
        · rw [Digits.roundSignificant_of_isZero zero, Digits.roundSignificant_of_isZero zero]
        · rw [signedWord_of_isSigned (words zero).1, same]
      · rintro _ _ ⟨⟩ ⟨⟩
        exact words
    | general upper =>
      simp only [precision, style] at h
      refine ⟨?_, nofun, nofun⟩
      simp only
      split at h
      next many =>
        rw [if_pos many]
        exact (Digits.eq_of_roundSignificantInWords? h).1
      next few =>
        rw [if_neg few]
        exact (Option.some.inj h).symm

/-- Rounding leaves a zero what it is. -/
theorem isZero_rounded (field : FieldSpec) (zero : x.isZero) : (rounded field x).isZero := by
  have significant : ∀ places, (x.roundSignificant places).isZero := fun places => by
    rwa [Digits.roundSignificant_of_isZero zero]
  unfold rounded
  split
  · exact zero
  · exact significant _
  · exact Digits.isZero_rescale zero _
  · exact Digits.isZero_rescale zero _
  · split
    · exact significant _
    · exact zero

/-- A zero is shown as one. -/
theorem isZero_digitsIn (field : FieldSpec) (zero : value.coefficient = 0) :
    (digitsIn field value).isZero := by
  have styled : ((Digits.ofDecimal value).inStyle field.style).isZero := by
    unfold Digits.inStyle
    split <;> exact Digits.isZero_iff.mpr zero
  rw [digitsIn_eq]
  split
  · exact Digits.isZero_rescale (isZero_rounded field styled) 0
  · exact isZero_rounded field styled

/-- Only a percentage changes the digits. -/
theorem inStyle_scientific (x : Digits) (upper : Bool) : x.inStyle (.scientific upper) = x :=
  if_neg nofun

/-- The digits shown in words are the digits shown. What has been found of the precision on the way
is kept for the numbers that are computed from it later. -/
theorem eq_of_shownDigitsInWords? (h : shownDigitsInWords? field (.ofDecimal value) = some y) :
    y = digitsIn field value ∧
      (∀ p : Nat, field.precision = some p → reachesUnit field.style → IsSigned p) ∧
      ∀ (p : Nat) upper, field.precision = some p → field.style = .scientific upper →
        value.coefficient ≠ 0 → IsSigned (p + 1) ∧ IsSigned ((Digits.ofDecimal value).leading - p) := by
  unfold shownDigitsInWords? at h
  obtain ⟨_, styled, h⟩ := Option.bind_eq_some_iff.mp h
  obtain rfl := eq_of_inStyleInWords? styled
  obtain ⟨_, roundedTo, h⟩ := Option.bind_eq_some_iff.mp h
  obtain ⟨rfl, unit, places⟩ := eq_of_roundedInWords? roundedTo
  refine ⟨?_, unit, ?_⟩
  · rw [digitsIn_eq]
    split at h
    next zero =>
      rw [if_pos zero]
      exact Digits.eq_of_rescaleInWords? h
    next other =>
      rw [if_neg other]
      exact (Option.some.inj h).symm
  · intro p upper precision style nonzero
    have words := places p upper precision style
    rw [style, inStyle_scientific] at words
    exact words (Digits.isZero_iff.not.mpr nonzero)

/-- The point stands in words where it stands. For a zero in scientific writing its place is
computed from the precision, which is a word then. -/
theorem eq_of_digitsBeforePointInWords? {n : Int}
    (h : digitsBeforePointInWords? field x (x.exponent + x.length) = some n) :
    n = digitsBeforePoint field x ∧ ∀ (p : Nat) upper, field.precision = some p →
      field.style = .scientific upper → x.isZero → IsSigned p := by
  unfold digitsBeforePointInWords? at h
  unfold digitsBeforePoint
  cases style : field.style with
  | fixed | percent =>
    rw [style] at h
    exact ⟨(Option.some.inj h).symm, nofun⟩
  | general upper =>
    rw [style] at h
    exact ⟨(Option.some.inj h).symm, nofun⟩
  | scientific upper =>
    cases precision : field.precision with
    | none =>
      simp only [style, precision] at h
      exact ⟨(Option.some.inj h).symm, nofun⟩
    | some p =>
      simp only [style, precision] at h
      by_cases zero : x.isZero
      · simp only [if_pos zero, Option.bind_eq_bind, Option.bind_eq_some_iff,
          signed?_eq_some_iff] at h
        obtain ⟨_, ⟨rfl, word⟩, rfl, before⟩ := h
        simp only [if_pos zero]
        refine ⟨(signedWord_of_isSigned before).symm, ?_⟩
        rintro _ _ ⟨⟩ - -
        exact word
      · rw [if_neg zero] at h
        simp only [if_neg zero]
        exact ⟨(Option.some.inj h).symm, fun _ _ _ _ isZero => absurd isZero zero⟩

/-- Digits are split at the point in words as they are split. -/
theorem eq_of_splitAtPointInWords? {digits : List Char} {before : Int}
    {parts : List Char × List Char} (h : splitAtPointInWords? digits before = some parts) :
    parts = splitAtPoint digits before := by
  unfold splitAtPointInWords? at h
  unfold splitAtPoint
  split at h
  next negative =>
    simp only [Option.bind_eq_bind, Option.bind_eq_some_iff, signed?_eq_some_iff,
      unsigned?_eq_some_iff] at h
    obtain ⟨_, ⟨rfl, -⟩, zeros, ⟨same, -⟩, h⟩ := h
    rw [if_pos negative, same]
    exact (Option.some.inj h).symm
  next nonneg =>
    obtain ⟨n, found, placed⟩ := Option.bind_eq_some_iff.mp h
    obtain ⟨rfl, -⟩ := unsigned?_eq_some_iff.mp found
    rw [if_neg nonneg, Int.toNat_natCast]
    simp only [Nat.cast_lt]
    split at placed
    next beyond =>
      obtain ⟨zeros, found, filled⟩ := Option.bind_eq_some_iff.mp placed
      obtain ⟨same, -⟩ := unsigned?_eq_some_iff.mp found
      have missing : n - digits.length = zeros := by omega
      rw [if_pos beyond, missing]
      exact (Option.some.inj filled).symm
    next within =>
      rw [if_neg within]
      exact (Option.some.inj placed).symm

/-- By the recursion of the groups, which ends as the unchecked one does whenever each step is
checked. -/
theorem eq_of_groupsBackwardInWords? {digits : List Char} {width : Int} :
    ∀ groups, groupsBackwardInWords? digits width = some groups →
      groups = groupsBackward digits width := by
  fun_induction groupsBackwardInWords? digits width with
  | case1 digits width size group fits done =>
    rintro _ ⟨⟩
    rw [groupsBackward, dif_pos done]
  | case2 digits width size group fits more next ih =>
    intro groups h
    obtain ⟨others, found, rfl⟩ := Option.map_eq_some_iff.mp h
    rw [groupsBackward, dif_neg more, ih others found]
  | case3 | case4 => nofun

/-- Digits are grouped in words as they are grouped. Only where there is a separator the width is
counted down, and it is a word then. -/
theorem eq_of_groupedInWords? {digits text : List Char} {separator : Option Char} {width : Nat}
    (h : groupedInWords? digits separator width = some text) :
    text = grouped digits separator width ∧ (separator.isSome → IsSigned width) := by
  unfold groupedInWords? at h
  cases separator with
  | none => exact ⟨(Option.some.inj h).symm, nofun⟩
  | some s =>
    obtain ⟨_, found, h⟩ := Option.bind_eq_some_iff.mp h
    obtain ⟨rfl, word⟩ := signed?_eq_some_iff.mp found
    obtain ⟨groups, found, h⟩ := Option.bind_eq_some_iff.mp h
    obtain rfl := eq_of_groupsBackwardInWords? groups found
    refine ⟨?_, fun _ => word⟩
    unfold grouped
    rw [signedWord_of_isSigned word]
    exact (Option.some.inj h).symm

/-- The room that is left for the digits is the width without the other characters. -/
theorem eq_of_roomInWords? {sign tail : List Char} {width : Nat}
    (h : roomInWords? field sign tail = some width) :
    width = if field.zeroFill then field.width - (tail.length + sign.length) else 0 := by
  unfold roomInWords? at h
  split at h
  next zeros =>
    obtain ⟨n, found, h⟩ := Option.bind_eq_some_iff.mp h
    obtain ⟨same, -⟩ := unsigned?_eq_some_iff.mp found
    rw [if_pos zeros, Int.ofNat.inj same]
    exact (Option.some.inj h).symm
  next other =>
    rw [if_neg other]
    exact (Option.some.inj h).symm

/-- A text is filled up in words if its length is a word. -/
theorem alignedInWords?_eq_some_iff {sign body text : List Char} :
    alignedInWords? field sign body = some text ↔
      text = aligned field sign body ∧ sign.length + body.length < wordLimit := by
  unfold alignedInWords?
  simp only [Option.bind_eq_bind, Option.bind_eq_some_iff, unsigned?_eq_some_iff, Option.pure_def,
    Option.some.injEq, Nat.cast_inj]
  constructor
  · rintro ⟨_, ⟨rfl, fits⟩, rfl⟩
    exact ⟨rfl, fits⟩
  · rintro ⟨rfl, fits⟩
    exact ⟨_, ⟨rfl, fits⟩, rfl⟩

/-- What is written in words is what is written, and the numbers on which the others depend are words. -/
theorem render_of_renderInWords? {text : List Char} (h : renderInWords? field value = some text) :
    text = render field value ∧ FitsWords field value := by
  unfold renderInWords? at h
  obtain ⟨_, shown, h⟩ := Option.bind_eq_some_iff.mp h
  obtain ⟨rfl, unit, places⟩ := eq_of_shownDigitsInWords? shown
  obtain ⟨_, found, h⟩ := Option.bind_eq_some_iff.mp h
  obtain ⟨rfl, length⟩ := signed?_eq_some_iff.mp found
  obtain ⟨_, found, h⟩ := Option.bind_eq_some_iff.mp h
  obtain ⟨rfl, -⟩ := signed?_eq_some_iff.mp found
  obtain ⟨_, found, h⟩ := Option.bind_eq_some_iff.mp h
  obtain ⟨rfl, zero⟩ := eq_of_digitsBeforePointInWords? found
  obtain ⟨parts, found, h⟩ := Option.bind_eq_some_iff.mp h
  obtain rfl : parts = partsIn field value := eq_of_splitAtPointInWords? found
  obtain ⟨_, found, h⟩ := Option.bind_eq_some_iff.mp h
  obtain ⟨rfl, -⟩ := signed?_eq_some_iff.mp found
  obtain ⟨_, found, h⟩ := Option.bind_eq_some_iff.mp h
  obtain rfl := eq_of_roomInWords? found
  obtain ⟨digits, found, h⟩ := Option.bind_eq_some_iff.mp h
  obtain ⟨rfl, room⟩ := eq_of_groupedInWords? found
  obtain ⟨rfl, text⟩ := alignedInWords?_eq_some_iff.mp h
  refine ⟨rfl, ⟨?_, places, length⟩, room, text⟩
  intro p precision notGeneral
  cases style : field.style with
  | fixed | percent => exact unit p precision (style ▸ rfl)
  | general upper => exact absurd style (notGeneral upper)
  | scientific upper =>
    by_cases nonzero : value.coefficient = 0
    · exact zero p upper precision style (isZero_digitsIn field nonzero)
    · obtain ⟨next, -⟩ := places p upper precision style nonzero
      unfold IsSigned at next ⊢
      omega

end Decimal

end EntityJson
