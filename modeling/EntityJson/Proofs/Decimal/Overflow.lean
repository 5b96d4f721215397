import EntityJson.Proofs.Decimal.Words

/-!
# Which decimals are written in words

Words suffice to write a decimal in a field exactly if the few numbers on which all others depend are
words (`Decimal.renderInWords?_eq_some_iff`). That is so for every decimal if the precision and the width
are less than a quarter of the range of words (`Decimal.fitsWords_of_lt`), but a format may ask for more:
the greatest precision that is accepted is no signed word
(`Decimal.formatInWords?_eq_none_of_greatest_precision`).

A decimal has few digits, and they are close to the unit (`Digits.Within`). Rounding keeps that up, but
where zeros are appended: then the exponent of the last digit is what the precision makes it, and the
place of the first digit stays where it was (`Decimal.Spans`). So what is computed from exponents and
lengths is small, or differs little from the precision. In groups the width shrinks by four for each three
digits, and it is not negative once the digits are used up (`Decimal.groupsBackwardInWords?_eq`).
-/

namespace EntityJson

/-- Numbers far within the range of words are signed words. -/
theorem isSigned_of_le {n : ℤ} (low : -1000000 ≤ n) (high : n ≤ 1000000) : IsSigned n := by
  have limit : wordLimit = 18446744073709551616 := rfl
  unfold IsSigned
  omega

namespace Digits

variable {x : Digits} {e : ℤ} {b c places : ℕ}

/-- Digits of which there are few, close to the unit. The bounds in what follows are not sharp: they only
have to be far from those of words. -/
structure Within (b : ℕ) (x : Digits) : Prop where
  low : -b ≤ x.exponent
  high : x.exponent ≤ b
  length : x.length ≤ b

theorem Within.mono (h : x.Within b) (le : b ≤ c) : x.Within c := by
  obtain ⟨low, high, length⟩ := h
  exact ⟨by omega, by omega, by omega⟩

/-- Rescaling to an exponent that is close to the unit leaves digits that are. -/
theorem Within.rescale (h : x.Within b) (low : -c ≤ e) (high : e ≤ c) :
    (x.rescale e).Within (2 * b + c) := by
  obtain ⟨_, _, length⟩ := h
  have exponent := exponent_rescale x e
  refine ⟨by omega, by omega, ?_⟩
  by_cases zero : x.isZero
  · have one := length_of_isZero (isZero_rescale zero e)
    have := x.length_pos
    omega
  · rcases le_or_gt e x.exponent with above | below
    · have := length_rescale_of_le zero above
      omega
    · have := length_rescale_of_lt below
      omega

/-- So it never overflows. -/
theorem Within.rescaleInWords? (h : x.Within b) (low : -c ≤ e) (high : e ≤ c)
    (few : 2 * b + c ≤ 1000000) : x.rescaleInWords? e = some (x.rescale e) := by
  obtain ⟨_, _, length⟩ := h
  refine rescaleInWords?_of_fits ?_
  unfold RescaleFits
  split
  · exact isSigned_of_le (by omega) (by omega)
  · exact ⟨isSigned_of_le (by omega) (by omega), isSigned_of_le (by omega) (by omega),
      isSigned_of_le (by omega) (by omega)⟩

theorem Within.leadingInWords? (h : x.Within b) (few : 2 * b ≤ 999999) :
    x.leadingInWords? = some x.leading := by
  obtain ⟨_, _, length⟩ := h
  have leading := leading_eq x
  exact leadingInWords?_eq_some_iff.mpr ⟨rfl, isSigned_of_le (by omega) (by omega),
    isSigned_of_le (by omega) (by omega), isSigned_of_le (by omega) (by omega)⟩

/-- No digit is dropped of a number with so many digits at most. -/
theorem roundSignificant_of_le (nonzero : ¬ x.isZero) (enough : x.length ≤ places) :
    x.roundSignificant places = x.rescale (x.leading + 1 - places) ∧
      (x.rescale (x.leading + 1 - places)).length = places ∧
      (x.rescale (x.leading + 1 - places)).leading = x.leading := by
  have first := leading_eq x
  have exponent := exponent_rescale x (x.leading + 1 - places)
  have length := length_rescale_of_le (e := x.leading + 1 - places) nonzero (by omega)
  have leading := leading_eq (x.rescale (x.leading + 1 - places))
  have same : (x.rescale (x.leading + 1 - places)).leading = x.leading := by omega
  refine ⟨?_, by omega, same⟩
  unfold roundSignificant
  simp only
  rw [if_neg nonzero, if_neg (not_not.mpr same)]

/-- Where digits are dropped, all numbers are small. -/
theorem Within.rescale_of_dropped (h : x.Within 64) (dropped : places < x.length) :
    (x.rescale (x.leading + 1 - places)).Within 320 ∧
      -1000 ≤ (x.rescale (x.leading + 1 - places)).leading + 1 - places ∧
      (x.rescale (x.leading + 1 - places)).leading + 1 - places ≤ 1000 := by
  have first := leading_eq x
  have ⟨low, high, few⟩ := h
  have within := h.rescale (c := 192) (e := x.leading + 1 - places) (by omega) (by omega)
  have leading := leading_eq (x.rescale (x.leading + 1 - places))
  have := within.length
  have := within.low
  have := within.high
  exact ⟨within, by omega, by omega⟩

/-- Rounded to so many digits a number is close to the unit, or has zeros appended, and then its
digits are as many as are asked for. -/
theorem roundSignificant_cases (h : x.Within 64) (nonzero : ¬ x.isZero) (places : ℕ) :
    (x.roundSignificant places).Within 2000 ∨
      (x.roundSignificant places).exponent = x.leading + 1 - places ∧
        (x.roundSignificant places).length = places := by
  rcases le_or_gt x.length places with enough | dropped
  · obtain ⟨rounded, length, -⟩ := roundSignificant_of_le nonzero enough
    rw [rounded]
    exact .inr ⟨exponent_rescale x _, length⟩
  · obtain ⟨within, low, high⟩ := h.rescale_of_dropped dropped
    have twice := within.rescale (c := 1000) low high
    unfold roundSignificant
    simp only
    rw [if_neg nonzero]
    split
    · exact .inl (twice.mono (by decide))
    · exact .inl (within.mono (by decide))

theorem Within.roundSignificant_of_few (h : x.Within 64) (few : places ≤ 64) :
    (x.roundSignificant places).Within 2000 := by
  by_cases zero : x.isZero
  · rw [roundSignificant_of_isZero zero]
    exact h.mono (by decide)
  · rcases roundSignificant_cases h zero places with within | ⟨exponent, length⟩
    · exact within
    · have first := leading_eq x
      have ⟨low, high, count⟩ := h
      exact ⟨by omega, by omega, by omega⟩

/-- Rounding to so many digits takes only words if their number and the exponent of the last one are
words. -/
theorem Within.roundSignificantInWords? (h : x.Within 64)
    (fits : ¬ x.isZero → IsSigned places ∧ IsSigned (x.leading + 1 - places)) :
    x.roundSignificantInWords? places = some (x.roundSignificant places) := by
  by_cases zero : x.isZero
  · unfold Digits.roundSignificantInWords? roundSignificant
    rw [if_pos zero, if_pos zero]
  · obtain ⟨count, last⟩ := fits zero
    have first := leading_eq x
    have ⟨low, high, few⟩ := h
    have carried : IsSigned ((x.rescale (x.leading + 1 - places)).leading + 1) := by
      rcases le_or_gt x.length places with enough | dropped
      · obtain ⟨-, -, same⟩ := roundSignificant_of_le zero enough
        rw [same]
        exact isSigned_of_le (by omega) (by omega)
      · obtain ⟨-, lowest, highest⟩ := h.rescale_of_dropped dropped
        exact isSigned_of_le (by omega) (by omega)
    exact roundSignificantInWords?_of_fits zero ⟨isSigned_of_le (by omega) (by omega), count,
      isSigned_of_le (by omega) (by omega), isSigned_of_le (by omega) (by omega), last, carried⟩

end Digits

namespace Decimal

open Digits

variable {field : FieldSpec} {value : Decimal}

/-- A decimal has few digits, and they are close to the unit. -/
theorem within_inStyle (field : FieldSpec) (value : Decimal) :
    ((Digits.ofDecimal value).inStyle field.style).Within 64 := by
  have scale := value.scale_le
  have bits : twoPow 96 < tenPow 29 := by decide
  have length : digitCount value.coefficient ≤ 29 :=
    (digitCount_le_iff (by decide)).mpr (value.coefficient_lt.trans bits)
  have exponent : (Digits.ofDecimal value).exponent = -value.scale := rfl
  have count : (Digits.ofDecimal value).length = digitCount value.coefficient := rfl
  unfold Digits.inStyle
  split
  · refine ⟨?_, ?_, length.trans (by decide)⟩
    · show -(64 : ℤ) ≤ -value.scale + 2
      omega
    · show -(value.scale : ℤ) + 2 ≤ (64 : ℤ)
      omega
  · exact ⟨by omega, by omega, by omega⟩

theorem within_ofDecimal (value : Decimal) : (Digits.ofDecimal value).Within 64 :=
  within_inStyle .plain value

/-! ### The digits shown -/

/-- A percentage never overflows. -/
theorem inStyleInWords?_eq (field : FieldSpec) (value : Decimal) :
    inStyleInWords? field.style (.ofDecimal value)
      = some ((Digits.ofDecimal value).inStyle field.style) := by
  have ⟨low, high, _⟩ := within_ofDecimal value
  unfold inStyleInWords? Digits.inStyle
  split
  · rw [signed?_of_isSigned (isSigned_of_le (by omega) (by omega))]
    rfl
  · rfl

/-- Digits are rounded behind the point in words if the result has a number of digits that is one. -/
theorem rescaleTo?_eq {x : Digits} (h : x.Within 64) {p : ℕ} (word : IsSigned p)
    (length : IsSigned (x.rescale (-p)).length) :
    roundedInWords?.rescaleTo? x p = some (x.rescale (-p)) := by
  have ⟨low, high, few⟩ := h
  have negated : IsSigned (-p) := by
    unfold IsSigned at *
    omega
  have rescaled : x.rescaleInWords? (-p) = some (x.rescale (-p)) := by
    by_cases zero : x.isZero
    · exact rescaleInWords?_of_isZero zero _
    · refine (rescaleInWords?_eq_some_iff zero).mpr ⟨rfl, ?_⟩
      unfold RescaleFits
      split
      next above =>
        rw [length_rescale_of_le zero above] at length
        unfold IsSigned at length ⊢
        omega
      next below =>
        exact ⟨isSigned_of_le (by omega) (by omega), isSigned_of_le (by omega) (by omega),
          isSigned_of_le (by omega) (by omega)⟩
  unfold roundedInWords?.rescaleTo?
  rw [signed?_of_isSigned word, Option.bind_eq_bind, Option.bind_some, signed?_of_isSigned negated]
  exact rescaled

/-- With a precision, fixed and percentage digits end at that place behind the point. -/
theorem DigitsFit.digitsIn_of_reachesUnit (fits : DigitsFit field value) {p : ℕ}
    (reaches : reachesUnit field.style) (precision : field.precision = some p) :
    IsSigned p ∧ digitsIn field value = ((Digits.ofDecimal value).inStyle field.style).rescale (-p) := by
  have word : IsSigned p := fits.precision p precision fun upper style => by
    rw [style] at reaches
    cases reaches
  have negated : signedWord (-p) = -p := signedWord_of_isSigned (by unfold IsSigned at *; omega)
  exact ⟨word, digitsIn_of_word reaches precision negated⟩

/-- With a precision, scientific digits are one more than that. -/
theorem DigitsFit.digitsIn_of_scientific (fits : DigitsFit field value) {p : ℕ} {upper : Bool}
    (style : field.style = .scientific upper) (precision : field.precision = some p) :
    digitsIn field value = (Digits.ofDecimal value).roundSignificant (p + 1 : ℕ) := by
  have digits : digitsIn field value = _ := digitsIn_of_style_scientific style precision
  by_cases zero : value.coefficient = 0
  · have isZero : (Digits.ofDecimal value).isZero := isZero_iff.mpr zero
    rw [digits, roundSignificant_of_isZero isZero, roundSignificant_of_isZero isZero]
  · rw [digits, signedWord_of_isSigned (fits.places p upper precision style zero).1]
    rfl

/-- Rounding to the precision of a field takes words alone if the precision and what is computed
from it are words. -/
theorem roundedInWords?_eq (fits : DigitsFit field value) :
    roundedInWords? field ((Digits.ofDecimal value).inStyle field.style)
      = some (rounded field ((Digits.ofDecimal value).inStyle field.style)) := by
  have limit : wordLimit = 18446744073709551616 := rfl
  have within := within_inStyle field value
  cases precision : field.precision with
  | none =>
    unfold roundedInWords? rounded
    rw [precision]
  | some p =>
    cases style : field.style with
    | fixed | percent =>
      obtain ⟨word, digits⟩ := fits.digitsIn_of_reachesUnit (style ▸ rfl) precision
      have length := fits.length
      have negated : IsSigned (-p) := by
        unfold IsSigned at *
        omega
      rw [digits] at length
      rw [style] at within length
      unfold roundedInWords? rounded
      simp only [precision, style, signedWord_of_isSigned negated]
      exact rescaleTo?_eq within word length
    | scientific upper =>
      have word := fits.precision p precision (by rw [style]; nofun)
      have places : unsigned? ((p : ℤ) + 1) = some (p + 1) := by
        refine unsigned?_eq_some_iff.mpr ⟨rfl, ?_⟩
        unfold IsSigned at word
        omega
      have words : ¬ (Digits.ofDecimal value).isZero →
          IsSigned (p + 1 : ℕ) ∧ IsSigned ((Digits.ofDecimal value).leading + 1 - (p + 1 : ℕ)) := by
        intro nonzero
        obtain ⟨next, last⟩ := fits.places p upper precision style (isZero_iff.not.mp nonzero)
        have same : (Digits.ofDecimal value).leading + 1 - (p + 1 : ℕ)
            = (Digits.ofDecimal value).leading - p := by omega
        rw [same]
        exact ⟨next, last⟩
      have digits := fits.digitsIn_of_scientific style precision
      rw [digitsIn_of_style_scientific style precision] at digits
      unfold roundedInWords? rounded
      simp only [precision, style, places, inStyle_scientific, digits, Option.bind_eq_bind,
        Option.bind_some]
      exact (within_ofDecimal value).roundSignificantInWords? words
    | general upper =>
      have ⟨low, high, few⟩ := within
      have first := leading_eq ((Digits.ofDecimal value).inStyle field.style)
      rw [style] at within few low high first
      unfold roundedInWords? rounded
      simp only [precision, style]
      split
      · exact within.roundSignificantInWords? fun _ =>
          ⟨isSigned_of_le (by omega) (by omega), isSigned_of_le (by omega) (by omega)⟩
      · rfl

/-- So do the digits shown. -/
theorem shownDigitsInWords?_eq (fits : DigitsFit field value) :
    shownDigitsInWords? field (.ofDecimal value) = some (digitsIn field value) := by
  unfold shownDigitsInWords?
  rw [inStyleInWords?_eq, Option.bind_eq_bind, Option.bind_some, roundedInWords?_eq fits,
    Option.bind_some, digitsIn_eq]
  split
  next zero => exact rescaleInWords?_of_isZero zero.1 0
  · rfl

/-- The place of the first digit is close to the unit or far below it, but a word in any case. -/
structure Spans (x : Digits) : Prop where
  low : 4 - wordLimit ≤ 2 * (x.exponent + x.length)
  high : x.exponent + x.length ≤ 4000

theorem spans_of_within {x : Digits} {b : ℕ} (h : x.Within b) (few : b ≤ 2000) : Spans x := by
  have limit : wordLimit = 18446744073709551616 := rfl
  obtain ⟨_, _, length⟩ := h
  exact ⟨by omega, by omega⟩

/-- Without a precision, and in general writing, all digits are close to the unit. -/
theorem within_digitsIn (value : Decimal)
    (free : field.precision = none ∨ ∃ upper, field.style = .general upper) :
    (digitsIn field value).Within 2000 := by
  cases precision : field.precision with
  | none =>
    have within := within_inStyle field value
    have unrounded : rounded field ((Digits.ofDecimal value).inStyle field.style)
        = (Digits.ofDecimal value).inStyle field.style := by
      unfold rounded
      rw [precision]
    rw [digitsIn_eq, unrounded]
    split
    · exact (within.rescale (c := 0) le_rfl le_rfl).mono (by decide)
    · exact within.mono (by decide)
  | some p =>
    obtain ⟨upper, style⟩ := free.resolve_left (by rw [precision]; nofun)
    have within := within_ofDecimal value
    rw [digitsIn_of_general style precision]
    split
    next many => exact within.roundSignificant_of_few (many.le.trans within.length)
    · exact within.mono (by decide)

/-- Without a precision, and in general writing, the point stands behind the unit or the first digit. -/
theorem digitsBeforePoint_cases (x : Digits)
    (free : field.precision = none ∨ ∃ upper, field.style = .general upper) :
    digitsBeforePoint field x = x.exponent + x.length ∨ digitsBeforePoint field x = 1 := by
  unfold digitsBeforePoint
  cases style : field.style with
  | fixed | percent => exact .inl rfl
  | general upper =>
    simp only
    split
    · exact .inl rfl
    · exact .inr rfl
  | scientific upper =>
    have none : field.precision = none := free.resolve_right fun ⟨_, general⟩ => by
      rw [style] at general
      cases general
    rw [none]
    exact .inr rfl

/-- In fixed and scientific writing the first digit stays where it was, or is put there by the
precision. -/
theorem DigitsFit.spans (fits : DigitsFit field value) : Spans (digitsIn field value) := by
  have limit : wordLimit = 18446744073709551616 := rfl
  cases precision : field.precision with
  | none => exact spans_of_within (within_digitsIn value (.inl precision)) le_rfl
  | some p =>
    cases style : field.style with
    | fixed | percent =>
      obtain ⟨word, digits⟩ := fits.digitsIn_of_reachesUnit (style ▸ rfl) precision
      have within := within_inStyle field value
      rw [digits]
      generalize (Digits.ofDecimal value).inStyle field.style = x at within
      have ⟨low, high, few⟩ := within
      have exponent := exponent_rescale x (-p)
      have pos := (x.rescale (-p)).length_pos
      unfold IsSigned at word
      by_cases zero : x.isZero
      · have one := length_of_isZero (isZero_rescale zero (-p))
        exact ⟨by omega, by omega⟩
      · rcases le_or_gt (-p : ℤ) x.exponent with above | below
        · have length := length_rescale_of_le zero above
          exact ⟨by omega, by omega⟩
        · have length := length_rescale_of_lt below
          exact ⟨by omega, by omega⟩
    | scientific upper =>
      have within := within_ofDecimal value
      rw [fits.digitsIn_of_scientific style precision]
      by_cases zero : (Digits.ofDecimal value).isZero
      · rw [roundSignificant_of_isZero zero]
        exact spans_of_within within (by decide)
      · have first := leading_eq (Digits.ofDecimal value)
        have ⟨low, high, few⟩ := within
        rcases roundSignificant_cases within zero (p + 1) with close | ⟨exponent, length⟩
        · exact spans_of_within close le_rfl
        · exact ⟨by omega, by omega⟩
    | general upper => exact spans_of_within (within_digitsIn value (.inr ⟨upper, style⟩)) le_rfl

/-! ### The point -/

/-- The place of the point is a word like its negation, and so is the exponent that is written. -/
structure PointFits (x : Digits) (before : ℤ) : Prop where
  low : 4 - wordLimit ≤ 2 * before
  high : before ≤ 4000
  exponent : IsSigned (x.exponent + x.length - before)

section Point

variable {x : Digits} (spans : Spans x)

include spans

/-- A point behind the unit, or behind the first digit, leaves an exponent that is a word. -/
theorem pointFits_toUnit : PointFits x (x.exponent + x.length) := by
  refine ⟨spans.low, spans.high, ?_⟩
  rw [Int.sub_self]
  exact isSigned_of_le (by decide) (by decide)

theorem pointFits_one : PointFits x 1 := by
  have limit : wordLimit = 18446744073709551616 := rfl
  obtain ⟨low, high⟩ := spans
  refine ⟨by omega, by decide, ?_⟩
  unfold IsSigned
  omega

end Point

/-- A zero in scientific writing has its point where the precision puts it. -/
theorem pointFits_zero (zero : value.coefficient = 0) {p : ℕ} (word : IsSigned p) :
    PointFits (.ofDecimal value) (1 - p) := by
  have limit : wordLimit = 18446744073709551616 := rfl
  have scale := value.scale_le
  have one := length_of_isZero (x := .ofDecimal value) (isZero_iff.mpr zero)
  have exponent : (Digits.ofDecimal value).exponent = -value.scale := rfl
  unfold IsSigned at word
  refine ⟨by omega, by omega, ?_⟩
  unfold IsSigned
  omega

/-- In scientific writing a zero is shown as it is, and nothing else as a zero. -/
theorem DigitsFit.digitsIn_of_isZero (fits : DigitsFit field value) {p : ℕ} {upper : Bool}
    (style : field.style = .scientific upper) (precision : field.precision = some p)
    (zero : (digitsIn field value).isZero) :
    value.coefficient = 0 ∧ digitsIn field value = .ofDecimal value := by
  have digits := fits.digitsIn_of_scientific style precision
  have none : value.coefficient = 0 := by
    by_contra nonzero
    obtain ⟨-, shown, -⟩ := roundSignificant_spec (x := .ofDecimal value) nonzero p.succ_pos
    rw [← digits] at shown
    exact shown (isZero_iff.mp zero)
  have isZero : (Digits.ofDecimal value).isZero := isZero_iff.mpr none
  exact ⟨none, digits.trans (roundSignificant_of_isZero isZero _)⟩

/-- Where the point stands is computed in words, and splits the digits in words. -/
theorem DigitsFit.pointFits (fits : DigitsFit field value) :
    digitsBeforePointInWords? field (digitsIn field value)
        ((digitsIn field value).exponent + (digitsIn field value).length)
      = some (digitsBeforePoint field (digitsIn field value)) ∧
    PointFits (digitsIn field value) (digitsBeforePoint field (digitsIn field value)) := by
  have spans := fits.spans
  have one := pointFits_one spans
  unfold digitsBeforePointInWords? digitsBeforePoint
  cases style : field.style with
  | fixed | percent => exact ⟨rfl, pointFits_toUnit spans⟩
  | general upper =>
    refine ⟨rfl, ?_⟩
    simp only
    split
    · exact pointFits_toUnit spans
    · exact one
  | scientific upper =>
    cases precision : field.precision with
    | none => exact ⟨rfl, one⟩
    | some p =>
      simp only
      split
      next zero =>
        have word := fits.precision p precision (by rw [style]; nofun)
        have before : IsSigned (1 - p) := by
          have limit : wordLimit = 18446744073709551616 := rfl
          unfold IsSigned at *
          omega
        obtain ⟨none, same⟩ := fits.digitsIn_of_isZero style precision zero
        rw [signed?_of_isSigned word, Option.bind_eq_bind, Option.bind_some,
          signed?_of_isSigned before, signedWord_of_isSigned before, same]
        exact ⟨rfl, pointFits_zero none word⟩
      · exact ⟨rfl, one⟩

/-- The zeros between point and digits are as many as a word says. -/
theorem splitAtPointInWords?_eq {x : Digits} {digits : List Char} {before : ℤ}
    (fits : PointFits x before) :
    splitAtPointInWords? digits before = some (splitAtPoint digits before) := by
  have limit : wordLimit = 18446744073709551616 := rfl
  obtain ⟨low, high, -⟩ := fits
  unfold splitAtPointInWords? splitAtPoint
  split
  next negative =>
    have negated : signed? (-before) = some (-before) :=
      signed?_of_isSigned (by unfold IsSigned; omega)
    have zeros : unsigned? (-before) = some (-before).toNat :=
      unsigned?_eq_some_iff.mpr ⟨by omega, by omega⟩
    simp only [negated, zeros, Option.bind_eq_bind, Option.bind_some]
    rfl
  next nonneg =>
    have place : unsigned? before = some before.toNat :=
      unsigned?_eq_some_iff.mpr ⟨by omega, by omega⟩
    rw [place, Option.bind_eq_bind, Option.bind_some]
    split
    next beyond =>
      have zeros : unsigned? (before.toNat - digits.length) = some (before.toNat - digits.length) :=
        unsigned?_eq_some_iff.mpr ⟨by omega, by omega⟩
      rw [if_pos (by omega), zeros]
      rfl
    next within =>
      rw [if_neg (by omega)]
      rfl

/-- In front of the point there are few digits. -/
theorem length_whole_le {digits : List Char} {before : ℤ}
    (high : before ≤ 4000) : (splitAtPoint digits before).1.length ≤ 4000 := by
  rcases Int.lt_or_le 0 before with inside | outside
  · rcases Int.lt_or_le digits.length before with beyond | within
    · rw [splitAtPoint_of_length_lt beyond, List.length_append, List.length_replicate]
      omega
    · rw [splitAtPoint_of_pos_of_le inside within, List.length_take]
      omega
  · rw [splitAtPoint_of_nonpos outside]
    show ['0'].length ≤ 4000
    decide

/-! ### Groups -/

/-- Groups take only words: of the width no more than four is taken for three digits, and once the digits
are used up it is not negative. -/
theorem groupsBackwardInWords?_eq {digits : List Char} {width : ℤ} (word : IsSigned width)
    (room : 4 * digits.length + 8 ≤ wordLimit + 2 * width) :
    groupsBackwardInWords? digits width = some (groupsBackward digits width) := by
  have limit : wordLimit = 18446744073709551616 := rfl
  fun_induction groupsBackward digits width with
  | case1 digits width size group done =>
    have short : size ≤ 3 := Nat.min_le_right _ _
    have fits : IsUnsigned (max width 1) ∧ IsSigned (width - size) := by
      unfold IsUnsigned IsSigned at *
      omega
    rw [groupsBackwardInWords?, if_pos fits, dif_pos done]
  | case2 digits width size group more ih =>
    obtain ⟨three, next⟩ : size = 3 ∧ (0 < digits.length - size ∨ 0 ≤ width - size - 1) :=
      size_of_more rfl more
    have rest : (digits.drop size).length = digits.length - size := List.length_drop
    have fits : IsUnsigned (max width 1) ∧ IsSigned (width - size) := by
      unfold IsUnsigned IsSigned at *
      omega
    have again : IsSigned (width - size - 1) := by
      unfold IsSigned at *
      omega
    have others := ih again (by rw [rest]; omega)
    rw [groupsBackwardInWords?, if_pos fits, dif_neg more, if_pos again, others]
    rfl

/-- Few digits are grouped in words if the width is one. -/
theorem groupedInWords?_eq {digits : List Char} (few : digits.length ≤ 4000)
    {separator : Option Char} {width : ℕ} (fits : separator.isSome → IsSigned width) :
    groupedInWords? digits separator width = some (grouped digits separator width) := by
  have limit : wordLimit = 18446744073709551616 := rfl
  unfold groupedInWords?
  cases separator with
  | none => rfl
  | some s =>
    have word := fits rfl
    have groups : groupsBackwardInWords? digits.reverse width = _ :=
      groupsBackwardInWords?_eq word (by rw [List.length_reverse]; omega)
    unfold grouped
    simp only
    rw [signed?_of_isSigned word, Option.bind_eq_bind, Option.bind_some, groups,
      signedWord_of_isSigned word]
    rfl

/-- The characters beside the digits are counted in words if their number is one. -/
theorem roomInWords?_eq {sign tail : List Char} (fits : tail.length + sign.length < wordLimit) :
    roomInWords? field sign tail
      = some (if field.zeroFill then field.width - (tail.length + sign.length) else 0) := by
  unfold roomInWords?
  split
  · rw [unsigned?_eq_some_iff.mpr ⟨rfl, fits⟩]
    rfl
  · rfl

/-! ## The field -/

/-- All numbers are words if those on which they depend are. -/
theorem FitsWords.renderInWords? (fits : FitsWords field value) :
    renderInWords? field value = some (render field value) := by
  have limit : wordLimit = 18446744073709551616 := rfl
  have spans := fits.spans
  obtain ⟨before, point⟩ := fits.pointFits
  have toUnit : IsSigned ((digitsIn field value).exponent + (digitsIn field value).length) := by
    obtain ⟨low, high⟩ := spans
    unfold IsSigned
    omega
  have parts : splitAtPointInWords? (Nat.toDigits 10 (digitsIn field value).coefficient)
      (digitsBeforePoint field (digitsIn field value)) = some (partsIn field value) :=
    splitAtPointInWords?_eq point
  have whole : (partsIn field value).1.length ≤ 4000 :=
    length_whole_le point.high
  have text := fits.text
  have body := congrArg List.length (bodyIn_eq field value)
  rw [List.length_append] at body
  have room : roomInWords? field (signIn field value) (tailIn field value)
      = some (roomIn field value) := roomInWords?_eq (by omega)
  have digits := groupedInWords?_eq whole fits.room
  have filled : alignedInWords? field (signIn field value) (bodyIn field value)
      = some (render field value) := alignedInWords?_eq_some_iff.mpr ⟨rfl, text⟩
  unfold Decimal.renderInWords?
  rw [shownDigitsInWords?_eq fits.toDigitsFit, Option.bind_eq_bind, Option.bind_some,
    signed?_of_isSigned fits.length, Option.bind_eq_bind, Option.bind_some,
    signed?_of_isSigned toUnit, Option.bind_eq_bind, Option.bind_some, before, Option.bind_eq_bind,
    Option.bind_some, parts, Option.bind_eq_bind, Option.bind_some]
  simp only [signed?_of_isSigned point.exponent, Option.bind_some]
  show ((roomInWords? field (signIn field value) (tailIn field value)).bind fun width =>
    (groupedInWords? (partsIn field value).1 field.separator width).bind fun digits =>
      alignedInWords? field (signIn field value) (digits ++ tailIn field value)) = _
  rw [room, Option.bind_some, digits, Option.bind_some, ← bodyIn_eq, filled]

/-- Words suffice exactly if the numbers on which the others depend are words. -/
theorem renderInWords?_eq_some_iff {text : List Char} :
    renderInWords? field value = some text ↔ FitsWords field value ∧ text = render field value := by
  constructor
  · intro h
    obtain ⟨rfl, fits⟩ := render_of_renderInWords? h
    exact ⟨fits, rfl⟩
  · rintro ⟨fits, rfl⟩
    exact fits.renderInWords?

/-! ### Precisions and widths that fit -/

/-- An exponent that is a word takes few characters, its letter and its sign among them. -/
theorem length_suffixText_le (style : NumberStyle) {e : ℤ} (word : IsSigned e) :
    (suffixText style e).length ≤ 22 := by
  have limit : wordLimit < 2 * tenPow 20 := by decide
  have digits : (Nat.toDigits 10 e.natAbs).length ≤ 20 := by
    refine (digitCount_le_iff (by decide)).mpr ?_
    unfold IsSigned at word
    omega
  have exponent : ∀ upper, (exponentText upper e).length ≤ 22 := by
    intro upper
    show (Nat.toDigits 10 e.natAbs).length + 1 + 1 ≤ 22
    omega
  unfold suffixText
  cases style with
  | scientific upper => exact exponent upper
  | general upper =>
    simp only
    split
    · exact exponent upper
    · exact Nat.zero_le _
  | percent =>
    show ['%'].length ≤ 22
    decide
  | fixed => exact Nat.zero_le _

/-- Grouped digits are twice as many, or fill the width. -/
theorem length_grouped_le {digits : List Char} (nonempty : digits ≠ []) (separator : Option Char)
    {width : ℕ} (fits : width < twoPow 62) :
    (grouped digits separator width).length ≤ max (2 * digits.length) (width + 1) := by
  obtain ⟨zeros, filled⟩ := exists_filledWith_grouped separator nonempty fits
  rcases filled.close with none | exact | ⟨-, longer, -⟩
  · rw [filled.text_eq, none, List.replicate_zero, List.nil_append]
    cases separator with
    | none =>
      rw [inGroups_none]
      omega
    | some s =>
      rw [length_inGroups, groupedLength]
      omega
  · omega
  · omega

section Short

variable (short : ∀ p, field.precision = some p → p < twoPow 62)

include short

/-- A precision up to a quarter of the range of words is far from the end of it, whatever the
decimal. -/
theorem digitsFit_of_lt (value : Decimal) : DigitsFit field value := by
  have quarter : (wordLimit : ℤ) = 4 * twoPow 62 := by decide
  have million : 1000000 < twoPow 62 := by decide
  refine ⟨fun p precision _ => ?_, fun p upper precision style nonzero => ?_, ?_⟩
  · have lt := short p precision
    unfold IsSigned
    omega
  · have lt := short p precision
    have ⟨low, high, few⟩ := within_ofDecimal value
    have first := leading_eq (Digits.ofDecimal value)
    unfold IsSigned
    omega
  · cases precision : field.precision with
    | none =>
      have few := (within_digitsIn value (.inl precision)).length
      exact isSigned_of_le (by omega) (by omega)
    | some p =>
      have lt := short p precision
      cases style : field.style with
      | fixed | percent =>
        have within := within_inStyle field value
        rw [Decimal.digitsIn_of_reachesUnit (style ▸ rfl) precision lt]
        generalize (Digits.ofDecimal value).inStyle field.style = x at within
        have ⟨_, high, few⟩ := within
        unfold IsSigned
        by_cases zero : x.isZero
        · have one := length_of_isZero (isZero_rescale zero (-p))
          omega
        · rcases le_or_gt (-p : ℤ) x.exponent with above | below
          · have length := length_rescale_of_le zero above
            omega
          · have length := length_rescale_of_lt below
            omega
      | scientific upper =>
        rw [Decimal.digitsIn_of_scientific style precision lt]
        by_cases zero : value.coefficient = 0
        · have isZero : (Digits.ofDecimal value).isZero := isZero_iff.mpr zero
          rw [roundSignificant_of_isZero isZero, length_of_isZero isZero]
          exact isSigned_of_le (by decide) (by decide)
        · obtain ⟨length, -⟩ := roundSignificant_spec (x := .ofDecimal value) zero p.succ_pos
          unfold IsSigned
          rw [length]
          omega
      | general upper =>
        have few := (within_digitsIn value (.inr ⟨upper, style⟩)).length
        exact isSigned_of_le (by omega) (by omega)

/-- Behind the point there are as many digits as the precision says, or few. -/
theorem length_fraction_le (value : Decimal) : (partsIn field value).2.length ≤ twoPow 62 := by
  have million : 1000000 < twoPow 62 := by decide
  have close : (field.precision = none ∨ ∃ upper, field.style = .general upper) →
      (partsIn field value).2.length ≤ twoPow 62 := by
    intro free
    have ⟨low, _, few⟩ := within_digitsIn value free
    have length := (split_partsIn field value).length_fraction
    have count : (Nat.toDigits 10 (digitsIn field value).coefficient).length
        = (digitsIn field value).length := rfl
    rcases digitsBeforePoint_cases (digitsIn field value) free with before | before
    · omega
    · omega
  cases precision : field.precision with
  | none => exact close (.inl precision)
  | some p =>
    have lt := short p precision
    cases style : field.style with
    | fixed | percent =>
      rw [length_fraction_of_reachesUnit (style ▸ rfl) precision lt]
      exact lt.le
    | scientific upper =>
      rw [(partsIn_of_scientific value style precision lt).1]
      exact lt.le
    | general upper => exact close (.inr ⟨upper, style⟩)

theorem length_tailIn_le (value : Decimal) : (tailIn field value).length ≤ twoPow 62 + 23 := by
  have fraction := length_fraction_le short value
  have suffix := length_suffixText_le field.style (digitsFit_of_lt short value).pointFits.2.exponent
  unfold tailIn
  simp only
  rw [tailText_eq, List.length_append]
  split
  · rw [List.length_nil]
    omega
  · rw [List.length_cons]
    omega

/-- A precision and a width up to a quarter of the range of words never overflow. -/
theorem fitsWords_of_lt (value : Decimal) (width : field.width < twoPow 62) :
    FitsWords field value := by
  have quarter : (wordLimit : ℤ) = 4 * twoPow 62 := by decide
  have million : 1000000 < twoPow 62 := by decide
  have digits := digitsFit_of_lt short value
  have room := roomIn_le field value
  refine ⟨digits, fun _ => by unfold IsSigned; omega, ?_⟩
  have tail := length_tailIn_le short value
  have whole : (partsIn field value).1.length ≤ 4000 := length_whole_le digits.pointFits.2.high
  have grouped := length_grouped_le (split_partsIn field value).whole_ne_nil field.separator
    (room.trans_lt width)
  have sign : (signIn field value).length ≤ 1 := by
    rcases signText_eq field (digitsIn field value) with same | same | same | same <;>
      exact (congrArg List.length same).trans_le (by decide)
  have body := congrArg List.length (bodyIn_eq field value)
  rw [List.length_append] at body
  omega

end Short

/-! ## Formats -/

/-- A format that is not accepted is invalid in words too. In one that is accepted words give the text
exactly if the numbers on which the others depend are words, and give nothing otherwise. They are words
whenever precision and width are less than a quarter of the range of words. -/
theorem formatInWords?_outcome (value : Decimal) (format : String) :
    (DecimalFormat.parse? format = none → value.format? format = none ∧
      value.formatInWords? format = some (.error (.invalidFormat .decimal format))) ∧
    ∀ f, DecimalFormat.parse? format = some f →
      (∃ text, value.format? format = some text ∧ ∀ result,
        value.formatInWords? format = some result ↔
          FitsWords f.field value ∧ result = .ok text) ∧
      ((∀ p, f.field.precision = some p → p < twoPow 62) → f.field.width < twoPow 62 →
        FitsWords f.field value) := by
  unfold format? formatInWords?
  refine ⟨fun refused => ?_, fun f accepted => ⟨?_, ?_⟩⟩
  · rw [refused]
    exact ⟨rfl, rfl⟩
  · rw [accepted]
    refine ⟨_, rfl, fun result => ?_⟩
    simp only [Option.bind_eq_bind, Option.bind_eq_some_iff, renderInWords?_eq_some_iff,
      Option.pure_def, Option.some.injEq]
    constructor
    · rintro ⟨_, ⟨fits, rfl⟩, rfl⟩
      exact ⟨fits, rfl⟩
    · rintro ⟨fits, rfl⟩
      exact ⟨_, ⟨fits, rfl⟩, rfl⟩
  · exact fun short width => fitsWords_of_lt short value width

/-- The number 12.5. -/
def twelveAndAHalf : Decimal := ⟨false, 125, 1, by decide, by decide⟩

theorem formatInWords?_outcome_of_two_places :
    twelveAndAHalf.formatInWords? "\x7b:,.2f\x7d EUR" = some (.ok "12.50 EUR") := by
  obtain ⟨f, accepted, precision, width⟩ : ∃ f,
      DecimalFormat.parse? "\x7b:,.2f\x7d EUR" = some f ∧ f.field.precision = some 2 ∧
        f.field.width = 0 := ⟨_, rfl, rfl, rfl⟩
  obtain ⟨⟨text, written, outcome⟩, fits⟩ :=
    (formatInWords?_outcome twelveAndAHalf "\x7b:,.2f\x7d EUR").2 f accepted
  have short : ∀ p, f.field.precision = some p → p < twoPow 62 := by
    intro p same
    cases precision.symm.trans same
    decide
  have euros : twelveAndAHalf.format? "\x7b:,.2f\x7d EUR" = some "12.50 EUR" := by decide +kernel
  cases euros.symm.trans written
  exact (outcome _).mpr ⟨fits short (by rw [width]; decide), rfl⟩

/-- The greatest precision that is accepted is no signed word. Taken for one it is negative, and all
digits behind the point are lost, and one in front of it. -/
theorem formatInWords?_eq_none_of_greatest_precision :
    (DecimalFormat.parse? "\x7b:.18446744073709551615f\x7d").isSome ∧
    twelveAndAHalf.formatInWords? "\x7b:.18446744073709551615f\x7d" = none ∧
    twelveAndAHalf.format? "\x7b:.18446744073709551615f\x7d" = some "10" := by
  have outOfRange : (twelveAndAHalf.formatInWords? "\x7b:.18446744073709551615f\x7d").isNone := by
    decide +kernel
  exact ⟨by decide +kernel, Option.isNone_iff_eq_none.mp outOfRange, by decide +kernel⟩

end Decimal

end EntityJson
