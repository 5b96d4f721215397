import EntityJson.Proofs.Decimal.Reading

/-!
# What a rendered decimal denotes

The number that is read off a field is the decimal, rounded as the style and the precision of the field
say (`Decimal.render_denotes`). With a precision, the fixed style and the percentage show so many digits
behind the point, the scientific style shows one digit in front of the point and so many behind it, and
the general style shows so many digits, unless the decimal has no more than that.
-/

namespace EntityJson

/-- What the reading of a field says of a decimal. The precision is that of the field as it has been
accepted, in which the general style has counted a zero as one. -/
def Reading.Denotes (r : Reading) (field : FieldSpec) (value : Decimal) : Prop :=
  r.percent = decide (field.style = .percent) ∧
  match field.style, field.precision with
  | .fixed, none => r.numeral.value = value.value
  | .fixed, some p =>
    RoundsTo (10 ^ (-p : ℤ)) value.value r.numeral.value ∧ r.numeral.fraction.length = p
  | .percent, none => r.numeral.value = 100 * value.value
  | .percent, some p =>
    RoundsTo (10 ^ (-p : ℤ)) (100 * value.value) r.numeral.value ∧ r.numeral.fraction.length = p
  | .scientific _, none => r.numeral.value = value.value
  | .scientific _, some p =>
    RoundsToDigits (p + 1) value.value r.numeral.value ∧ r.numeral.fraction.length = p ∧
      ∃ zeros d, r.numeral.whole = List.replicate zeros '0' ++ [d] ∧
        (d = '0' → value.coefficient = 0)
  | .general _, none => r.numeral.value = value.value
  | .general _, some p =>
    1 ≤ p ∧ if digitCount value.coefficient ≤ p then r.numeral.value = value.value
      else RoundsToDigits p value.value r.numeral.value

namespace Digits

variable {x : Digits}

/-- The digits that a style counts with: a hundredfold for a percentage. -/
def inStyle (style : NumberStyle) (x : Digits) : Digits :=
  if style = .percent then { x with exponent := x.exponent + 2 } else x

theorem value_inStyle_percent (x : Digits) : (x.inStyle .percent).value = 100 * x.value := by
  have ten : (10 : ℚ) ≠ 0 := by norm_num
  have hundred : (x.inStyle .percent).magnitude = 100 * x.magnitude := by
    show (x.coefficient : ℚ) * 10 ^ (x.exponent + 2) = 100 * (x.coefficient * 10 ^ x.exponent)
    rw [zpow_add₀ ten]
    norm_num
    ring
  show signed x.negative (x.inStyle .percent).magnitude = 100 * signed x.negative x.magnitude
  rw [hundred]
  cases x.negative
  · rfl
  · exact (mul_neg _ _).symm

theorem isZero_rescale (zero : x.isZero) (e : ℤ) : (x.rescale e).isZero := by
  unfold rescale
  rw [if_pos zero]
  exact zero

end Digits

namespace Decimal

open Digits

variable {field : FieldSpec} {value : Decimal} {p : ℕ}

/-! ## The digits shown -/

theorem digitsIn_eq (field : FieldSpec) (value : Decimal) :
    let x := rounded field ((Digits.ofDecimal value).inStyle field.style)
    digitsIn field value
      = if x.isZero ∧ 0 < x.exponent ∧ reachesUnit field.style then x.rescale 0 else x := rfl

/-- A zero gets another exponent at most, so what is shown is what has been rounded. -/
theorem value_digitsIn (field : FieldSpec) (value : Decimal) :
    (digitsIn field value).value
      = (rounded field ((Digits.ofDecimal value).inStyle field.style)).value := by
  rw [digitsIn_eq]
  split
  next h => rw [value_of_isZero h.1, value_of_isZero (isZero_rescale h.1 0)]
  · rfl

/-- Numbers up to a quarter of the range of words are their own signed words. -/
theorem signedWord_of_lt {n : ℤ} (low : -(twoPow 62 : ℤ) < n) (high : n ≤ twoPow 62) :
    signedWord n = n := by
  have quarter : (wordLimit : ℤ) = 4 * twoPow 62 := by decide
  refine signedWord_eq_self ?_ ?_ <;> omega

/-- With a precision, fixed and percentage digits end at that place behind the point. -/
theorem digitsIn_of_word (reaches : reachesUnit field.style) (precision : field.precision = some p)
    (word : signedWord (-p) = -p) :
    digitsIn field value = ((Digits.ofDecimal value).inStyle field.style).rescale (-p) := by
  have rescaled : rounded field ((Digits.ofDecimal value).inStyle field.style)
      = ((Digits.ofDecimal value).inStyle field.style).rescale (-p) := by
    unfold rounded
    rw [precision]
    cases style : field.style with
    | fixed | percent => simp only [word]
    | scientific | general =>
      rw [style] at reaches
      cases reaches
  rw [digitsIn_eq, rescaled, exponent_rescale, if_neg (by omega)]

theorem digitsIn_of_reachesUnit (reaches : reachesUnit field.style)
    (precision : field.precision = some p) (short : p < twoPow 62) :
    digitsIn field value = ((Digits.ofDecimal value).inStyle field.style).rescale (-p) :=
  digitsIn_of_word reaches precision (signedWord_of_lt (by omega) (by omega))

/-- With a precision, scientific digits are one more than that. -/
theorem digitsIn_of_style_scientific {upper : Bool} (style : field.style = .scientific upper)
    (precision : field.precision = some p) :
    digitsIn field value = (Digits.ofDecimal value).roundSignificant (signedWord (p + 1)) := by
  rw [digitsIn_eq, style]
  simp only [reachesUnit, Bool.false_eq_true, and_false, if_false]
  unfold rounded
  rw [precision, style]
  rfl

theorem digitsIn_of_scientific {upper : Bool} (style : field.style = .scientific upper)
    (precision : field.precision = some p) (short : p < twoPow 62) :
    digitsIn field value = (Digits.ofDecimal value).roundSignificant (p + 1 : ℕ) := by
  have word : signedWord (p + 1) = (p + 1 : ℕ) := signedWord_of_lt (by omega) (by omega)
  rw [digitsIn_of_style_scientific style precision, word]

theorem digitsIn_of_general {upper : Bool} (style : field.style = .general upper)
    (precision : field.precision = some p) :
    digitsIn field value = if p < digitCount value.coefficient then
      (Digits.ofDecimal value).roundSignificant p else .ofDecimal value := by
  rw [digitsIn_eq, style]
  simp only [reachesUnit, Bool.false_eq_true, and_false, if_false]
  unfold rounded
  rw [precision, style]
  rfl

/-! ## Digits behind the point -/

/-- Positional writing shows the digits down to the last one. -/
theorem length_fraction_of_reachesUnit (reaches : reachesUnit field.style)
    (precision : field.precision = some p) (short : p < twoPow 62) :
    (partsIn field value).2.length = p := by
  have exponent : (digitsIn field value).exponent = -p := by
    rw [digitsIn_of_reachesUnit reaches precision short, exponent_rescale]
  have before : digitsBeforePoint field (digitsIn field value)
      = -p + (digitsIn field value).length := by
    rw [← exponent]
    unfold digitsBeforePoint
    cases style : field.style with
    | fixed | percent => rfl
    | scientific | general =>
      rw [style] at reaches
      cases reaches
  have length := (split_partsIn field value).length_fraction
  have count : (Nat.toDigits 10 (digitsIn field value).coefficient).length
      = (digitsIn field value).length := rfl
  rw [before, count] at length
  omega

/-- Scientific writing shows one digit in front of the point, which is zero only if the number is. A
zero has its point where the precision puts it. -/
theorem partsIn_of_scientific (value : Decimal) {upper : Bool} (style : field.style = .scientific upper)
    (precision : field.precision = some p) (short : p < twoPow 62) :
    (partsIn field value).2.length = p ∧
      ∃ d, (partsIn field value).1 = [d] ∧ (d = '0' → value.coefficient = 0) := by
  have digits : digitsIn field value = (Digits.ofDecimal value).roundSignificant (p + 1 : ℕ) :=
    digitsIn_of_scientific style precision short
  have length := (split_partsIn field value).length_fraction
  unfold partsIn at length ⊢
  have before : digitsBeforePoint field (digitsIn field value)
      = (if (digitsIn field value).isZero then 1 - p else 1 : ℤ) := by
    have word : signedWord (1 - p) = 1 - p := signedWord_of_lt (by omega) (by omega)
    unfold digitsBeforePoint
    rw [style, precision]
    simp only [word]
  rw [before] at length ⊢
  by_cases zero : value.coefficient = 0
  · have isZero : (Digits.ofDecimal value).isZero := isZero_iff.mpr zero
    have same : (Digits.ofDecimal value).roundSignificant (p + 1 : ℕ) = .ofDecimal value :=
      if_pos isZero
    rw [digits, same, if_pos isZero, isZero_iff.mp isZero] at length ⊢
    refine ⟨?_, '0', ?_, fun _ => zero⟩
    · rw [length]
      show ((1 : ℕ) - (1 - p : ℤ)).toNat = p
      omega
    · rcases p.eq_zero_or_pos with rfl | pos
      · rfl
      · rw [splitAtPoint_of_nonpos (by omega)]
  · obtain ⟨count, nonzero, -⟩ := roundSignificant_spec (x := .ofDecimal value) zero p.succ_pos
    rw [← digits] at count nonzero
    rw [if_neg (isZero_iff.not.mpr nonzero)] at length ⊢
    have count : (Nat.toDigits 10 (digitsIn field value).coefficient).length = p + 1 := count
    have first := head?_toDigits_ne nonzero
    generalize Nat.toDigits 10 (digitsIn field value).coefficient = ds at *
    have nonempty : ds ≠ [] := List.ne_nil_of_length_pos (by omega)
    obtain ⟨d, ds, rfl⟩ := List.exists_cons_of_ne_nil nonempty
    rw [splitAtPoint_of_pos_of_le Int.one_pos (by omega)] at length ⊢
    refine ⟨by omega, d, rfl, ?_⟩
    rintro rfl
    exact absurd rfl first

/-! ## The number read -/

theorem roundsTo_of_reachesUnit (value : Decimal) (reaches : reachesUnit field.style)
    (precision : field.precision = some p) (short : p < twoPow 62) :
    RoundsTo (10 ^ (-p : ℤ)) ((Digits.ofDecimal value).inStyle field.style).value
      (digitsIn field value).value := by
  rw [digitsIn_of_reachesUnit reaches precision short]
  exact roundsTo_rescale _ _

theorem value_of_precision_none (value : Decimal) (precision : field.precision = none) :
    (digitsIn field value).value = ((Digits.ofDecimal value).inStyle field.style).value := by
  rw [value_digitsIn]
  unfold rounded
  rw [precision]

/-- A reading of the digits that a field shows denotes the decimal as the field says. -/
theorem denotes_of_reading {r : Reading} {zeros : ℕ}
    (accepted : field.Accepted) (short : ∀ p, field.precision = some p → p < twoPow 62)
    (percent : r.percent = decide (field.style = .percent))
    (whole : r.numeral.whole = List.replicate zeros '0' ++ (partsIn field value).1)
    (fraction : r.numeral.fraction = (partsIn field value).2)
    (number : r.numeral.value = (digitsIn field value).value) : r.Denotes field value := by
  refine ⟨percent, ?_⟩
  rw [number, fraction, whole]
  cases precision : field.precision with
  | none =>
    have unrounded := value_of_precision_none value precision
    rw [unrounded]
    cases field.style with
    | percent => exact value_inStyle_percent _
    | fixed | scientific | general => rfl
  | some p =>
    have short := short p precision
    cases style : field.style with
    | fixed =>
      have reaches : reachesUnit field.style := by rw [style]; rfl
      have rounds := roundsTo_of_reachesUnit value reaches precision short
      rw [style] at rounds
      exact ⟨rounds, length_fraction_of_reachesUnit reaches precision short⟩
    | percent =>
      have reaches : reachesUnit field.style := by rw [style]; rfl
      have rounds := roundsTo_of_reachesUnit value reaches precision short
      rw [style, value_inStyle_percent] at rounds
      exact ⟨rounds, length_fraction_of_reachesUnit reaches precision short⟩
    | scientific upper =>
      obtain ⟨length, d, first, nonzero⟩ := partsIn_of_scientific value style precision short
      rw [digitsIn_of_scientific style precision short, first]
      have rounds := roundsToDigits_roundSignificant (.ofDecimal value) p.succ_pos
      exact ⟨rounds, length, zeros, d, rfl, nonzero⟩
    | general upper =>
      have pos := accepted.precision upper p style precision
      refine ⟨pos, ?_⟩
      rw [digitsIn_of_general style precision]
      split
      next few => rw [if_neg (Nat.not_lt.mpr few)]; rfl
      next many =>
        rw [if_pos (Nat.lt_of_not_le many)]
        exact roundsToDigits_roundSignificant (.ofDecimal value) pos

end Decimal

/-- A decimal is written, in any format that is accepted, as a sign and a body between the texts of the
format and filled up to the width. Read without the separators between its groups, sign and body denote
the decimal, rounded as the field says. -/
theorem Decimal.render_denotes {format : String} {f : DecimalFormat}
    (parsed : DecimalFormat.parse? format = some f)
    (short : ∀ p, f.field.precision = some p → p < twoPow 62) (value : Decimal) :
    value.format? format = some (String.ofList
      (f.before ++ aligned f.field (signIn f.field value) (bodyIn f.field value) ++ f.after)) ∧
    ∃ r, Reading.ofText? (withoutSeparators f.field.separator
        (signIn f.field value ++ bodyIn f.field value)) = some r ∧ r.Denotes f.field value := by
  have accepted := DecimalFormat.accepted_of_parse? parsed
  obtain ⟨zeros, r, read, percent, whole, fraction, number⟩ := reading_of_field accepted value
  refine ⟨?_, r, read, denotes_of_reading accepted short percent whole fraction number⟩
  unfold format?
  rw [parsed, Option.map_some, render_eq_aligned]

/-- A tie that carries over five digits, in groups. -/
theorem Decimal.render_denotes_of_tie :
    ∃ (value : Decimal) (f : DecimalFormat) (r : Reading),
      DecimalFormat.parse? "EUR \x7b:_>15,.2f\x7d" = some f ∧
      (∀ p, f.field.precision = some p → p < twoPow 62) ∧
      value = ⟨true, 1234999995, 3, by decide, by decide⟩ ∧
      value.format? "EUR \x7b:_>15,.2f\x7d" = some "EUR __-1,235,000.00" ∧
      Reading.ofText? (withoutSeparators f.field.separator
        (signIn f.field value ++ bodyIn f.field value)) = some r ∧
      r = ⟨⟨true, "1235000".toList, "00".toList, none⟩, false⟩ ∧
      RoundsTo (10 ^ (-2 : ℤ)) value.value r.numeral.value := by
  let value : Decimal := ⟨true, 1234999995, 3, by decide, by decide⟩
  let field : FieldSpec := {
    fill := '_', alignment := .right, sign := .none, noNegativeZero := false
    alwaysPoint := false, zeroFill := false, width := 15, separator := some ','
    precision := some 2, style := .fixed }
  have parsed : DecimalFormat.parse? "EUR \x7b:_>15,.2f\x7d" = some ⟨"EUR ".toList, field, []⟩ := by
    decide
  have short : ∀ p, field.precision = some p → p < twoPow 62 := by
    rintro p same
    cases same
    decide
  obtain ⟨text, r, read, -, rounds, -⟩ := render_denotes parsed short value
  have sign : signIn field value = ['-'] := by decide
  have body : bodyIn field value = "1,235,000.00".toList := by decide +kernel
  have read_body : Reading.ofText? (withoutSeparators field.separator
      (signIn field value ++ bodyIn field value))
        = some ⟨⟨true, "1235000".toList, "00".toList, none⟩, false⟩ := by
    rw [sign, body]
    decide
  cases read_body.symm.trans read
  refine ⟨value, _, _, parsed, short, rfl, text.trans ?_, read_body, rfl, rounds⟩
  show some (String.ofList ("EUR ".toList ++ aligned field (signIn field value) (bodyIn field value)
    ++ [])) = _
  rw [sign, body]
  decide

end EntityJson
