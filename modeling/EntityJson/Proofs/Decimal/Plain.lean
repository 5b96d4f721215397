import EntityJson.Proofs.Decimal.Reading

/-!
# Decimals in the plain format

The format that is nothing but an empty field writes a decimal with all its digits and places and fills
up nothing. What it writes is a numeral, and the decimal that this numeral spells is the one that was
written (`Decimal.read?_of_format?_plain`): a negative zero keeps its sign, zeros at the end count as
places, and the exponent says how far the places go on where the digits are few. So decimals that differ
in sign, coefficient or scale are written differently.

The digits are laid out down to the unit, with an exponent of zero, as long as the first digit stands at
most six places behind the point; a smaller number has one digit in front of the point and its exponent
written. Either way the digits behind the point and the exponent come to the scale, because no more
digits stand in front of the point than there are.
-/

namespace EntityJson

namespace Numeral

open Decimal Reading

variable {whole fraction : List Char}

/-- A sign in front of a digit is read as it is written. -/
theorem scanSign_append (negative : Bool) {c : Char} (digit : c.isDigit) (rest : List Char) :
    scanSign ((if negative then ['-'] else []) ++ c :: rest) = (negative, c :: rest) := by
  cases negative with
  | true => rfl
  | false =>
    show scanSign (c :: rest) = _
    unfold scanSign
    split
    next same => cases same; cases digit
    · rfl

/-- Without a point that is always written, a point is there exactly if digits follow it. -/
theorem scanFraction?_tailText {field : FieldSpec} (optional : field.alwaysPoint = false)
    (digits : ∀ c ∈ fraction, c.isDigit) (e : Int) :
    scanFraction? (tailText field fraction e) = some (fraction, suffixText field.style e) := by
  have behind := head?_suffixText field.style e
  rw [tailText_eq, optional]
  cases fraction with
  | nil =>
    show scanFraction? (suffixText field.style e) = _
    unfold scanFraction?
    split
    next rest same =>
      rw [same] at behind
      exact absurd rfl (behind '.' rfl).2
    · rfl
  | cons c cs =>
    show scanDigits? (c :: cs ++ suffixText field.style e) = _
    exact scanDigits?_append (List.cons_ne_nil c cs) digits fun c mem => (behind c mem).1

/-- What the plain format writes is a numeral with the same parts. -/
theorem read?_written (negative : Bool) (nonempty : whole ≠ [])
    (digits : ∀ c ∈ whole ++ fraction, c.isDigit) (e : Int) :
    read? (String.ofList
        ((if negative then ['-'] else []) ++ (whole ++ tailText .plain fraction e)))
      = some ⟨negative, whole, fraction, writtenExponent FieldSpec.plain.style e⟩ := by
  obtain ⟨c, cs, rfl⟩ := List.exists_cons_of_ne_nil nonempty
  have whole_digits : ∀ d ∈ c :: cs, d.isDigit := fun d mem =>
    digits d (List.mem_append_left _ mem)
  have fraction_digits : ∀ d ∈ fraction, d.isDigit := fun d mem =>
    digits d (List.mem_append_right _ mem)
  have sign := scanSign_append negative (whole_digits c List.mem_cons_self)
    (cs ++ tailText .plain fraction e)
  have scanned := scanDigits?_append nonempty whole_digits (head?_tailText .plain fraction e)
  have fractioned : scanFraction? (tailText .plain fraction e) = _ :=
    scanFraction?_tailText rfl fraction_digits e
  have exponent := scanExponent?_suffixText FieldSpec.plain.style e
  rw [if_neg nofun] at exponent
  unfold read? scan?
  rw [String.toList_ofList, List.cons_append, sign]
  rw [List.cons_append] at scanned
  simp only [scanned, fractioned, exponent, Option.bind_eq_bind, Option.bind_some]
  rfl

end Numeral

namespace Decimal

open Numeral Reading

/-! ## The layout of the plain format -/

/-- The plain format shows the digits as they are. -/
theorem digitsIn_plain (value : Decimal) : digitsIn .plain value = .ofDecimal value :=
  if_neg fun both => Bool.false_ne_true both.2.2

theorem signIn_plain (value : Decimal) :
    signIn .plain value = if value.negative then ['-'] else [] := by
  unfold signIn signText
  rw [digitsIn_plain]
  cases h : value.negative <;> simp [Digits.ofDecimal, FieldSpec.plain, h]

/-- Where the first digit stands no further down than the sixth place behind the point, the digits down
to the unit stand in front of it; where it stands further down, one digit does. -/
theorem digitsBeforePoint_plain (value : Decimal) :
    digitsBeforePoint .plain (.ofDecimal value)
      = if (Digits.ofDecimal value).leading < -6 then 1
        else (Digits.ofDecimal value).leading + 1 := by
  have places : (Digits.ofDecimal value).exponent ≤ 0 := by
    show -(value.scale : Int) ≤ 0
    omega
  unfold digitsBeforePoint Digits.leading
  simp only [FieldSpec.plain]
  split <;> split <;> omega

/-- The exponent of the digit in front of the point, which is zero if the unit stands there. -/
def plainExponent (value : Decimal) : Int :=
  if (Digits.ofDecimal value).leading < -6 then (Digits.ofDecimal value).leading else 0

theorem exponent_plain (value : Decimal) :
    (Digits.ofDecimal value).exponent + (Digits.ofDecimal value).length
        - digitsBeforePoint .plain (.ofDecimal value) = value.plainExponent := by
  rw [digitsBeforePoint_plain]
  unfold plainExponent Digits.leading
  split <;> omega

/-- An exponent is written if it is not zero. -/
theorem writtenExponent_plain (value : Decimal) :
    writtenExponent FieldSpec.plain.style value.plainExponent
      = if (Digits.ofDecimal value).leading < -6 then some (Digits.ofDecimal value).leading
        else none := by
  unfold writtenExponent plainExponent
  simp only [FieldSpec.plain]
  by_cases small : (Digits.ofDecimal value).leading < -6
  · have nonzero : (Digits.ofDecimal value).leading ≠ 0 := by omega
    rw [if_pos small, if_pos small, if_pos nonzero]
  · rw [if_neg small, if_neg small, if_neg (not_not_intro rfl)]

/-- Nothing is filled up or grouped. -/
theorem render_plain (value : Decimal) :
    render .plain value
      = (if value.negative then ['-'] else []) ++ ((partsIn .plain value).1
        ++ tailText .plain (partsIn .plain value).2 value.plainExponent) := by
  have body : bodyIn .plain value = (partsIn .plain value).1 ++ tailIn .plain value := by
    simp [bodyIn, grouped, FieldSpec.plain]
  have tail : tailIn .plain value
      = tailText .plain (partsIn .plain value).2 value.plainExponent := by
    rw [tailIn, digitsIn_plain, exponent_plain]
  rw [render_eq_aligned, signIn_plain, body, tail]
  simp [aligned, FieldSpec.plain]

/-- The digits in front of the point and behind it are those of the coefficient, with zeros in front at
most, and as many stand behind it as the scale and the exponent say. -/
theorem partsIn_plain (value : Decimal) :
    natural ((partsIn .plain value).1 ++ (partsIn .plain value).2) = value.coefficient ∧
      value.plainExponent - (partsIn .plain value).2.length = -(value.scale : Int) := by
  obtain ⟨-, length, worth, -⟩ := split_partsIn .plain value
  have exponent := exponent_plain value
  have count : (Nat.toDigits 10 (Digits.ofDecimal value).coefficient).length
      = (Digits.ofDecimal value).length := rfl
  have scale : (Digits.ofDecimal value).exponent = -(value.scale : Int) := rfl
  have within : digitsBeforePoint .plain (.ofDecimal value) ≤ (Digits.ofDecimal value).length := by
    have some : 0 < (Digits.ofDecimal value).length := digitCount_pos value.coefficient
    rw [digitsBeforePoint_plain]
    unfold Digits.leading
    split <;> omega
  have none : (digitsBeforePoint .plain (.ofDecimal value) - (Digits.ofDecimal value).length).toNat
      = 0 := by omega
  rw [digitsIn_plain, count] at length worth
  rw [none, tenPow_zero, Nat.one_mul, natural_toDigits] at worth
  exact ⟨worth, by omega⟩

/-! ## Reading back -/

/-- A numeral with the sign, the digits and the places of a decimal spells it. -/
theorem ofNumeral?_eq_some {n : Numeral} {value : Decimal} (negative : n.negative = value.negative)
    (coefficient : n.coefficient = value.coefficient) (places : n.lastExponent = -(value.scale : Int)) :
    ofNumeral? n = some value := by
  have scale : (-n.lastExponent).toNat = value.scale := by omega
  have fits : n.coefficient < twoPow 96 ∧ 0 ≤ -n.lastExponent ∧ (-n.lastExponent).toNat ≤ 28 :=
    ⟨coefficient ▸ value.coefficient_lt, by omega, scale ▸ value.scale_le⟩
  refine (dif_pos fits).trans (congrArg some ?_)
  obtain ⟨_, _, _, _, _⟩ := value
  exact (mk.injEq ..).mpr ⟨negative, coefficient, scale⟩

/-- The numeral that the plain format writes. -/
def plainNumeral (value : Decimal) : Numeral where
  negative := value.negative
  whole := (partsIn .plain value).1
  fraction := (partsIn .plain value).2
  exponent := if (Digits.ofDecimal value).leading < -6 then some (Digits.ofDecimal value).leading
    else none

theorem read?_render_plain (value : Decimal) :
    Numeral.read? (String.ofList (render .plain value)) = some value.plainNumeral := by
  have written := read?_written value.negative (split_partsIn .plain value).whole_ne_nil
    isDigit_of_mem_partsIn value.plainExponent
  rw [render_plain, written, writtenExponent_plain]
  rfl

theorem ofNumeral?_plainNumeral (value : Decimal) : ofNumeral? value.plainNumeral = some value := by
  obtain ⟨worth, places⟩ := partsIn_plain value
  have exponent : value.plainNumeral.exponent.getD 0 = value.plainExponent := by
    unfold plainNumeral plainExponent
    split <;> rfl
  refine ofNumeral?_eq_some rfl worth ?_
  rw [lastExponent, exponent]
  exact places

/-- An exponent is marked by a letter, which stands nowhere else. -/
theorem mem_render_plain_iff (value : Decimal) :
    'e' ∈ render .plain value ↔ (Digits.ofDecimal value).leading < -6 := by
  have sign : 'e' ∉ (if value.negative then ['-'] else []) := by
    cases value.negative <;> decide
  have letter : ∀ ds : List Char, (∀ c ∈ ds, c.isDigit) → 'e' ∉ ds := fun ds digits mem =>
    Bool.false_ne_true (digits 'e' mem)
  have whole := letter (partsIn .plain value).1 fun c mem =>
    isDigit_of_mem_partsIn c (List.mem_append_left _ mem)
  have fraction := letter (partsIn .plain value).2 fun c mem =>
    isDigit_of_mem_partsIn c (List.mem_append_right _ mem)
  have point : 'e' ∉ (if (partsIn .plain value).2.isEmpty ∧ ¬ FieldSpec.plain.alwaysPoint then []
      else '.' :: (partsIn .plain value).2) := by
    split
    · exact List.not_mem_nil
    · simp only [List.mem_cons, fraction, or_false]
      decide
  rw [render_plain, tailText_eq]
  simp only [List.mem_append, sign, whole, point, false_or]
  unfold suffixText plainExponent
  simp only [FieldSpec.plain]
  by_cases small : (Digits.ofDecimal value).leading < -6
  · have nonzero : (Digits.ofDecimal value).leading ≠ 0 := by omega
    rw [if_pos small, if_pos nonzero]
    exact iff_of_true List.mem_cons_self small
  · rw [if_neg small, if_neg (not_not_intro rfl)]
    exact iff_of_false List.not_mem_nil small

/-- The plain format writes every decimal, and reading the text gives the decimal back, with its sign,
its coefficient and its scale; no other decimal is written like that. The text has an exponent exactly
if the first digit stands behind the sixth place, and then it is that of the first digit. -/
theorem read?_of_format?_plain (value : Decimal) :
    ∃ text n, value.format? "\x7b\x7d" = some text ∧ read? text = some value ∧
      Numeral.read? text = some n ∧
      n.exponent = (if (Digits.ofDecimal value).leading < -6
        then some (Digits.ofDecimal value).leading else none) ∧
      ('e' ∈ text.toList ↔ (Digits.ofDecimal value).leading < -6) ∧
      ∀ other : Decimal, other.format? "\x7b\x7d" = some text ↔ other = value := by
  have written : ∀ value : Decimal,
      value.format? "\x7b\x7d" = some (String.ofList (render .plain value)) := by
    intro value
    have parsed : DecimalFormat.parse? "\x7b\x7d" = some ⟨[], .plain, []⟩ := by decide
    rw [format?, parsed, Option.map_some, List.nil_append, List.append_nil]
  have back : ∀ value : Decimal, read? (String.ofList (render .plain value)) = some value := by
    intro value
    rw [read?, read?_render_plain, Option.bind_some, ofNumeral?_plainNumeral]
  refine ⟨_, _, written value, back value, read?_render_plain value, rfl, ?_, fun other => ?_⟩
  · rw [String.toList_ofList, mem_render_plain_iff]
  · constructor
    · intro same
      have texts := Option.some.inj ((written other).symm.trans same)
      have first := back other
      rw [texts, back value] at first
      exact (Option.some.inj first).symm
    · rintro rfl
      exact written other

example : (Decimal.format? ⟨true, 0, 7, by decide, by decide⟩ "\x7b\x7d") = some "-0e-7" := by
  decide

end Decimal

end EntityJson
