import EntityJson.Proofs.Decimal.Grammar
import EntityJson.Proofs.Decimal.Layout
import EntityJson.Proofs.Decimal.Rounding

/-!
# Reading decimals

A field of a decimal is read back as people read it: a sign, digits, perhaps a point with more digits,
perhaps an exponent, perhaps a percent sign (`Reading.ofText?`). Before that the separators between
groups are taken out. The field is taken as it is before it is filled up to its width: its sign and its
body (`Decimal.render_eq_aligned`).

What is read is a number with the digits that the field shows (`Decimal.reading_of_field`). The proof
goes piece by piece, since each piece ends where the next one starts: digits end at a character that is
none, and what follows the digits starts neither with a digit nor with a point. Of the format it needs
no more than that no digit separates groups, which the grammar gives for all formats that are accepted
(`FieldSpec.Accepted`).
-/

namespace EntityJson

/-! ## Readings -/

/-- The number that a numeral spells. -/
def Numeral.value (n : Numeral) : ℚ :=
  signed n.negative (n.coefficient * 10 ^ n.lastExponent)

/-- The number that a decimal is. -/
def Decimal.value (x : Decimal) : ℚ :=
  signed x.negative (x.coefficient * 10 ^ (-(x.scale : ℤ)))

/-- What a field says: a number, and whether it counts hundredths. -/
structure Reading where
  numeral : Numeral
  percent : Bool
  deriving DecidableEq, Repr

namespace Reading

open Numeral

/-- The sign in front of a number, if there is one, and the rest. -/
def scanSign : List Char → Bool × List Char
  | '-' :: rest => (true, rest)
  | '+' :: rest => (false, rest)
  | ' ' :: rest => (false, rest)
  | rest => (false, rest)

/-- The digits behind a point, if there is one, and the rest. None need follow it. -/
def scanFraction : List Char → List Char × List Char
  | '.' :: rest => (rest.takeWhile Char.isDigit, rest.dropWhile Char.isDigit)
  | rest => ([], rest)

/-- Reads a sign, digits, a point with more digits, an exponent and a percent sign, of which only the
digits must be there. -/
def ofText? (cs : List Char) : Option Reading := do
  let (negative, cs) := scanSign cs
  let (whole, cs) ← scanDigits? cs
  let (fraction, cs) := scanFraction cs
  let (exponent, cs) ← scanExponent? cs
  match cs with
  | [] => some ⟨⟨negative, whole, fraction, exponent⟩, false⟩
  | ['%'] => some ⟨⟨negative, whole, fraction, exponent⟩, true⟩
  | _ => none

/-! ### Reading what has been written -/

variable {whole fraction rest : List Char}

/-- Digits are scanned up to the first character that is none. -/
theorem scanDigits?_append (nonempty : whole ≠ []) (digits : ∀ c ∈ whole, c.isDigit)
    (ends : ∀ c ∈ rest.head?, ¬ c.isDigit) :
    scanDigits? (whole ++ rest) = some (whole, rest) := by
  obtain ⟨taken, dropped⟩ := takeWhile_isDigit_append digits ends
  unfold scanDigits?
  rw [taken, dropped]
  exact if_neg (by rwa [List.isEmpty_iff])

/-- A written exponent is scanned back. -/
theorem scanExponent?_exponentText (upper : Bool) (e : Int) :
    scanExponent? (Decimal.exponentText upper e) = some (some e, []) := by
  have digits : scanDigits? (Nat.toDigits 10 e.natAbs) = some (Nat.toDigits 10 e.natAbs, []) := by
    have all : ∀ c ∈ Nat.toDigits 10 e.natAbs, c.isDigit :=
      fun c => Nat.isDigit_of_mem_toDigits (by decide) (by decide)
    have whole : scanDigits? (Nat.toDigits 10 e.natAbs ++ []) = some (Nat.toDigits 10 e.natAbs, []) :=
      scanDigits?_append Nat.toDigits_ne_nil all nofun
    rwa [List.append_nil] at whole
  have worth : natural (Nat.toDigits 10 e.natAbs) = e.natAbs := natural_toDigits _
  have mark : (if upper then 'E' else 'e') = 'e' ∨ (if upper then 'E' else 'e') = 'E' := by
    cases upper
    · exact .inl rfl
    · exact .inr rfl
  unfold Decimal.exponentText scanExponent?
  simp only
  rw [if_pos mark]
  by_cases negative : e < 0
  · simp [negative, scanExponentSign, digits, worth, abs_of_neg]
  · simp [negative, scanExponentSign, digits, worth, abs_of_nonneg (Int.not_lt.mp negative)]

/-- In front of digits a sign is read as it has been written. -/
theorem scanSign_signText (field : FieldSpec) (x : Digits) {c : Char} (digit : c.isDigit)
    (rest : List Char) :
    scanSign (Decimal.signText field x ++ c :: rest)
      = (decide (x.negative ∧ ¬ (x.isZero ∧ field.noNegativeZero)), c :: rest) := by
  unfold Decimal.signText
  split
  next minus => rw [decide_eq_true minus]; rfl
  next plus =>
    rw [decide_eq_false plus]
    cases field.sign with
    | none =>
      show scanSign (c :: rest) = (false, c :: rest)
      unfold scanSign
      split
      next same => cases same; cases digit
      next same => cases same; cases digit
      next same => cases same; cases digit
      · rfl
    | plus => rfl
    | blank => rfl

end Reading

namespace Decimal

open Numeral Reading

/-- What stands behind the digits of a field. -/
def suffixText (style : NumberStyle) (exponent : Int) : List Char :=
  match style with
  | .scientific upper => exponentText upper exponent
  | .general upper => if exponent ≠ 0 then exponentText upper exponent else []
  | .percent => ['%']
  | .fixed => []

/-- The exponent that is written behind the digits. -/
def writtenExponent (style : NumberStyle) (exponent : Int) : Option Int :=
  match style with
  | .scientific _ => some exponent
  | .general _ => if exponent ≠ 0 then some exponent else none
  | .percent => none
  | .fixed => none

/-- Behind the digits in front of the point come the others, if any are shown, and what the style
adds. -/
theorem tailText_eq (field : FieldSpec) (fraction : List Char) (exponent : Int) :
    tailText field fraction exponent
      = (if fraction.isEmpty ∧ ¬ field.alwaysPoint then [] else '.' :: fraction)
        ++ suffixText field.style exponent := rfl

theorem head?_exponentText (upper : Bool) (e : Int) :
    (exponentText upper e).head? = some (if upper then 'E' else 'e') := rfl

/-- Neither a digit nor a point stands at the front of what follows the digits. -/
theorem head?_suffixText (style : NumberStyle) (e : Int) :
    ∀ c ∈ (suffixText style e).head?, ¬ c.isDigit ∧ c ≠ '.' := by
  have mark : ∀ upper, ∀ c ∈ (exponentText upper e).head?, ¬ c.isDigit ∧ c ≠ '.' := by
    intro upper c mem
    rw [head?_exponentText] at mem
    cases upper <;> cases mem <;> decide
  cases style with
  | scientific upper => exact mark upper
  | general upper =>
    unfold suffixText
    simp only
    split
    · exact mark upper
    · nofun
  | percent =>
    rintro c mem
    cases mem
    decide
  | fixed => nofun

/-- What a style adds is scanned as an exponent or as a percent sign. -/
theorem scanExponent?_suffixText (style : NumberStyle) (e : Int) :
    scanExponent? (suffixText style e)
      = some (writtenExponent style e, if style = .percent then ['%'] else []) := by
  cases style with
  | scientific upper => exact scanExponent?_exponentText upper e
  | general upper =>
    unfold suffixText writtenExponent
    simp only
    split
    · exact scanExponent?_exponentText upper e
    · rfl
  | percent => rfl
  | fixed => rfl

/-- So the digits in front of the point end where they do. -/
theorem head?_tailText (field : FieldSpec) (fraction : List Char) (e : Int) :
    ∀ c ∈ (tailText field fraction e).head?, ¬ c.isDigit := by
  rw [tailText_eq]
  split
  · exact fun c mem => (head?_suffixText field.style e c mem).1
  · rintro c mem
    cases mem
    decide

/-- A point with the digits behind it is read, or that there is none. -/
theorem scanFraction_tailText (field : FieldSpec) {fraction : List Char}
    (digits : ∀ c ∈ fraction, c.isDigit) (e : Int) :
    scanFraction (tailText field fraction e) = (fraction, suffixText field.style e) := by
  rw [tailText_eq]
  split
  next none =>
    have empty : fraction = [] := List.isEmpty_iff.mp none.1
    rw [empty, List.nil_append]
    unfold scanFraction
    split
    next rest same =>
      have point := head?_suffixText field.style e
      rw [same] at point
      exact absurd rfl (point '.' rfl).2
    · rfl
  · obtain ⟨taken, dropped⟩ := takeWhile_isDigit_append digits
      fun c mem => (head?_suffixText field.style e c mem).1
    rw [List.cons_append]
    unfold scanFraction
    simp only
    rw [taken, dropped]

/-- A field of which nothing is filled up is read back piece by piece. -/
theorem ofText?_written (field : FieldSpec) (x : Digits) {whole fraction : List Char}
    (nonempty : whole ≠ []) (digits : ∀ c ∈ whole ++ fraction, c.isDigit) (e : Int) :
    ofText? (signText field x ++ (whole ++ tailText field fraction e))
      = some {
          numeral := {
            negative := decide (x.negative ∧ ¬ (x.isZero ∧ field.noNegativeZero))
            whole, fraction
            exponent := writtenExponent field.style e }
          percent := field.style = .percent } := by
  obtain ⟨c, cs, rfl⟩ := List.exists_cons_of_ne_nil nonempty
  have whole_digits : ∀ d ∈ c :: cs, d.isDigit := fun d mem =>
    digits d (List.mem_append_left _ mem)
  have fraction_digits : ∀ d ∈ fraction, d.isDigit := fun d mem =>
    digits d (List.mem_append_right _ mem)
  have scanned := scanDigits?_append nonempty whole_digits (head?_tailText field fraction e)
  have fractioned := scanFraction_tailText field fraction_digits e
  have sign := scanSign_signText field x (whole_digits c List.mem_cons_self)
    (cs ++ tailText field fraction e)
  unfold ofText?
  rw [List.cons_append, sign]
  rw [List.cons_append] at scanned
  simp only [scanned, fractioned, scanExponent?_suffixText, Option.bind_eq_bind, Option.bind_some]
  by_cases percent : field.style = .percent
  · simp only [if_pos percent, decide_eq_true percent]
  · simp only [if_neg percent, decide_eq_false percent]

end Decimal

/-! ## Accepted formats -/

namespace FieldSpec

/-- What the fields of all accepted formats have in common. -/
structure Accepted (field : FieldSpec) : Prop where
  separator : ∀ c, field.separator = some c → c = ',' ∨ c = '_'
  precision : ∀ upper p, field.style = .general upper → field.precision = some p → 1 ≤ p

theorem Components.accepted (x : Components) : x.spec.Accepted where
  separator := x.separator_eq
  precision upper p style same := by
    obtain ⟨digits, -, rfl⟩ := Option.map_eq_some_iff.mp same
    have general : x.numberStyle = .general upper := style
    rw [general]
    exact Nat.le_max_left 1 _

end FieldSpec

/-- A format that can be read asks only for what a field can show. -/
theorem DecimalFormat.accepted_of_parse? {format : String} {f : DecimalFormat}
    (h : parse? format = some f) : f.field.Accepted := by
  obtain ⟨⟨before, components, after⟩, -, rfl⟩ := exists_spelling_of_ofList? h
  cases components with
  | none => exact ⟨nofun, nofun⟩
  | some x => exact x.accepted

example : (DecimalFormat.parse? "\x7b:,.0\x7d").map (·.field.precision) = some (some 1) := by decide

namespace Decimal

open Numeral Reading

/-! ## The field of a decimal -/

/-- The digits that a field shows of a decimal. -/
def digitsIn (field : FieldSpec) (value : Decimal) : Digits :=
  shownDigits field (.ofDecimal value)

/-- The digits in front of the point of a field and behind it. -/
def partsIn (field : FieldSpec) (value : Decimal) : List Char × List Char :=
  splitAtPoint (Nat.toDigits 10 (digitsIn field value).coefficient)
    (digitsBeforePoint field (digitsIn field value))

/-- What stands behind the digits in front of the point. -/
def tailIn (field : FieldSpec) (value : Decimal) : List Char :=
  let x := digitsIn field value
  tailText field (partsIn field value).2 (x.exponent + x.length - digitsBeforePoint field x)

/-- The sign of a field. -/
def signIn (field : FieldSpec) (value : Decimal) : List Char :=
  signText field (digitsIn field value)

/-- What follows the sign and what a field is filled with. -/
def bodyIn (field : FieldSpec) (value : Decimal) : List Char :=
  let tail := tailIn field value
  let width :=
    if field.zeroFill then field.width - (tail.length + (signIn field value).length) else 0
  grouped (partsIn field value).1 field.separator width ++ tail

/-- A field is its sign and its body, filled up to the width. -/
theorem render_eq_aligned (field : FieldSpec) (value : Decimal) :
    render field value = aligned field (signIn field value) (bodyIn field value) := rfl

variable {field : FieldSpec} {value : Decimal}

theorem split_partsIn (field : FieldSpec) (value : Decimal) :
    Split (Nat.toDigits 10 (digitsIn field value).coefficient)
      (digitsBeforePoint field (digitsIn field value))
      (partsIn field value).1 (partsIn field value).2 :=
  split_splitAtPoint Nat.toDigits_ne_nil _

/-- Both parts of a number consist of digits. -/
theorem isDigit_of_mem_partsIn :
    ∀ c ∈ (partsIn field value).1 ++ (partsIn field value).2, c.isDigit := by
  intro c mem
  rcases (split_partsIn field value).of_mem c mem with rfl | digit
  · rfl
  · exact Nat.isDigit_of_mem_toDigits (by decide) (by decide) digit

/-! ### Characters of a field -/

/-- Digits separate no groups. -/
theorem not_separator_of_isDigit {c : Char} (digit : c.isDigit) : c ≠ ',' ∧ c ≠ '_' := by
  constructor <;> rintro rfl <;> cases digit

/-- Separators stand between digits alone: neither the sign nor what is behind the digits has
one. -/
theorem not_separator_of_mem_signText {x : Digits} {c : Char} (mem : c ∈ signText field x) :
    c ≠ ',' ∧ c ≠ '_' := by
  unfold signText at mem
  split at mem
  · cases List.mem_singleton.mp mem
    decide
  · split at mem
    · cases mem
    · cases List.mem_singleton.mp mem
      decide
    · cases List.mem_singleton.mp mem
      decide

theorem not_separator_of_mem_exponentText {upper : Bool} {e : Int} {c : Char}
    (mem : c ∈ exponentText upper e) : c ≠ ',' ∧ c ≠ '_' := by
  rcases List.mem_cons.mp mem with rfl | mem
  · cases upper <;> decide
  · rcases List.mem_cons.mp mem with rfl | mem
    · split <;> decide
    · exact not_separator_of_isDigit (Nat.isDigit_of_mem_toDigits (by decide) (by decide) mem)

theorem not_separator_of_mem_suffixText {style : NumberStyle} {e : Int} {c : Char}
    (mem : c ∈ suffixText style e) : c ≠ ',' ∧ c ≠ '_' := by
  unfold suffixText at mem
  split at mem
  · exact not_separator_of_mem_exponentText mem
  · split at mem
    · exact not_separator_of_mem_exponentText mem
    · cases mem
  · cases List.mem_singleton.mp mem
    decide
  · cases mem

theorem not_separator_of_mem_tailIn {c : Char} (mem : c ∈ tailIn field value) :
    c ≠ ',' ∧ c ≠ '_' := by
  unfold tailIn at mem
  simp only at mem
  rw [tailText_eq, List.mem_append] at mem
  rcases mem with mem | mem
  · split at mem
    · cases mem
    · rcases List.mem_cons.mp mem with rfl | mem
      · decide
      · exact not_separator_of_isDigit (isDigit_of_mem_partsIn c (List.mem_append_right _ mem))
  · exact not_separator_of_mem_suffixText mem

/-! ### What a field says -/

theorem getD_writtenExponent_general (upper : Bool) (e : Int) :
    (writtenExponent (.general upper) e).getD 0 = e := by
  unfold writtenExponent
  simp only
  split
  · rfl
  next zero => exact (not_not.mp zero).symm

/-- Where no exponent is written the digits stand down to the unit. -/
theorem getD_writtenExponent (field : FieldSpec) (x : Digits) :
    (writtenExponent field.style (x.exponent + x.length - digitsBeforePoint field x)).getD 0
      = x.exponent + x.length - digitsBeforePoint field x := by
  cases style : field.style with
  | scientific => rfl
  | general upper => exact getD_writtenExponent_general upper _
  | percent | fixed =>
    unfold digitsBeforePoint
    rw [style]
    show (0 : Int) = x.exponent + x.length - (x.exponent + x.length)
    omega

/-- The digits in front of the point and behind it are worth what all of them are. -/
theorem value_of_split (field : FieldSpec) (x : Digits) {whole fraction : List Char}
    (split : Split (Nat.toDigits 10 x.coefficient) (digitsBeforePoint field x) whole fraction)
    (zeros : Nat) :
    Numeral.value {
        negative := decide (x.negative ∧ ¬ (x.isZero ∧ field.noNegativeZero))
        whole := List.replicate zeros '0' ++ whole
        fraction
        exponent := writtenExponent field.style (x.exponent + x.length - digitsBeforePoint field x) }
      = x.value := by
  have ten : (10 : ℚ) ≠ 0 := by norm_num
  obtain ⟨-, length, worth, -⟩ := split
  have count : (Nat.toDigits 10 x.coefficient).length = x.length := rfl
  rw [natural_toDigits, count] at worth
  rw [count] at length
  have coefficient : natural (List.replicate zeros '0' ++ whole ++ fraction)
      = tenPow (digitsBeforePoint field x - x.length).toNat * x.coefficient := by
    rw [List.append_assoc, natural_zeros_append, worth]
  have power : ((digitsBeforePoint field x - x.length).toNat : ℤ)
      + (x.exponent + x.length - digitsBeforePoint field x - fraction.length) = x.exponent := by
    rw [length]
    omega
  unfold Numeral.value Numeral.coefficient Numeral.lastExponent
  simp only
  rw [coefficient, getD_writtenExponent, Nat.cast_mul, tenPow_cast, mul_right_comm, ← zpow_add₀ ten,
    power, mul_comm]
  by_cases zero : x.isZero
  · rw [Digits.value_of_isZero zero, Digits.isZero_iff.mp zero, Nat.cast_zero, zero_mul, signed_zero]
  · have sign : decide (x.negative ∧ ¬ (x.isZero ∧ field.noNegativeZero)) = x.negative := by
      rw [Bool.eq_iff_iff, decide_eq_true_iff]
      exact and_iff_left fun both => zero both.1
    rw [sign]
    rfl

/-- Without its separators a field is read as the digits it shows, perhaps with zeros in front. -/
theorem reading_of_field (accepted : field.Accepted) (value : Decimal) :
    ∃ zeros r, ofText? (withoutSeparators field.separator (signIn field value ++ bodyIn field value))
        = some r ∧
      r.percent = decide (field.style = .percent) ∧
      r.numeral.whole = List.replicate zeros '0' ++ (partsIn field value).1 ∧
      r.numeral.fraction = (partsIn field value).2 ∧
      r.numeral.value = (digitsIn field value).value := by
  have apart : ∀ {c}, c ≠ ',' ∧ c ≠ '_' → field.separator ≠ some c := fun other same =>
    (accepted.separator _ same).elim other.1 other.2
  have sign : withoutSeparators field.separator (signIn field value) = signIn field value :=
    withoutSeparators_eq_self fun c mem => apart (not_separator_of_mem_signText mem)
  have tail : withoutSeparators field.separator (tailIn field value) = tailIn field value :=
    withoutSeparators_eq_self fun c mem => apart (not_separator_of_mem_tailIn mem)
  have digits : ∀ c, c = '0' ∨ c ∈ (partsIn field value).1 → c.isDigit := by
    rintro c (rfl | mem)
    · rfl
    · exact isDigit_of_mem_partsIn c (List.mem_append_left _ mem)
  obtain ⟨zeros, whole⟩ := withoutSeparators_grouped
    (fun c mem => apart (not_separator_of_isDigit (digits c mem)))
    (if field.zeroFill then field.width - ((tailIn field value).length + (signIn field value).length)
      else 0)
  have nonempty : List.replicate zeros '0' ++ (partsIn field value).1 ≠ [] :=
    List.append_ne_nil_of_right_ne_nil _ (split_partsIn field value).whole_ne_nil
  have all : ∀ c ∈ List.replicate zeros '0' ++ (partsIn field value).1 ++ (partsIn field value).2,
      c.isDigit := by
    intro c mem
    rw [List.append_assoc, List.mem_append] at mem
    rcases mem with zero | mem
    · exact digits c (.inl (List.eq_of_mem_replicate zero))
    · exact isDigit_of_mem_partsIn c mem
  have text : withoutSeparators field.separator (signIn field value ++ bodyIn field value)
      = signIn field value ++ ((List.replicate zeros '0' ++ (partsIn field value).1)
        ++ tailIn field value) := by
    rw [withoutSeparators_append, bodyIn, withoutSeparators_append, sign, tail, whole]
  have read := ofText?_written field (digitsIn field value) nonempty all
    ((digitsIn field value).exponent + (digitsIn field value).length
      - digitsBeforePoint field (digitsIn field value))
  exact ⟨zeros, _, (congrArg ofText? text).trans read, rfl, rfl, rfl,
    value_of_split field _ (split_partsIn field value) zeros⟩

end Decimal

end EntityJson
