import EntityJson.Decimal.Digits
import Mathlib.Algebra.Order.Field.Power
import Mathlib.Algebra.Order.Ring.Rat
import Mathlib.Tactic.FieldSimp
import Mathlib.Tactic.Linarith
import Mathlib.Tactic.Positivity
import Mathlib.Tactic.Ring

/-!
# Rounding digits

A number is rounded to a multiple of a **unit**, the nearest one, and the even one of two that are
equally near (`RoundsTo`). To round it to a number of digits is to round it to the power of ten that the
last of them stands for (`RoundsToDigits`). Both say which number results, and no other does
(`RoundsTo.unique`, `RoundsToDigits.unique`).

`Digits.rescale` rounds to the power of ten of its exponent (`Digits.roundsTo_rescale`), and
`Digits.roundSignificant` to a number of digits (`Digits.roundsToDigits_roundSignificant`), which the
coefficient then has (`Digits.roundSignificant_spec`). A coefficient that is rescaled to so many digits
lies between two powers of ten, so a carry gives the upper one of them, of which a zero is dropped.
-/

namespace EntityJson

/-! ## Rounding to a unit and to a number of digits -/

/-- The multiple of a unit nearest to a number, and the even one of two that are equally near. -/
def RoundsTo (unit x y : ℚ) : Prop :=
  ∃ k : ℤ, y = k * unit ∧ 2 * |x - y| ≤ unit ∧ (2 * |x - y| = unit → Even k)

/-- A number rounded to some digits, of which the first is not zero. Zero stays what it is. -/
def RoundsToDigits (places : ℕ) (x y : ℚ) : Prop :=
  x = 0 ∧ y = 0 ∨
    ∃ e : ℤ, 10 ^ e ≤ |x| ∧ |x| < 10 ^ (e + 1) ∧ RoundsTo (10 ^ (e + 1 - places)) x y

/-- The number with a sign. -/
def signed (negative : Bool) (x : ℚ) : ℚ :=
  if negative then -x else x

theorem signed_zero (negative : Bool) : signed negative 0 = 0 := by
  cases negative
  · rfl
  · exact neg_zero

namespace RoundsTo

variable {unit x y z : ℚ}

/-- A multiple of the unit is rounded to itself. -/
theorem of_eq_mul (pos : 0 < unit) {k : ℤ} (h : x = k * unit) : RoundsTo unit x x := by
  have gap : 2 * |x - x| = 0 := by rw [sub_self, abs_zero, mul_zero]
  exact ⟨k, h, gap.trans_le pos.le, fun tie => absurd (gap.symm.trans tie) pos.ne⟩

/-- Rounding does not favour a sign. -/
theorem neg (h : RoundsTo unit x y) : RoundsTo unit (-x) (-y) := by
  obtain ⟨k, multiple, near, even⟩ := h
  have gap : |-x - -y| = |x - y| := by rw [neg_sub_neg, abs_sub_comm]
  refine ⟨-k, ?_, gap ▸ near, fun tie => (even (gap ▸ tie)).neg⟩
  rw [multiple, Int.cast_neg, neg_mul]

/-- Nor does it depend on the scale: number and unit may be multiplied alike. -/
theorem scale (h : RoundsTo unit x y) {c : ℚ} (pos : 0 < c) :
    RoundsTo (unit * c) (x * c) (y * c) := by
  obtain ⟨k, multiple, near, even⟩ := h
  have gap : 2 * |x * c - y * c| = 2 * |x - y| * c := by
    rw [← sub_mul, abs_mul, abs_of_pos pos, mul_assoc]
  refine ⟨k, ?_, ?_, fun tie => even ?_⟩
  · rw [multiple, mul_assoc]
  · rw [gap]
    exact mul_le_mul_of_nonneg_right near pos.le
  · exact mul_right_cancel₀ pos.ne' (gap.symm.trans tie)

/-- Two multiples that are both nearest lie next to each other, and only one of them is even. -/
theorem unique (pos : 0 < unit) (hy : RoundsTo unit x y) (hz : RoundsTo unit x z) : y = z := by
  obtain ⟨k, rfl, nearY, evenY⟩ := hy
  obtain ⟨m, rfl, nearZ, evenZ⟩ := hz
  by_contra differ
  have apart : k ≠ m := fun same => differ (same ▸ rfl)
  have distance : |(k : ℚ) * unit - m * unit| = |((k - m : ℤ) : ℚ)| * unit := by
    rw [Int.cast_sub, ← sub_mul, abs_mul, abs_of_pos pos]
  have triangle : |(k : ℚ) * unit - m * unit| ≤ |x - k * unit| + |x - m * unit| := by
    rw [abs_sub_comm x (k * unit)]
    exact abs_sub_le _ x _
  have atLeast : (1 : ℚ) ≤ |((k - m : ℤ) : ℚ)| := by
    exact_mod_cast Int.one_le_abs (sub_ne_zero.mpr apart)
  have far : unit ≤ |((k - m : ℤ) : ℚ)| * unit := le_mul_of_one_le_left pos.le atLeast
  -- so both are half a unit away, and the multiples follow each other
  have tieY : 2 * |x - k * unit| = unit := by linarith
  have tieZ : 2 * |x - m * unit| = unit := by linarith
  have next : |((k - m : ℤ) : ℚ)| = 1 := by
    have : |((k - m : ℤ) : ℚ)| * unit = 1 * unit := by linarith
    exact mul_right_cancel₀ pos.ne' this
  have odd : |k - m| = 1 := by exact_mod_cast next
  have even : Even (k - m) := (evenY tieY).sub (evenZ tieZ)
  obtain ⟨j, hj⟩ := even
  rcases (abs_eq zero_le_one).mp odd with h | h <;> omega

end RoundsTo

theorem RoundsTo.signed {unit x y : ℚ} (h : RoundsTo unit x y) (negative : Bool) :
    RoundsTo unit (signed negative x) (signed negative y) := by
  cases negative
  · exact h
  · exact h.neg

namespace RoundsToDigits

variable {places : ℕ} {x y z : ℚ}

/-- The first digit of a number has one exponent only. -/
theorem unique (hy : RoundsToDigits places x y) (hz : RoundsToDigits places x z) : y = z := by
  have ten : (1 : ℚ) < 10 := by norm_num
  have nonzero : ∀ e : ℤ, 10 ^ e ≤ |x| → x ≠ 0 := fun e low =>
    abs_pos.mp (lt_of_lt_of_le (zpow_pos (by norm_num) e) low)
  obtain ⟨zero, rfl⟩ | ⟨e, low, high, rounds⟩ := hy
  · obtain ⟨-, rfl⟩ | ⟨e, low, -⟩ := hz
    · rfl
    · exact absurd zero (nonzero e low)
  · obtain ⟨zero, -⟩ | ⟨e', low', high', rounds'⟩ := hz
    · exact absurd zero (nonzero e low)
    · have le : e < e' + 1 := (zpow_lt_zpow_iff_right₀ ten).mp (low.trans_lt high')
      have ge : e' < e + 1 := (zpow_lt_zpow_iff_right₀ ten).mp (low'.trans_lt high)
      obtain rfl : e = e' := by omega
      exact rounds.unique (zpow_pos (by norm_num) _) rounds'

end RoundsToDigits

/-! ## The rounded quotient -/

theorem tenPow_eq (k : ℕ) : tenPow k = 10 ^ k := rfl

/-- Among rational numbers powers of ten may have negative exponents. -/
theorem tenPow_cast (k : ℕ) : (tenPow k : ℚ) = 10 ^ (k : ℤ) := by
  rw [tenPow_eq, Nat.cast_pow, zpow_natCast]
  rfl

section Quotient

variable {n d m : ℕ}

/-- A quotient is not rounded below a number that it reaches, nor above one that it does not exceed. -/
theorem le_divHalfEven (pos : 0 < d) (h : d * m ≤ n) : m ≤ divHalfEven n d := by
  have below : m ≤ n / d := (Nat.le_div_iff_mul_le pos).mpr (Nat.mul_comm d m ▸ h)
  unfold divHalfEven
  simp only
  split_ifs <;> omega

theorem divHalfEven_le (pos : 0 < d) (h : n ≤ d * m) : divHalfEven n d ≤ m := by
  have split := Nat.div_add_mod n d
  have above : n / d ≤ m := Nat.div_le_of_le_mul h
  rcases above.lt_or_eq with less | same
  · unfold divHalfEven
    simp only
    split_ifs <;> omega
  · -- nothing is left over, so nothing is added
    have none : n % d = 0 := by rw [same] at split; omega
    unfold divHalfEven
    simp only [none, same]
    rw [if_pos (by omega)]

/-- Of less than a half nothing is left. -/
theorem divHalfEven_eq_zero (h : 2 * n < d) : divHalfEven n d = 0 := by
  have none : n / d = 0 := Nat.div_eq_of_lt (by omega)
  have all : n % d = n := Nat.mod_eq_of_lt (by omega)
  unfold divHalfEven
  simp only [none, all]
  rw [if_pos h]

/-- A quotient half-way between two numbers goes to an even one. -/
theorem even_divHalfEven_of_tie (pos : 0 < d)
    (tie : 2 * (d * divHalfEven n d) = 2 * n + d ∨ 2 * n = 2 * (d * divHalfEven n d) + d) :
    Even (divHalfEven n d) := by
  have split := Nat.div_add_mod n d
  have rest := Nat.mod_lt n pos
  have next : d * (n / d + 1) = d * (n / d) + d := Nat.mul_succ d (n / d)
  rw [Nat.even_iff]
  revert tie
  unfold divHalfEven
  simp only
  split_ifs <;> omega

/-- The quotient is rounded: as a multiple of the divisor it is nearest to the dividend. -/
theorem roundsTo_divHalfEven (pos : 0 < d) : RoundsTo d n (divHalfEven n d * d : ℕ) := by
  generalize quotient : divHalfEven n d = q
  have below : (2 * (d * q) : ℚ) ≤ 2 * n + d := by
    exact_mod_cast quotient ▸ two_mul_divHalfEven_le n d pos
  have above : (2 * n : ℚ) ≤ 2 * (d * q) + d := by
    exact_mod_cast quotient ▸ le_two_mul_divHalfEven n d pos
  have multiple : ((q * d : ℕ) : ℚ) = d * q := by rw [Nat.cast_mul, mul_comm]
  refine ⟨q, ?_, ?_, fun tie => ?_⟩
  · rw [Nat.cast_mul, Int.cast_natCast]
  · have near : |(n : ℚ) - (q * d : ℕ)| ≤ d / 2 := by
      rw [multiple, abs_le]
      constructor <;> linarith
    linarith
  · have half : |(n : ℚ) - (q * d : ℕ)| = d / 2 := by linarith
    rw [multiple] at half
    have even : Even q := by
      rw [← quotient]
      refine even_divHalfEven_of_tie pos (quotient.symm ▸ ?_)
      rcases (abs_eq (by positivity)).mp half with less | more
      · right
        exact_mod_cast (by linarith : (2 * n : ℚ) = 2 * (d * q) + d)
      · left
        exact_mod_cast (by linarith : (2 * (d * q) : ℚ) = 2 * n + d)
    exact_mod_cast even

end Quotient

/-! ## Digits as numbers -/

/-- A number has so many digits at most if it is below that power of ten. -/
theorem digitCount_le_iff {n k : ℕ} (pos : 0 < k) : digitCount n ≤ k ↔ n < tenPow k :=
  Nat.length_toDigits_le_iff (by decide) pos

theorem lt_tenPow_digitCount (n : ℕ) : n < tenPow (digitCount n) :=
  (digitCount_le_iff (digitCount_pos n)).mp le_rfl

/-- A number between two powers of ten has as many digits as the greater one has zeros. -/
theorem digitCount_eq {n k : ℕ} (low : tenPow k ≤ n) (high : n < tenPow (k + 1)) :
    digitCount n = k + 1 := by
  have atMost : digitCount n ≤ k + 1 := (digitCount_le_iff k.succ_pos).mpr high
  rcases k.eq_zero_or_pos with rfl | pos
  · have := digitCount_pos n
    omega
  · have atLeast : ¬ digitCount n ≤ k := fun le =>
      absurd ((digitCount_le_iff pos).mp le) (Nat.not_lt.mpr low)
    omega

theorem tenPow_lt_succ (k : ℕ) : tenPow k < tenPow (k + 1) := by
  have := tenPow_pos k
  rw [tenPow_succ]
  omega

theorem digitCount_tenPow (k : ℕ) : digitCount (tenPow k) = k + 1 :=
  digitCount_eq le_rfl (tenPow_lt_succ k)

/-- And it is not below the power of ten in front, unless it is zero. -/
theorem tenPow_le_of_digitCount {n k : ℕ} (nonzero : n ≠ 0) (h : digitCount n = k + 1) :
    tenPow k ≤ n := by
  rcases k.eq_zero_or_pos with rfl | pos
  · exact Nat.one_le_iff_ne_zero.mpr nonzero
  · by_contra less
    have := (digitCount_le_iff pos).mpr (Nat.not_le.mp less)
    omega

/-- A power of ten appends so many zeros. -/
theorem digitCount_mul_tenPow {n : ℕ} (nonzero : n ≠ 0) (k : ℕ) :
    digitCount (n * tenPow k) = digitCount n + k := by
  obtain ⟨m, count⟩ : ∃ m, digitCount n = m + 1 :=
    ⟨_, (Nat.sub_add_cancel (digitCount_pos n)).symm⟩
  have low : tenPow m ≤ n := tenPow_le_of_digitCount nonzero count
  have high : n < tenPow (m + 1) := count ▸ lt_tenPow_digitCount n
  have shifted : digitCount (n * tenPow k) = m + k + 1 := by
    refine digitCount_eq ?_ ?_
    · rw [tenPow_eq, Nat.pow_add]
      exact Nat.mul_le_mul_right _ low
    · rw [Nat.add_right_comm, tenPow_eq (m + 1 + k), Nat.pow_add]
      exact Nat.mul_lt_mul_of_pos_right high (tenPow_pos k)
  omega

namespace Digits

variable {x : Digits} {e : ℤ}

/-- The number without its sign. -/
def magnitude (x : Digits) : ℚ :=
  x.coefficient * 10 ^ x.exponent

/-- The number that digits stand for. -/
def value (x : Digits) : ℚ :=
  signed x.negative x.magnitude

theorem isZero_iff : x.isZero ↔ x.coefficient = 0 := decide_eq_true_iff

theorem length_pos (x : Digits) : 0 < x.length := digitCount_pos x.coefficient

/-! ### Rescaling -/

/-- Whatever is done to the digits, the exponent becomes the one that is asked for. -/
theorem exponent_rescale (x : Digits) (e : ℤ) : (x.rescale e).exponent = e := by
  unfold rescale
  simp only
  split_ifs <;> rfl

/-- The sign stays, also where nothing but zero is left. -/
theorem negative_rescale (x : Digits) (e : ℤ) : (x.rescale e).negative = x.negative := by
  unfold rescale
  simp only
  split_ifs <;> rfl

/-- Zeros are appended to reach a lower power of ten. -/
theorem coefficient_rescale_of_le (h : e ≤ x.exponent) :
    (x.rescale e).coefficient = x.coefficient * tenPow (x.exponent - e).toNat := by
  unfold rescale
  split
  next zero =>
    show x.coefficient = _
    rw [isZero_iff.mp zero, Nat.zero_mul]
  · rfl

/-- Digits are rounded off to reach a higher one, all of them if there are too few. -/
theorem coefficient_rescale_of_lt (h : x.exponent < e) :
    (x.rescale e).coefficient = divHalfEven x.coefficient (tenPow (e - x.exponent).toNat) := by
  unfold rescale
  split
  next zero =>
    have none : 2 * 0 < tenPow (e - x.exponent).toNat := tenPow_pos _
    show x.coefficient = _
    rw [isZero_iff.mp zero, divHalfEven_eq_zero none]
  · rw [if_neg (Int.not_le.mpr h)]
    simp only
    split
    next short =>
      obtain ⟨k, dropped⟩ : ∃ k, (e - x.exponent).toNat = k + 1 :=
        ⟨_, (Nat.sub_add_cancel (by omega)).symm⟩
      rw [dropped] at short ⊢
      have less : x.coefficient < tenPow k := (lt_tenPow_digitCount _).trans_le
        (Nat.pow_le_pow_right (by decide) (Nat.le_of_lt_succ short))
      refine (divHalfEven_eq_zero ?_).symm
      rw [tenPow_succ]
      omega
    · rfl

/-- A zero is written with one digit. -/
theorem length_of_isZero (zero : x.isZero) : x.length = 1 := by
  rw [length, isZero_iff.mp zero]
  rfl

/-- Appended zeros lead down to the exponent. -/
theorem length_rescale_of_le (nonzero : ¬ x.isZero) (h : e ≤ x.exponent) :
    ((x.rescale e).length : ℤ) = x.exponent + x.length - e := by
  rw [length, coefficient_rescale_of_le h,
    digitCount_mul_tenPow (isZero_iff.not.mp nonzero), ← length]
  omega

/-- Rounding off leaves no more digits than there were. -/
theorem length_rescale_of_lt (h : x.exponent < e) : (x.rescale e).length ≤ x.length := by
  have pos := tenPow_pos (e - x.exponent).toNat
  have le : (x.rescale e).coefficient ≤ x.coefficient := by
    rw [coefficient_rescale_of_lt h]
    exact divHalfEven_le pos (Nat.le_mul_of_pos_left _ pos)
  exact (digitCount_le_iff x.length_pos).mpr (le.trans_lt (lt_tenPow_digitCount _))

/-- Appending zeros does not change the number. -/
theorem magnitude_rescale_of_le (h : e ≤ x.exponent) : (x.rescale e).magnitude = x.magnitude := by
  have ten : (10 : ℚ) ≠ 0 := by norm_num
  have shift : ((x.exponent - e).toNat : ℤ) + e = x.exponent := by omega
  rw [magnitude, coefficient_rescale_of_le h, exponent_rescale, Nat.cast_mul, tenPow_cast, mul_assoc,
    ← zpow_add₀ ten, shift]
  rfl

/-- Rescaling rounds to the power of ten that the last digit stands for. -/
theorem roundsTo_rescale (x : Digits) (e : ℤ) : RoundsTo (10 ^ e) x.value (x.rescale e).value := by
  have ten : (10 : ℚ) ≠ 0 := by norm_num
  have unit : (0 : ℚ) < 10 ^ e := zpow_pos (by norm_num) e
  suffices RoundsTo (10 ^ e) x.magnitude (x.rescale e).magnitude by
    have signed := this.signed x.negative
    rw [value, value, negative_rescale]
    exact signed
  rcases le_or_gt e x.exponent with h | h
  · have multiple : (x.rescale e).magnitude = ((x.rescale e).coefficient : ℤ) * 10 ^ e := by
      rw [magnitude, exponent_rescale, Int.cast_natCast]
    rw [← magnitude_rescale_of_le h]
    exact .of_eq_mul unit multiple
  · have shift : ((e - x.exponent).toNat : ℤ) + x.exponent = e := by omega
    have power : (tenPow (e - x.exponent).toNat : ℚ) * 10 ^ x.exponent = 10 ^ e := by
      rw [tenPow_cast, ← zpow_add₀ ten, shift]
    have rounds := (roundsTo_divHalfEven (n := x.coefficient)
      (tenPow_pos (e - x.exponent).toNat)).scale (zpow_pos (by norm_num : (0 : ℚ) < 10) x.exponent)
    rw [Nat.cast_mul, mul_assoc, power] at rounds
    have rescaled : (x.rescale e).magnitude
        = divHalfEven x.coefficient (tenPow (e - x.exponent).toNat) * 10 ^ e := by
      rw [magnitude, coefficient_rescale_of_lt h, exponent_rescale]
    rw [rescaled]
    exact rounds

/-! ### Rounding to a number of digits -/

/-- The place in front of the first digit. -/
theorem leading_eq (x : Digits) : x.leading + 1 = x.exponent + x.length := by
  unfold leading
  omega

/-- Rescaled to so many digits, a coefficient lies between the power of ten below them and the one above
them, which it reaches by a carry. -/
theorem coefficient_rescale_mem (nonzero : x.coefficient ≠ 0) (p : ℕ) :
    tenPow p ≤ (x.rescale (x.leading + 1 - (p + 1 : ℕ))).coefficient ∧
      (x.rescale (x.leading + 1 - (p + 1 : ℕ))).coefficient ≤ tenPow (p + 1) := by
  obtain ⟨n, count⟩ : ∃ n, x.length = n + 1 := ⟨_, (Nat.sub_add_cancel x.length_pos).symm⟩
  have low : tenPow n ≤ x.coefficient := tenPow_le_of_digitCount nonzero count
  have high : x.coefficient < tenPow (n + 1) := count ▸ lt_tenPow_digitCount x.coefficient
  rw [leading_eq, count]
  rcases le_or_gt n p with enough | few
  · obtain ⟨k, rfl⟩ := Nat.exists_eq_add_of_le enough
    have appended : (x.exponent - (x.exponent + (n + 1 : ℕ) - (n + k + 1 : ℕ))).toNat = k := by omega
    rw [coefficient_rescale_of_le (by omega), appended]
    constructor
    · calc tenPow (n + k) = tenPow n * tenPow k := Nat.pow_add 10 n k
        _ ≤ x.coefficient * tenPow k := Nat.mul_le_mul_right _ low
    · calc x.coefficient * tenPow k ≤ tenPow (n + 1) * tenPow k := Nat.mul_le_mul_right _ high.le
        _ = tenPow (n + 1 + k) := (Nat.pow_add 10 (n + 1) k).symm
        _ = tenPow (n + k + 1) := congrArg tenPow (Nat.add_right_comm n 1 k)
  · obtain ⟨k, rfl⟩ := Nat.exists_eq_add_of_lt few
    have dropped : (x.exponent + (p + k + 1 + 1 : ℕ) - (p + 1 : ℕ) - x.exponent).toNat = k + 1 := by
      omega
    rw [coefficient_rescale_of_lt (by omega), dropped]
    constructor
    · refine le_divHalfEven (tenPow_pos _) (le_trans (le_of_eq ?_) low)
      rw [tenPow_eq, tenPow_eq, tenPow_eq, ← Nat.pow_add]
      congr 1
      omega
    · refine divHalfEven_le (tenPow_pos _) (le_trans high.le (le_of_eq ?_))
      rw [tenPow_eq, tenPow_eq, tenPow_eq, ← Nat.pow_add]
      congr 1
      omega

/-- Rescaled to so many digits, a number has no fewer. -/
theorem le_length_rescale_last (nonzero : x.coefficient ≠ 0) (places : ℕ) :
    places ≤ (x.rescale (x.leading + 1 - places)).length := by
  rcases places with _ | p
  · exact Nat.zero_le _
  · obtain ⟨low, -⟩ := coefficient_rescale_mem nonzero p
    exact (Nat.pow_lt_pow_iff_right (by decide)).mp (low.trans_lt (lt_tenPow_digitCount _))

/-- A power of ten has one digit too many, which is a zero and is dropped. -/
theorem rescale_of_carry {p : ℕ} (carried : x.coefficient = tenPow (p + 1)) :
    (x.rescale (x.leading + 1 - (p + 1 : ℕ))).coefficient = tenPow p ∧
      (x.rescale (x.leading + 1 - (p + 1 : ℕ))).value = x.value := by
  have ten : (10 : ℚ) ≠ 0 := by norm_num
  have count : x.length = p + 1 + 1 := by rw [length, carried, digitCount_tenPow]
  have next : x.leading + 1 - (p + 1 : ℕ) = x.exponent + 1 := by
    rw [leading_eq, count]
    omega
  have one : (x.exponent + 1 - x.exponent).toNat = 1 := by omega
  have coefficient : (x.rescale (x.exponent + 1)).coefficient = tenPow p := by
    rw [coefficient_rescale_of_lt (by omega), one, carried]
    exact le_antisymm (divHalfEven_le (tenPow_pos 1) (tenPow_succ p).le)
      (le_divHalfEven (tenPow_pos 1) (tenPow_succ p).ge)
  rw [next]
  refine ⟨coefficient, ?_⟩
  have magnitude : (x.rescale (x.exponent + 1)).magnitude = x.magnitude := by
    rw [magnitude, magnitude, coefficient, carried, exponent_rescale, tenPow_succ, zpow_add₀ ten,
      Nat.cast_mul, zpow_one]
    push_cast
    ring
  rw [value, value, negative_rescale, magnitude]

/-- A number other than zero that is rounded to some digits has as many, and is rounded to the power of
ten that the last of them stands for. -/
theorem roundSignificant_spec (nonzero : x.coefficient ≠ 0) {places : ℕ} (pos : 0 < places) :
    (x.roundSignificant places).length = places ∧
      (x.roundSignificant places).coefficient ≠ 0 ∧
      RoundsTo (10 ^ (x.leading + 1 - places)) x.value (x.roundSignificant places).value := by
  obtain ⟨p, rfl⟩ := Nat.exists_eq_succ_of_ne_zero pos.ne'
  obtain ⟨low, high⟩ := coefficient_rescale_mem nonzero p
  have rounds := roundsTo_rescale x (x.leading + 1 - (p + 1 : ℕ))
  have exponent := exponent_rescale x (x.leading + 1 - (p + 1 : ℕ))
  have unfolded : x.roundSignificant (p + 1 : ℕ)
      = if (x.rescale (x.leading + 1 - (p + 1 : ℕ))).leading ≠ x.leading then
          (x.rescale (x.leading + 1 - (p + 1 : ℕ))).rescale
            ((x.rescale (x.leading + 1 - (p + 1 : ℕ))).leading + 1 - (p + 1 : ℕ))
        else x.rescale (x.leading + 1 - (p + 1 : ℕ)) := by
    have := isZero_iff.not.mpr nonzero
    unfold roundSignificant
    rw [if_neg this]
  rw [unfolded]
  generalize x.rescale (x.leading + 1 - (p + 1 : ℕ)) = rounded at *
  have leading := leading_eq rounded
  rcases high.lt_or_eq with less | carried
  · have count : rounded.length = p + 1 := digitCount_eq low less
    have same : rounded.leading = x.leading := by omega
    rw [if_neg (not_not.mpr same)]
    exact ⟨count, (lt_of_lt_of_le (tenPow_pos p) low).ne', rounds⟩
  · have count : rounded.length = p + 1 + 1 := by rw [length, carried, digitCount_tenPow]
    have higher : rounded.leading ≠ x.leading := by omega
    rw [if_pos higher]
    obtain ⟨coefficient, value⟩ := rescale_of_carry carried
    have count : (rounded.rescale (rounded.leading + 1 - (p + 1 : ℕ))).length = p + 1 := by
      rw [length, coefficient, digitCount_tenPow]
    exact ⟨count, coefficient ▸ (tenPow_pos p).ne', value.symm ▸ rounds⟩

/-- The sign has no part in the magnitude. -/
theorem abs_value (x : Digits) : |x.value| = x.magnitude := by
  have nonneg : 0 ≤ x.magnitude := by
    unfold magnitude
    positivity
  unfold value signed
  split
  · rw [abs_neg, abs_of_nonneg nonneg]
  · exact abs_of_nonneg nonneg

theorem value_of_isZero (zero : x.isZero) : x.value = 0 := by
  rw [value, magnitude, isZero_iff.mp zero, Nat.cast_zero, zero_mul, signed_zero]

/-- The exponent of the first digit tells between which powers of ten a number lies. -/
theorem magnitude_mem (nonzero : x.coefficient ≠ 0) :
    10 ^ x.leading ≤ x.magnitude ∧ x.magnitude < 10 ^ (x.leading + 1) := by
  have ten : (10 : ℚ) ≠ 0 := by norm_num
  have unit : (0 : ℚ) < 10 ^ x.exponent := zpow_pos (by norm_num) _
  obtain ⟨n, count⟩ : ∃ n, x.length = n + 1 := ⟨_, (Nat.sub_add_cancel x.length_pos).symm⟩
  have low : (tenPow n : ℚ) ≤ x.coefficient := by
    exact_mod_cast tenPow_le_of_digitCount nonzero count
  have high : (x.coefficient : ℚ) < tenPow (n + 1) := by
    rw [← count]
    exact_mod_cast lt_tenPow_digitCount x.coefficient
  have first : x.leading = n + x.exponent := by
    have := leading_eq x
    omega
  have beyond : x.leading + 1 = (n + 1 : ℕ) + x.exponent := by
    rw [first]
    push_cast
    ring
  rw [beyond, first, zpow_add₀ ten, zpow_add₀ ten, ← tenPow_cast, ← tenPow_cast]
  exact ⟨mul_le_mul_of_nonneg_right low unit.le, mul_lt_mul_of_pos_right high unit⟩

/-- Rounding to a number of digits is what it says, a carry included. -/
theorem roundsToDigits_roundSignificant (x : Digits) {places : ℕ} (pos : 0 < places) :
    RoundsToDigits places x.value (x.roundSignificant places).value := by
  by_cases zero : x.isZero
  · have same : x.roundSignificant places = x := if_pos zero
    rw [same]
    exact .inl ⟨value_of_isZero zero, value_of_isZero zero⟩
  · have nonzero := isZero_iff.not.mp zero
    obtain ⟨low, high⟩ := magnitude_mem nonzero
    obtain ⟨-, -, rounds⟩ := roundSignificant_spec nonzero pos
    rw [← abs_value] at low high
    exact .inr ⟨x.leading, low, high, rounds⟩

end Digits

end EntityJson
