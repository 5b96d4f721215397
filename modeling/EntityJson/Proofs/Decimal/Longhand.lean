import EntityJson.Proofs.Decimal.Words

/-!
# Rounding in longhand

A coefficient can be rounded as people do it, on its digits as they are written: the digits from a place
on are cut off, the first of them decides whether the rest goes up, a five with nothing but zeros behind
it goes to the even neighbour, and a one is added from the last digit on, with a carry over each nine
(`WrittenNumber.rescale?`, `WrittenNumber.roundSignificant?`).

Exponents are words with a sign here, as is the length of any text in memory, and a sum or a difference
that is none ends the computation (`Longhand.plus?`, `Longhand.minus?`). The number of digits that is
asked for is a word without a sign, and it is not checked but taken for the word with a sign that has the
same bits. From half of the range on that one is negative, and what is rounded to the greatest number of
digits has one (`WrittenNumber.roundSignificant?_of_greatest_places`). Up to there rounding in longhand
is rounding the number in checked words, and overflows where that does (`WrittenNumber.rescale?_reads`,
`WrittenNumber.roundSignificant?_reads`), so it is half-to-even (`WrittenNumber.rounds_half_even`).

A number is written in one way only if no zero stands in front that the digits could do without
(`IsCoefficient`). So of each step two things are to be shown: what the digits that it gives are worth,
and that they start with no such zero (`WrittenNumber.Reads`).
-/

namespace EntityJson

open Numeral

/-! ## What digits are worth -/

namespace Numeral

variable {ds front last : List Char} {c : Char}

/-- A digit is the character of a number below ten. -/
theorem exists_digitChar (digit : c.isDigit) : ∃ d < 10, c = Nat.digitChar d := by
  have low : 48 ≤ c.toNat := by
    simp [Char.isDigit] at digit
    exact digit.1
  have high : c.toNat ≤ 57 := by
    simp [Char.isDigit] at digit
    exact digit.2
  refine ⟨c.toNat - 48, by omega, ?_⟩
  apply Char.toNat_inj.mp
  rw [Nat.toNat_digitChar_of_lt_ten (by omega)]
  omega

theorem natural_digitChar {d : ℕ} (digit : d < 10) : natural [Nat.digitChar d] = d := by
  rw [natural, Nat.ofDigitChars_cons_digitChar_of_lt_ten digit, Nat.ofDigitChars_nil, Nat.mul_zero,
    Nat.zero_add]

/-- A digit behind others is added to their tenfold. -/
theorem natural_concat (front : List Char) {d : ℕ} (digit : d < 10) :
    natural (front ++ [Nat.digitChar d]) = 10 * natural front + d := by
  rw [natural_append, natural_digitChar digit]
  rfl

/-- A digit in front of others stands for a power of ten. -/
theorem natural_digitChar_cons {d : ℕ} (digit : d < 10) (ds : List Char) :
    natural (Nat.digitChar d :: ds) = d * tenPow ds.length + natural ds := by
  have front := natural_append [Nat.digitChar d] ds
  rwa [natural_digitChar digit, Nat.mul_comm] at front

/-- Digits are worth less than the power of ten with so many zeros. -/
theorem natural_lt (digits : ∀ c ∈ ds, c.isDigit) : natural ds < tenPow ds.length := by
  induction ds with
  | nil => exact Nat.zero_lt_one
  | cons c ds ih =>
    obtain ⟨d, less, rfl⟩ := exists_digitChar (digits c List.mem_cons_self)
    have rest := ih fun c mem => digits c (List.mem_cons_of_mem _ mem)
    have all : (d + 1) * tenPow ds.length ≤ 10 * tenPow ds.length := Nat.mul_le_mul_right _ less
    rw [natural_digitChar_cons less, List.length_cons, tenPow_succ]
    rw [Nat.succ_mul] at all
    omega

/-- Only zeros are worth nothing. -/
theorem natural_eq_zero_iff (digits : ∀ c ∈ ds, c.isDigit) :
    natural ds = 0 ↔ ds.all (· = '0') := by
  induction ds with
  | nil => exact iff_of_true rfl rfl
  | cons c ds ih =>
    obtain ⟨d, less, rfl⟩ := exists_digitChar (digits c List.mem_cons_self)
    have rest := ih fun c mem => digits c (List.mem_cons_of_mem _ mem)
    have power := tenPow_pos ds.length
    rw [natural_digitChar_cons less, Nat.add_eq_zero_iff, rest, Nat.mul_eq_zero]
    simp [power.ne']

end Numeral

/-! ## Coefficients -/

/-- Digits without a zero in front that they could do without. -/
structure IsCoefficient (digits : List Char) : Prop where
  ne_nil : digits ≠ []
  isDigit_of_mem : ∀ c ∈ digits, c.isDigit
  eq_nil_of_zero : ∀ rest, digits = '0' :: rest → rest = []

namespace IsCoefficient

variable {ds front last : List Char}

/-- Cutting digits off the end of a coefficient leaves one, unless all are cut off. -/
theorem of_append (h : IsCoefficient (front ++ last)) (nonempty : front ≠ []) :
    IsCoefficient front where
  ne_nil := nonempty
  isDigit_of_mem c mem := h.isDigit_of_mem c (List.mem_append_left _ mem)
  eq_nil_of_zero rest zero := by
    have all := h.eq_nil_of_zero (rest ++ last) (by rw [zero, List.cons_append])
    exact (List.append_eq_nil_iff.mp all).1

/-- Behind a digit other than zero any digits may follow. -/
theorem append (h : IsCoefficient front) (nonzero : front.head? ≠ some '0')
    (digits : ∀ c ∈ last, c.isDigit) : IsCoefficient (front ++ last) where
  ne_nil := List.append_ne_nil_of_left_ne_nil h.ne_nil _
  isDigit_of_mem c mem := (List.mem_append.mp mem).elim (h.isDigit_of_mem c) (digits c)
  eq_nil_of_zero rest zero := by
    obtain ⟨c, cs, rfl⟩ := List.exists_cons_of_ne_nil h.ne_nil
    rw [List.cons_append, List.cons_eq_cons] at zero
    exact absurd (congrArg some zero.1) nonzero

theorem single {d : ℕ} (digit : d < 10) : IsCoefficient [Nat.digitChar d] where
  ne_nil := List.cons_ne_nil _ _
  isDigit_of_mem c mem := by
    rw [List.mem_singleton.mp mem, Nat.isDigit_digitChar]
    exact decide_eq_true digit
  eq_nil_of_zero rest zero := (List.cons_eq_cons.mp zero).2.symm

/-- More than one digit start with one that is not zero. -/
theorem head?_ne (h : IsCoefficient (front ++ last)) (nonempty : front ≠ []) (more : last ≠ []) :
    front.head? ≠ some '0' := by
  obtain ⟨c, cs, rfl⟩ := List.exists_cons_of_ne_nil nonempty
  intro zero
  cases zero
  exact more (List.append_eq_nil_iff.mp (h.eq_nil_of_zero _ rfl)).2

/-- A written number has no superfluous zero. -/
theorem toDigits (n : ℕ) : IsCoefficient (Nat.toDigits 10 n) where
  ne_nil := Nat.toDigits_ne_nil
  isDigit_of_mem _ := Nat.isDigit_of_mem_toDigits (by decide) (by decide)
  eq_nil_of_zero rest zero := by
    rcases n.eq_zero_or_pos with rfl | pos
    · exact (List.cons_eq_cons.mp zero).2.symm
    · exact absurd (congrArg List.head? zero) (head?_toDigits_ne pos.ne')

/-- A coefficient is how its number is written. -/
theorem toDigits_natural (h : IsCoefficient ds) : Nat.toDigits 10 (natural ds) = ds := by
  induction ds using List.reverseRecOn with
  | nil => exact absurd rfl h.ne_nil
  | append_singleton front c ih =>
    obtain ⟨d, less, rfl⟩ := exists_digitChar (h.isDigit_of_mem c (by simp))
    rw [natural_concat front less]
    rcases List.eq_nil_or_concat front with rfl | nonempty
    · have alone : 10 * natural [] + d = d := Nat.zero_add d
      rw [alone, Nat.toDigits_of_lt_base less, List.nil_append]
    · have nonempty : front ≠ [] := by
        obtain ⟨_, _, rfl⟩ := nonempty
        simp
      have written := ih (h.of_append nonempty)
      have pos : 0 < natural front := by
        rw [Nat.pos_iff_ne_zero]
        intro zero
        rw [zero] at written
        exact h.head?_ne nonempty (List.cons_ne_nil _ _) (written ▸ rfl)
      rw [← Nat.toDigits_append_toDigits (by decide) pos less, written,
        Nat.toDigits_of_lt_base less]

end IsCoefficient

/-! ## Adding one -/

namespace Longhand

/-- One more than digits, last ones first: each nine becomes a zero and carries. -/
def incrementBackward : List Char → List Char
  | [] => ['1']
  | c :: cs => if c = '9' then '0' :: incrementBackward cs else Char.ofNat (c.toNat + 1) :: cs

/-- The digits of a number that is greater by one. -/
def increment (digits : List Char) : List Char :=
  (incrementBackward digits.reverse).reverse

/-- A nine becomes a zero and carries. -/
theorem increment_nine (front : List Char) : increment (front ++ ['9']) = increment front ++ ['0'] := by
  unfold increment
  rw [List.reverse_append, List.reverse_singleton, List.singleton_append, incrementBackward,
    if_pos rfl, List.reverse_cons]

/-- Any other digit takes the one that is added. -/
theorem increment_digit (front : List Char) {d : ℕ} (less : d < 9) :
    increment (front ++ [Nat.digitChar d]) = front ++ [Nat.digitChar (d + 1)] := by
  have other : Nat.digitChar d ≠ '9' := by
    rw [Ne, Nat.digitChar_eq_nine]
    omega
  have next : Char.ofNat ((Nat.digitChar d).toNat + 1) = Nat.digitChar (d + 1) := by
    revert d
    decide
  unfold increment
  rw [List.reverse_append, List.reverse_singleton, List.singleton_append, incrementBackward,
    if_neg other, next, List.reverse_cons, List.reverse_reverse]

/-- Neither a carry nor an addition leaves a zero in front. -/
theorem increment_spec {ds : List Char} (h : ds = [] ∨ IsCoefficient ds) :
    IsCoefficient (increment ds) ∧ (increment ds).head? ≠ some '0' ∧
      natural (increment ds) = natural ds + 1 := by
  induction ds using List.reverseRecOn with
  | nil => exact ⟨.single (d := 1) (by decide), by decide, rfl⟩
  | append_singleton front c ih =>
    have h : IsCoefficient (front ++ [c]) := h.resolve_left (by simp)
    have before : front = [] ∨ IsCoefficient front := by
      rcases List.eq_nil_or_concat front with none | ⟨_, _, rfl⟩
      · exact .inl none
      · exact .inr (h.of_append (by simp))
    obtain ⟨d, less, rfl⟩ := exists_digitChar (h.isDigit_of_mem c (by simp))
    rcases Nat.lt_or_eq_of_le (Nat.le_of_lt_succ less) with small | rfl
    · rw [increment_digit front small, natural_concat front less, natural_concat front (by omega)]
      have last : ∀ c ∈ [Nat.digitChar (d + 1)], c.isDigit :=
        (IsCoefficient.single (d := d + 1) (by omega)).isDigit_of_mem
      rcases before with rfl | before
      · refine ⟨.single (by omega), ?_, rfl⟩
        simp
      · have first := h.head?_ne before.ne_nil (List.cons_ne_nil _ _)
        refine ⟨before.append first last, ?_, rfl⟩
        rwa [List.head?_append_of_ne_nil _ before.ne_nil]
    · obtain ⟨carried, first, worth⟩ := ih before
      have zero : ∀ c ∈ ['0'], c.isDigit := (IsCoefficient.single (d := 0) (by decide)).isDigit_of_mem
      have nine := natural_concat front (d := 9) less
      have none := natural_concat (increment front) (d := 0) (by decide)
      have shown : increment (front ++ [Nat.digitChar 9]) = increment front ++ [Nat.digitChar 0] :=
        increment_nine front
      rw [shown, nine, none, worth]
      refine ⟨carried.append first zero, ?_, by omega⟩
      rwa [List.head?_append_of_ne_nil _ carried.ne_nil]

/-! ## Cutting off -/

/-- Whether digits end with an odd one. -/
def endsOdd (digits : List Char) : Bool :=
  digits.getLast?.any fun c => (c.toNat - '0'.toNat) % 2 = 1

/-- Whether a digit at the front of what is cut off rounds up, if a five does so or not. -/
def exceedsHalf (first : Char) (five : Bool) : Bool :=
  match first with
  | '6' | '7' | '8' | '9' => true
  | '5' => five
  | _ => false

/-- Whether the first digits go up when the others are cut off: more than a half is cut off, or just a
half behind an odd digit. -/
def roundsUp (digits : List Char) (kept : ℕ) : Bool :=
  match digits.drop kept with
  | [] => false
  | first :: rest =>
    exceedsHalf first (if rest.all (· = '0') then endsOdd (digits.take kept) else true)

/-- The first digits, a zero if that are none, and one more if the others round up. -/
def cutOff (digits : List Char) (kept : ℕ) : List Char :=
  let first := if (digits.take kept).isEmpty then ['0'] else digits.take kept
  if roundsUp digits kept then increment first else first

/-- The last digit tells whether a number is odd. -/
theorem endsOdd_iff {ds : List Char} (digits : ∀ c ∈ ds, c.isDigit) :
    endsOdd ds ↔ natural ds % 2 = 1 := by
  rcases List.eq_nil_or_concat ds with rfl | ⟨front, c, rfl⟩
  · exact iff_of_false Bool.false_ne_true (by decide)
  · obtain ⟨d, less, rfl⟩ := exists_digitChar (digits c (by simp))
    have value : (Nat.digitChar d).toNat - '0'.toNat = d :=
      Nat.toNat_digitChar_sub_48_of_lt_ten less
    rw [List.concat_eq_append, natural_concat front less, endsOdd, List.getLast?_concat,
      Option.any_some, value, decide_eq_true_iff]
    omega

/-- Only behind a five the rest decides. -/
theorem exceedsHalf_digitChar {d : ℕ} (less : d < 10) (five : Bool) :
    exceedsHalf (Nat.digitChar d) five = if d = 5 then five else decide (5 < d) := by
  revert five d
  decide

/-- The first digit that is cut off is compared with five, and the ones behind it with zero. -/
theorem roundsUp_iff {ds : List Char} (digits : ∀ c ∈ ds, c.isDigit) (kept : ℕ) :
    roundsUp ds kept ↔ tenPow (ds.drop kept).length < 2 * natural (ds.drop kept) ∨
      tenPow (ds.drop kept).length = 2 * natural (ds.drop kept) ∧
        natural (ds.take kept) % 2 = 1 := by
  have odd : endsOdd (ds.take kept) ↔ natural (ds.take kept) % 2 = 1 :=
    endsOdd_iff fun c mem => digits c (List.mem_of_mem_take mem)
  have cut : ∀ c ∈ ds.drop kept, c.isDigit := fun c mem => digits c (List.mem_of_mem_drop mem)
  unfold roundsUp
  cases dropped : ds.drop kept with
  | nil =>
    refine iff_of_false Bool.false_ne_true ?_
    rintro (more | ⟨tie, -⟩)
    · exact absurd more (by decide)
    · exact absurd tie (by decide)
  | cons c rest =>
    rw [dropped] at cut
    obtain ⟨d, less, rfl⟩ := exists_digitChar (cut c List.mem_cons_self)
    have rest_digits : ∀ c ∈ rest, c.isDigit := fun c mem => cut c (List.mem_cons_of_mem _ mem)
    have zeros := natural_eq_zero_iff rest_digits
    have below := natural_lt rest_digits
    have scaled : ∀ e, d ≤ e → d * tenPow rest.length ≤ e * tenPow rest.length := fun e le =>
      Nat.mul_le_mul_right _ le
    simp only
    rw [natural_digitChar_cons less, List.length_cons, tenPow_succ, exceedsHalf_digitChar less]
    rcases Nat.lt_trichotomy d 5 with low | rfl | high
    · have most := scaled 4 (by omega)
      rw [if_neg low.ne, decide_eq_true_iff]
      omega
    · rw [if_pos rfl]
      by_cases zero : natural rest = 0
      · rw [if_pos (zeros.mp zero), odd]
        omega
      · rw [if_neg (zeros.not.mp zero)]
        refine iff_of_true rfl (.inl ?_)
        omega
    · have least : 6 * tenPow rest.length ≤ d * tenPow rest.length := Nat.mul_le_mul_right _ high
      rw [if_neg high.ne', decide_eq_true_iff]
      omega

/-- What is left when digits are cut off is the rounded quotient. -/
theorem cutOff_spec {ds : List Char} (h : IsCoefficient ds) (kept : ℕ) :
    IsCoefficient (cutOff ds kept) ∧
      natural (cutOff ds kept) = divHalfEven (natural ds) (tenPow (ds.drop kept).length) := by
  have up := roundsUp_iff h.isDigit_of_mem kept
  have split := natural_append (ds.take kept) (ds.drop kept)
  have below := natural_lt fun c mem => h.isDigit_of_mem c (List.mem_of_mem_drop (i := kept) mem)
  have pos := tenPow_pos (ds.drop kept).length
  rw [List.take_append_drop] at split
  have quotient : natural ds / tenPow (ds.drop kept).length = natural (ds.take kept) := by
    rw [split, Nat.mul_add_div pos, Nat.div_eq_of_lt below, Nat.add_zero]
  have rest : natural ds % tenPow (ds.drop kept).length = natural (ds.drop kept) := by
    rw [split, Nat.mul_add_mod, Nat.mod_eq_of_lt below]
  have first : IsCoefficient (if (ds.take kept).isEmpty then ['0'] else ds.take kept) ∧
      natural (if (ds.take kept).isEmpty then ['0'] else ds.take kept) = natural (ds.take kept) := by
    split
    next none =>
      rw [List.isEmpty_iff.mp none]
      exact ⟨.single (d := 0) (by decide), rfl⟩
    next some =>
      rw [List.isEmpty_iff] at some
      have front : IsCoefficient (ds.take kept ++ ds.drop kept) := by rwa [List.take_append_drop]
      exact ⟨front.of_append some, rfl⟩
  obtain ⟨coefficient, worth⟩ := first
  unfold cutOff divHalfEven
  simp only [quotient, rest]
  by_cases goesUp : roundsUp ds kept
  · obtain ⟨incremented, -, next⟩ := increment_spec (.inr coefficient)
    rw [if_pos goesUp]
    refine ⟨incremented, ?_⟩
    rw [next, worth]
    rcases up.mp goesUp with more | ⟨tie, odd⟩
    · rw [if_neg (by omega), if_pos more]
    · rw [if_neg (by omega), if_neg (by omega), if_neg (by omega)]
  · have neither := up.not.mp goesUp
    rw [if_neg goesUp]
    refine ⟨coefficient, worth.trans ?_⟩
    split
    · rfl
    · rw [if_neg (by omega), if_pos (by omega)]

end Longhand

/-! ## Words with a sign -/

namespace Longhand

/-- A number as a word with a sign, if it is one. -/
def word? (n : ℤ) : Option Int64 :=
  if IsSigned n then some (.ofInt n) else none

/-- The sum of two words, if it is one. -/
def plus? (a b : Int64) : Option Int64 :=
  word? (a.toInt + b.toInt)

/-- The difference of two words, if it is one. -/
def minus? (a b : Int64) : Option Int64 :=
  word? (a.toInt - b.toInt)

/-- A word is checked as its number is. -/
theorem signed?_eq (n : ℤ) : signed? n = (word? n).map Int64.toInt := by
  unfold signed? word?
  split
  next fits =>
    unfold IsSigned wordLimit at fits
    rw [Option.map_some, Int64.toInt_ofInt_of_le (by omega) (by omega)]
  next => rfl

theorem toInt_of_word? {n : ℤ} {w : Int64} (found : word? n = some w) : w.toInt = n := by
  have checked := signed?_eq n
  rw [found, Option.map_some] at checked
  exact (signed?_eq_some_iff.mp checked).1

/-- Below half of their range, words keep their number when they are taken for words with a sign. -/
theorem toInt_toInt64 {w : UInt64} (small : IsSigned w.toNat) : w.toInt64.toInt = w.toNat := by
  unfold IsSigned wordLimit at small
  have word := Int64.toInt_ofNat_of_lt (n := w.toNat) (by omega)
  rwa [← UInt64.toInt64_ofNat', UInt64.ofNat_toNat] at word

/-- Without a minus, words keep their number when they are taken for words without a sign. -/
theorem toNat_toUInt64 {w : Int64} (nonneg : 0 ≤ w.toInt) : w.toUInt64.toNat = w.toInt.toNat :=
  Int64.toNat_toUInt64_of_le (Int64.le_iff_toInt_le.mpr nonneg)

theorem unsigned?_toInt {w : Int64} (nonneg : 0 ≤ w.toInt) : unsigned? w.toInt = some w.toInt.toNat := by
  have less := w.toInt_lt
  refine unsigned?_eq_some_iff.mpr ⟨(Int.toNat_of_nonneg nonneg).symm, ?_⟩
  unfold wordLimit
  omega

end Longhand

/-! ## Written numbers -/

/-- A number as it is written: a sign, the digits of a coefficient, and the power of ten that the last
of them stands for, which is a word. -/
structure WrittenNumber where
  negative : Bool
  coefficient : List Char
  exponent : Int64
  deriving DecidableEq

namespace WrittenNumber

open Longhand

/-- The number that is written. -/
def read (x : WrittenNumber) : Digits :=
  ⟨x.negative, natural x.coefficient, x.exponent.toInt⟩

def isZero (x : WrittenNumber) : Bool :=
  x.coefficient.all (· = '0')

/-- The exponent of the first digit. -/
def leading? (x : WrittenNumber) : Option Int64 := do
  let length ← word? x.coefficient.length
  let toUnit ← plus? x.exponent length
  minus? toUnit 1

/-- The number of which so many digits are kept, up to an exponent. Where more digits are to be cut off
than there are, a one behind them stands for them all. -/
def keep (x : WrittenNumber) (exponent kept : Int64) : WrittenNumber :=
  let coefficient :=
    if kept < 0 then cutOff ['1'] 0 else cutOff x.coefficient kept.toUInt64.toNat
  { x with coefficient, exponent }

/-- The number with `exponent` as the exponent of its last digit. Zeros are appended, or digits are cut
off. -/
def rescale? (x : WrittenNumber) (exponent : Int64) : Option WrittenNumber :=
  if x.isZero then some { x with coefficient := ['0'], exponent }
  else if exponent ≤ x.exponent then do
    let zeros ← minus? x.exponent exponent
    return { x with
      coefficient := x.coefficient ++ List.replicate zeros.toUInt64.toNat '0'
      exponent }
  else do
    let length ← word? x.coefficient.length
    let toUnit ← plus? length x.exponent
    let kept ← minus? toUnit exponent
    return x.keep exponent kept

/-- The number rounded to `places` digits, and once more if a carry has given it one too many. How many
they are is taken for a word with a sign, which is negative from half of the range on. -/
def roundSignificant? (x : WrittenNumber) (places : UInt64) : Option WrittenNumber :=
  if x.isZero then some x
  else do
    let leading ← x.leading?
    let last ← lastPlace? leading
    let rounded ← x.rescale? last
    let carried ← rounded.leading?
    if carried ≠ leading then
      let last ← lastPlace? carried
      rounded.rescale? last
    else return rounded
where
  /-- The exponent of the last digit that is kept. -/
  lastPlace? (leading : Int64) : Option Int64 := do
    let behind ← plus? leading 1
    minus? behind places.toInt64

variable {x : WrittenNumber}

/-- Whether a computation on written numbers ends with one that is read as what a computation on numbers
ends with, and has no zero in front that it could do without; or neither ends with any. -/
structure Reads (written : Option WrittenNumber) (number : Option Digits) : Prop where
  read_eq : number = written.map read
  isCoefficient : ∀ y, written = some y → IsCoefficient y.coefficient

namespace Reads

variable {written : Option WrittenNumber} {number : Option Digits}

/-- A number that has been written is read as the one that has been computed. -/
theorem of_eq {n : Digits} (h : IsCoefficient x.coefficient) (same : n = x.read) :
    Reads (some x) (some n) where
  read_eq := congrArg some same
  isCoefficient := by
    rintro _ ⟨⟩
    exact h

/-- A word is computed first, and the number that it is. -/
theorem bind_word {word : Option Int64} {next : Int64 → Option WrittenNumber}
    {nextNumber : ℤ → Option Digits}
    (step : ∀ w, word = some w → Reads (next w) (nextNumber w.toInt)) :
    Reads (word.bind next) ((word.map Int64.toInt).bind nextNumber) := by
  cases word with
  | none => exact ⟨rfl, nofun⟩
  | some w => exact step w rfl

/-- A number is written first, and read. -/
theorem bind (h : Reads written number) {next : WrittenNumber → Option WrittenNumber}
    {nextNumber : Digits → Option Digits}
    (step : ∀ y, IsCoefficient y.coefficient → Reads (next y) (nextNumber y.read)) :
    Reads (written.bind next) (number.bind nextNumber) := by
  obtain ⟨rfl, coefficient⟩ := h
  cases written with
  | none => exact ⟨rfl, nofun⟩
  | some y => exact step y (coefficient y rfl)

theorem isSome_iff (h : Reads written number) : written.isSome ↔ ∃ n, number = some n := by
  rw [← Option.isSome_iff_exists, h.read_eq, Option.isSome_map]

/-- Where a number is written, one is computed. -/
theorem of_some {y : WrittenNumber} (h : Reads written number) (found : written = some y) :
    IsCoefficient y.coefficient ∧ number = some y.read := by
  refine ⟨h.isCoefficient y found, ?_⟩
  rw [h.read_eq, found, Option.map_some]

end Reads

/-- A coefficient is zero if its number is. -/
theorem isZero_iff (h : IsCoefficient x.coefficient) : x.isZero ↔ x.read.isZero := by
  rw [Digits.isZero_iff]
  exact (natural_eq_zero_iff h.isDigit_of_mem).symm

/-- A coefficient has the digits that its number takes. -/
theorem length_read (h : IsCoefficient x.coefficient) : x.read.length = x.coefficient.length := by
  rw [Digits.length, digitCount]
  exact congrArg List.length h.toDigits_natural

/-- So a zero stands in front of nothing but zero. -/
theorem head?_ne (h : IsCoefficient x.coefficient) (nonzero : ¬ x.isZero) :
    x.coefficient.head? ≠ some '0' := by
  obtain ⟨c, cs, start⟩ := List.exists_cons_of_ne_nil h.ne_nil
  rw [start]
  rintro zero
  cases zero
  have alone := h.eq_nil_of_zero cs start
  rw [isZero, start, alone] at nonzero
  exact nonzero rfl

/-- The place of the first digit is that of the number. -/
theorem leadingInWords?_read (h : IsCoefficient x.coefficient) :
    x.read.leadingInWords? = x.leading?.map Int64.toInt := by
  unfold Digits.leadingInWords? leading? plus? minus?
  rw [length_read h]
  simp only [signed?_eq, Option.bind_eq_bind, Option.bind_map, Option.map_bind, Function.comp_def,
    Int64.toInt_one]
  rfl

/-- Cutting off written digits is rounding the number. -/
theorem keep_reads (h : IsCoefficient x.coefficient) (e kept : Int64) :
    Reads (some (x.keep e kept)) (x.read.keepInWords? e.toInt kept.toInt) := by
  have below : kept < 0 ↔ kept.toInt < 0 := by rw [Int64.lt_iff_toInt_lt, Int64.toInt_zero]
  unfold Digits.keepInWords? keep
  by_cases none : kept < 0
  · simp only [if_pos none, if_pos (below.mp none)]
    exact .of_eq (.single (d := 0) (by decide)) rfl
  · have nonneg : 0 ≤ kept.toInt := Int.not_lt.mp (below.not.mp none)
    obtain ⟨coefficient, worth⟩ := cutOff_spec h kept.toUInt64.toNat
    rw [List.length_drop, toNat_toUInt64 nonneg] at worth
    simp only [if_neg none, if_neg (below.not.mp none), unsigned?_toInt nonneg, length_read h]
    refine .of_eq coefficient ?_
    simp only [read, toNat_toUInt64 nonneg, worth]

/-- Rescaling in longhand is rescaling the number. -/
theorem rescale?_reads (h : IsCoefficient x.coefficient) (e : Int64) :
    Reads (x.rescale? e) (x.read.rescaleInWords? e.toInt) := by
  have zero := isZero_iff h
  have lower : e ≤ x.exponent ↔ e.toInt ≤ x.read.exponent := Int64.le_iff_toInt_le
  unfold rescale? Digits.rescaleInWords?
  by_cases isZero : x.isZero
  · have none : x.read.coefficient = 0 := Digits.isZero_iff.mp (zero.mp isZero)
    rw [if_pos isZero, if_pos (zero.mp isZero), none]
    exact .of_eq (.single (d := 0) (by decide)) rfl
  · rw [if_neg isZero, if_neg (zero.not.mp isZero)]
    by_cases above : e ≤ x.exponent
    · have difference : signed? (x.read.exponent - e.toInt)
          = (minus? x.exponent e).map Int64.toInt := signed?_eq _
      rw [if_pos above, if_pos (lower.mp above), difference]
      refine .bind_word fun zeros found => ?_
      have nonneg : 0 ≤ zeros.toInt := by
        have := toInt_of_word? found
        have := Int64.le_iff_toInt_le.mp above
        omega
      have appended := natural_append_zeros zeros.toInt.toNat x.coefficient
      rw [unsigned?_toInt nonneg, toNat_toUInt64 nonneg]
      refine .of_eq (h.append (head?_ne h isZero) fun c mem => ?_) ?_
      · rw [List.eq_of_mem_replicate mem]
        rfl
      · simp only [read, appended, Nat.mul_comm]
    · rw [if_neg above, if_neg (lower.not.mp above), length_read h, signed?_eq]
      refine .bind_word fun length _ => ?_
      have toUnit : signed? (length.toInt + x.read.exponent)
          = (plus? length x.exponent).map Int64.toInt := signed?_eq _
      rw [toUnit]
      refine .bind_word fun toUnit _ => ?_
      have kept : signed? (toUnit.toInt - e.toInt) = (minus? toUnit e).map Int64.toInt := signed?_eq _
      rw [kept]
      exact .bind_word fun kept _ => keep_reads h e kept

/-- The exponent of the last digit that is kept, as long as the number of the digits is a word with a
sign. -/
theorem lastPlace?_toInt {places : UInt64} (small : IsSigned places.toNat) (leading : Int64) :
    Digits.roundSignificantInWords?.lastPlace? places.toNat leading.toInt
      = (roundSignificant?.lastPlace? places leading).map Int64.toInt := by
  have count : signed? places.toNat = some places.toInt64.toInt := by
    rw [toInt_toInt64 small, signed?_of_isSigned small]
  unfold Digits.roundSignificantInWords?.lastPlace? roundSignificant?.lastPlace? plus? minus?
  rw [count]
  simp only [signed?_eq, Option.bind_eq_bind, Option.bind_map, Option.map_bind, Function.comp_def,
    Option.bind_some, Int64.toInt_one]

/-- Rounding to a number of digits in longhand is so rounding the number, as long as the number of the
digits is a word with a sign. -/
theorem roundSignificant?_reads (h : IsCoefficient x.coefficient) {places : UInt64}
    (small : IsSigned places.toNat) :
    Reads (x.roundSignificant? places) (x.read.roundSignificantInWords? places.toNat) := by
  have zero := isZero_iff h
  unfold roundSignificant? Digits.roundSignificantInWords?
  by_cases isZero : x.isZero
  · rw [if_pos isZero, if_pos (zero.mp isZero)]
    exact .of_eq h rfl
  · rw [if_neg isZero, if_neg (zero.not.mp isZero), leadingInWords?_read h]
    refine .bind_word fun leading _ => ?_
    rw [lastPlace?_toInt small]
    refine .bind_word fun last _ => (rescale?_reads h last).bind fun rounded coefficient => ?_
    rw [leadingInWords?_read coefficient]
    refine .bind_word fun carried _ => ?_
    by_cases same : carried = leading
    · rw [if_neg (not_not.mpr same), if_neg (not_not.mpr (congrArg Int64.toInt same))]
      exact .of_eq coefficient rfl
    · rw [if_pos same, if_pos (mt Int64.toInt_inj.mp same), lastPlace?_toInt small]
      exact .bind_word fun last _ => rescale?_reads coefficient last

variable {y : WrittenNumber} {e : Int64} {places : UInt64}

/-- A number can be rescaled if it is zero, or the numbers that it takes are words. -/
theorem isSome_rescale?_iff (h : IsCoefficient x.coefficient) (e : Int64) :
    (x.rescale? e).isSome ↔ x.isZero ∨ x.read.RescaleFits e.toInt := by
  rw [(rescale?_reads h e).isSome_iff, isZero_iff h]
  by_cases zero : x.read.isZero
  · exact iff_of_true ⟨_, Digits.rescaleInWords?_of_isZero zero e.toInt⟩ (.inl zero)
  · simp [Digits.rescaleInWords?_eq_some_iff zero, zero]

/-- What is rescaled in longhand is read as the number rescaled. -/
theorem read_of_rescale? (h : IsCoefficient x.coefficient) (found : x.rescale? e = some y) :
    IsCoefficient y.coefficient ∧ y.read = x.read.rescale e.toInt := by
  obtain ⟨coefficient, rescaled⟩ := (rescale?_reads h e).of_some found
  exact ⟨coefficient, Digits.eq_of_rescaleInWords? rescaled⟩

/-- A number other than zero can be rounded to so many digits if the numbers that it takes are words. -/
theorem isSome_roundSignificant?_iff (h : IsCoefficient x.coefficient)
    (small : IsSigned places.toNat) (nonzero : ¬ x.isZero) :
    (x.roundSignificant? places).isSome ↔ x.read.RoundFits places.toNat := by
  rw [(roundSignificant?_reads h small).isSome_iff]
  simp [Digits.roundSignificantInWords?_eq_some_iff ((isZero_iff h).not.mp nonzero)]

/-- What is rounded in longhand is read as the number rounded. -/
theorem read_of_roundSignificant? (h : IsCoefficient x.coefficient) (small : IsSigned places.toNat)
    (found : x.roundSignificant? places = some y) :
    IsCoefficient y.coefficient ∧ y.read = x.read.roundSignificant places.toNat := by
  obtain ⟨coefficient, rounded⟩ := (roundSignificant?_reads h small).of_some found
  exact ⟨coefficient, (Digits.eq_of_roundSignificantInWords? rounded).1⟩

end WrittenNumber

/-! ## Half to even -/

theorem signed_signed (negative : Bool) (x : ℚ) : signed negative (signed negative x) = x := by
  cases negative
  · rfl
  · exact neg_neg x

/-- The coefficient that a number is rescaled to is the nearest one, and the even one of two that are
equally near. -/
theorem Digits.roundsTo_coefficient_rescale (x : Digits) (e : ℤ) :
    RoundsTo 1 (x.coefficient * 10 ^ (x.exponent - e)) (x.rescale e).coefficient := by
  have ten : (10 : ℚ) ≠ 0 := by norm_num
  have unit : (0 : ℚ) < 10 ^ (-e) := zpow_pos (by norm_num) _
  -- without the sign, counted in multiples of the power of ten that is rounded to
  have rounds := ((roundsTo_rescale x e).signed x.negative).scale unit
  have scaled : ∀ k : ℤ, (10 : ℚ) ^ k * 10 ^ (-e) = 10 ^ (k - e) := fun k => by
    rw [← zpow_add₀ ten, ← sub_eq_add_neg]
  rw [value, value, negative_rescale, signed_signed, signed_signed, magnitude, magnitude,
    exponent_rescale, mul_assoc, mul_assoc, scaled, scaled, sub_self, zpow_zero, mul_one] at rounds
  exact rounds

/-- Rounding to a number of digits keeps the sign. -/
theorem Digits.negative_roundSignificant (x : Digits) (places : ℤ) :
    (x.roundSignificant places).negative = x.negative := by
  unfold roundSignificant
  simp only
  split_ifs
  · rfl
  · rw [negative_rescale, negative_rescale]
  · rw [negative_rescale]

namespace WrittenNumber

variable {x : WrittenNumber}

/-- Rounding in longhand is half to even. A number can be rescaled if it is zero or the numbers that it
takes are words, and then it keeps the sign, gets the exponent that is asked for, and as its coefficient
the nearest number, and the even one of two that are equally near. A number other than zero can be
rounded to a number of digits that is a word with a sign if the numbers that it takes are words, and
then it has so many digits. Neither puts a zero in front, and both are what the numbers that are written
are rounded to. -/
theorem rounds_half_even (h : IsCoefficient x.coefficient) (e : Int64) :
    ((x.rescale? e).isSome ↔ x.isZero ∨ x.read.RescaleFits e.toInt) ∧
    (∀ y, x.rescale? e = some y →
      y.negative = x.negative ∧ y.exponent = e ∧ IsCoefficient y.coefficient ∧
      y.read = x.read.rescale e.toInt ∧
      ∀ n : ℕ, RoundsTo 1 (natural x.coefficient * 10 ^ (x.exponent.toInt - e.toInt)) n ↔
        n = natural y.coefficient) ∧
    ∀ places : UInt64, 1 ≤ places → IsSigned places.toNat → natural x.coefficient ≠ 0 →
      ((x.roundSignificant? places).isSome ↔ x.read.RoundFits places.toNat) ∧
      ∀ y, x.roundSignificant? places = some y →
        y.negative = x.negative ∧ IsCoefficient y.coefficient ∧
        y.coefficient.length = places.toNat ∧ y.read = x.read.roundSignificant places.toNat ∧
        ∀ v, RoundsToDigits places.toNat x.read.value v ↔ v = y.read.value := by
  refine ⟨isSome_rescale?_iff h e, ?_, ?_⟩
  · intro y found
    obtain ⟨coefficient, rescaled⟩ := read_of_rescale? h found
    have sign := Digits.negative_rescale x.read e.toInt
    have exponent := Digits.exponent_rescale x.read e.toInt
    have nearest := Digits.roundsTo_coefficient_rescale x.read e.toInt
    rw [← rescaled] at sign exponent nearest
    refine ⟨sign, Int64.toInt_inj.mp exponent, coefficient, rescaled, ?_⟩
    intro n
    constructor
    · intro other
      exact_mod_cast other.unique one_pos nearest
    · rintro rfl
      exact nearest
  · intro places pos small nonzero
    have notZero : ¬ x.isZero := (isZero_iff h).not.mpr (Digits.isZero_iff.not.mpr nonzero)
    have places_pos : 0 < places.toNat := UInt64.le_iff_toNat_le.mp pos
    refine ⟨isSome_roundSignificant?_iff h small notZero, ?_⟩
    intro y found
    obtain ⟨coefficient, rounded⟩ := read_of_roundSignificant? h small found
    obtain ⟨count, -, -⟩ := Digits.roundSignificant_spec (x := x.read) nonzero places_pos
    have nearest := Digits.roundsToDigits_roundSignificant x.read places_pos
    have sign := Digits.negative_roundSignificant x.read places.toNat
    rw [← rounded] at count nearest sign
    rw [length_read coefficient] at count
    refine ⟨sign, coefficient, count, rounded, ?_⟩
    intro v
    constructor
    · intro other
      exact other.unique nearest
    · rintro rfl
      exact nearest

/-- A tie that carries over three nines: the coefficient gets a digit more when it is rescaled, and keeps
the number of digits that it is rounded to. -/
theorem rounds_half_even_of_carry :
    ∃ x : WrittenNumber, x = ⟨true, "9995".toList, -3⟩ ∧ IsCoefficient x.coefficient ∧
      x.rescale? (-2) = some ⟨true, "1000".toList, -2⟩ ∧
      (∀ n : ℕ, RoundsTo 1 (9995 * 10 ^ (-1 : ℤ)) n ↔ n = 1000) ∧
      x.roundSignificant? 3 = some ⟨true, "100".toList, -1⟩ ∧
      ∀ v, RoundsToDigits 3 x.read.value v ↔ v = (⟨true, 100, -1⟩ : Digits).value := by
  have written : Nat.toDigits 10 9995 = "9995".toList := by decide
  have coefficient : IsCoefficient "9995".toList := written ▸ IsCoefficient.toDigits 9995
  let x : WrittenNumber := ⟨true, "9995".toList, -3⟩
  have carried : x.rescale? (-2) = some ⟨true, "1000".toList, -2⟩ := by decide
  have rounded : x.roundSignificant? 3 = some ⟨true, "100".toList, -1⟩ := by decide
  obtain ⟨-, rescales, rounds⟩ := rounds_half_even (x := x) coefficient (-2)
  obtain ⟨-, -, -, -, nearest⟩ := rescales _ carried
  obtain ⟨-, -, -, -, digits⟩ := (rounds 3 (by decide) (by decide) (by decide)).2 _ rounded
  have worth : natural x.coefficient = 9995 := by decide
  have thousand : natural "1000".toList = 1000 := by decide
  have places : x.exponent.toInt - (-2 : Int64).toInt = -1 := by decide
  rw [worth, thousand, places] at nearest
  exact ⟨x, rfl, coefficient, carried, by exact_mod_cast nearest, rounded, digits⟩

/-- The greatest number of digits is no word with a sign. Taken for one it is negative, all digits are
cut off, and one zero is left. So a decimal loses all its digits in scientific writing. -/
theorem roundSignificant?_of_greatest_places :
    ∃ x y : WrittenNumber, x = ⟨false, "125".toList, -1⟩ ∧ IsCoefficient x.coefficient ∧
      natural x.coefficient ≠ 0 ∧ x.roundSignificant? 18446744073709551615 = some y ∧
      y.coefficient = ['0'] ∧
      y.coefficient.length ≠ (18446744073709551615 : UInt64).toNat ∧
      (⟨false, 125, 1, by decide, by decide⟩ : Decimal).format? "\x7b:.18446744073709551614e\x7d"
        = some "000e+3" := by
  have written : Nat.toDigits 10 125 = "125".toList := by decide
  refine ⟨⟨false, "125".toList, -1⟩, ⟨false, ['0'], 5⟩, rfl, written ▸ IsCoefficient.toDigits 125,
    by decide, by decide, rfl, by decide, by decide +kernel⟩

end WrittenNumber

end EntityJson
