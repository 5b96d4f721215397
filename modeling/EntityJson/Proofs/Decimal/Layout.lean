import EntityJson.Decimal.Render
import Mathlib.Data.List.Basic

/-!
# The layout of digits

The digits of a coefficient are split at the point, and those in front of it are filled up and grouped.
Neither changes what they are worth. Behind the point there are as many digits as the place of the point
says, zeros stand for those that are missing on either side, and at least one digit stands in front of
it. Without its separators a grouped text is the digits again, with zeros in front of them
(`Decimal.withoutSeparators_grouped`).
-/

namespace EntityJson

/-! ## What digits are worth -/

namespace Numeral

/-- Digits behind others shift these by their number. -/
theorem natural_append (xs ys : List Char) :
    natural (xs ++ ys) = tenPow ys.length * natural xs + natural ys := by
  unfold natural
  rw [Nat.ofDigitChars_append, Nat.ofDigitChars_eq_ofDigitChars_zero]
  rfl

theorem natural_zeros (n : Nat) : natural (List.replicate n '0') = 0 :=
  Nat.ofDigitChars_replicate_zero

/-- Zeros in front of digits are worth nothing. -/
theorem natural_zeros_append (n : Nat) (xs : List Char) :
    natural (List.replicate n '0' ++ xs) = natural xs := by
  rw [natural_append, natural_zeros, Nat.mul_zero, Nat.zero_add]

/-- Zeros behind digits multiply by a power of ten. -/
theorem natural_append_zeros (n : Nat) (xs : List Char) :
    natural (xs ++ List.replicate n '0') = tenPow n * natural xs := by
  rw [natural_append, natural_zeros, List.length_replicate, Nat.add_zero]

/-- The written digits of a number are worth that number. -/
theorem natural_toDigits (n : Nat) : natural (Nat.toDigits 10 n) = n :=
  Nat.ofDigitChars_ten_toDigits

end Numeral

/-- The digits of a number other than zero do not start with a zero. -/
theorem head?_toDigits_ne {n : Nat} (nonzero : n ≠ 0) : (Nat.toDigits 10 n).head? ≠ some '0' := by
  have single : ∀ d < 10, d ≠ 0 → [Nat.digitChar d].head? ≠ some '0' := by decide
  induction n using Nat.strongRecOn with
  | ind n ih =>
    rcases Nat.lt_or_ge n 10 with less | more
    · rw [Nat.toDigits_of_lt_base less]
      exact single n less nonzero
    · have front : n / 10 ≠ 0 := by omega
      rw [Nat.toDigits_of_base_le (by decide) more, List.head?_append_of_ne_nil _ Nat.toDigits_ne_nil]
      exact ih (n / 10) (by omega) front

namespace Decimal

open Numeral

/-! ## The point -/

/-- Digits laid out in front of a point and behind it, with so many in front that `before` of the given
ones stand there. -/
structure Split (digits : List Char) (before : Int) (whole fraction : List Char) : Prop where
  whole_ne_nil : whole ≠ []
  length_fraction : fraction.length = (digits.length - before).toNat
  natural_eq : natural (whole ++ fraction)
    = tenPow (before - digits.length).toNat * natural digits
  of_mem : ∀ c ∈ whole ++ fraction, c = '0' ∨ c ∈ digits

section Point

variable {digits : List Char} {before : Int}

/-- A point in front of all digits has zeros between it and them. -/
theorem splitAtPoint_of_nonpos (h : before ≤ 0) :
    splitAtPoint digits before = (['0'], List.replicate (-before).toNat '0' ++ digits) := by
  unfold splitAtPoint
  rcases Int.lt_or_eq_of_le h with less | rfl
  · rw [if_pos less]
  · have : ¬ (digits.length : Int) < 0 := by omega
    rw [if_neg (Int.lt_irrefl 0), if_neg this]
    rfl

/-- A point among the digits parts them. -/
theorem splitAtPoint_of_pos_of_le (pos : 0 < before) (h : before ≤ digits.length) :
    splitAtPoint digits before = (digits.take before.toNat, digits.drop before.toNat) := by
  have some : ¬ (digits.take before.toNat).isEmpty := by
    rw [List.isEmpty_iff_length_eq_zero, List.length_take]
    omega
  unfold splitAtPoint
  rw [if_neg (by omega), if_neg (by omega)]
  simp only
  rw [if_neg some]

/-- A point behind all digits has zeros in front of it. -/
theorem splitAtPoint_of_length_lt (h : digits.length < before) :
    splitAtPoint digits before
      = (digits ++ List.replicate (before.toNat - digits.length) '0', []) := by
  unfold splitAtPoint
  rw [if_neg (by omega), if_pos h]

/-- Wherever the point stands, the two parts are worth what the digits are worth. -/
theorem split_splitAtPoint (nonempty : digits ≠ []) (before : Int) :
    Split digits before (splitAtPoint digits before).1 (splitAtPoint digits before).2 := by
  have pos := List.length_pos_iff.mpr nonempty
  rcases Int.lt_or_le 0 before with inside | outside
  · rcases Int.lt_or_le digits.length before with beyond | within
    · have none : (digits.length - before).toNat = 0 := by omega
      have zeros : before.toNat - digits.length = (before - digits.length).toNat := by omega
      rw [splitAtPoint_of_length_lt beyond]
      exact {
        whole_ne_nil := List.append_ne_nil_of_left_ne_nil nonempty _
        length_fraction := none.symm
        natural_eq := by rw [List.append_nil, natural_append_zeros, zeros]
        of_mem := fun c mem => by
          rw [List.append_nil] at mem
          exact (List.mem_append.mp mem).symm.imp_left List.eq_of_mem_replicate }
    · have none : (before - digits.length).toNat = 0 := by omega
      rw [splitAtPoint_of_pos_of_le inside within]
      exact {
        whole_ne_nil := List.ne_nil_of_length_pos (by rw [List.length_take]; omega)
        length_fraction := by rw [List.length_drop]; omega
        natural_eq := by rw [List.take_append_drop, none, tenPow_zero, Nat.one_mul]
        of_mem := fun c mem => .inr (List.take_append_drop _ digits ▸ mem) }
  · have none : (before - digits.length).toNat = 0 := by omega
    have zeros : natural (['0'] ++ (List.replicate (-before).toNat '0' ++ digits)) = natural digits := by
      have first : natural ['0'] = 0 := rfl
      rw [natural_append, first, Nat.mul_zero, Nat.zero_add, natural_zeros_append]
    rw [splitAtPoint_of_nonpos outside]
    exact {
      whole_ne_nil := List.cons_ne_nil _ _
      length_fraction := by rw [List.length_append, List.length_replicate]; omega
      natural_eq := by rw [zeros, none, tenPow_zero, Nat.one_mul]
      of_mem := fun c mem => by
        rcases List.mem_append.mp mem with first | mem
        · exact .inl (List.mem_singleton.mp first)
        · exact (List.mem_append.mp mem).imp_left List.eq_of_mem_replicate }

end Point

/-! ## Groups -/

/-- The groups put together are the digits, last ones first, with zeros behind them. -/
theorem flatten_groupsBackward (digits : List Char) (width : Int) :
    ∃ n, (groupsBackward digits width).flatten = digits ++ List.replicate n '0' := by
  fun_induction groupsBackward digits width with
  | case1 digits width size group done =>
    have filled : group = digits.take size ++ List.replicate (size - digits.length) '0' := rfl
    rw [List.take_of_length_le done.1] at filled
    exact ⟨size - digits.length, List.flatten_singleton.trans filled⟩
  | case2 digits width size group more ih =>
    obtain ⟨n, rest⟩ := ih
    have filled : group = digits.take size ++ List.replicate (size - digits.length) '0' := rfl
    rw [List.flatten_cons, rest, filled]
    rcases Nat.le_total digits.length size with short | long
    · -- all digits are in this group, and what comes after it are zeros
      refine ⟨size - digits.length + n, ?_⟩
      rw [List.take_of_length_le short, List.drop_of_length_le short, List.nil_append,
        List.append_assoc, List.replicate_append_replicate]
    · refine ⟨n, ?_⟩
      rw [Nat.sub_eq_zero_of_le long, List.replicate_zero, List.append_nil,
        ← List.append_assoc, List.take_append_drop]

/-- A text without the separators between its groups. -/
def withoutSeparators (separator : Option Char) (text : List Char) : List Char :=
  text.filter fun c => separator ≠ some c

theorem withoutSeparators_append (separator : Option Char) (xs ys : List Char) :
    withoutSeparators separator (xs ++ ys)
      = withoutSeparators separator xs ++ withoutSeparators separator ys :=
  List.filter_append ..

/-- Nothing is taken from a text in which no separator is. -/
theorem withoutSeparators_eq_self {separator : Option Char} {text : List Char}
    (h : ∀ c ∈ text, separator ≠ some c) : withoutSeparators separator text = text :=
  List.filter_eq_self.mpr fun c mem => decide_eq_true (h c mem)

/-- Taken out again, separators leave the groups that they were put between, if they occur in
none. -/
theorem withoutSeparators_intercalate {s : Char} {groups : List (List Char)}
    (h : ∀ c ∈ groups.flatten, c ≠ s) :
    withoutSeparators (some s) (List.intercalate [s] groups) = groups.flatten := by
  induction groups with
  | nil => rfl
  | cons g groups ih =>
    have front : withoutSeparators (some s) g = g := withoutSeparators_eq_self fun c mem same =>
      h c (List.mem_append_left _ mem) (Option.some.inj same).symm
    cases groups with
    | nil =>
      rw [List.intercalate_singleton, front, List.flatten_singleton]
    | cons g' groups =>
      have separator : withoutSeparators (some s) [s] = [] := by
        simp [withoutSeparators]
      rw [List.intercalate_cons_cons, withoutSeparators_append, withoutSeparators_append, front,
        separator, List.append_nil, ih fun c mem => h c (List.mem_append_right _ mem)]
      rfl

/-- Without separators, grouped digits are the digits with zeros in front of them. -/
theorem withoutSeparators_grouped {whole : List Char} {separator : Option Char}
    (distinct : ∀ c, c = '0' ∨ c ∈ whole → separator ≠ some c) (width : Nat) :
    ∃ n, withoutSeparators separator (grouped whole separator width)
      = List.replicate n '0' ++ whole := by
  cases separator with
  | none =>
    exact ⟨width - whole.length, withoutSeparators_eq_self fun _ _ => nofun⟩
  | some s =>
    obtain ⟨n, flat⟩ := flatten_groupsBackward whole.reverse (signedWord width)
    have kept : ∀ c ∈ (groupsBackward whole.reverse (signedWord width)).flatten, c ≠ s := by
      intro c mem same
      rw [flat, List.mem_append, List.mem_reverse] at mem
      exact distinct c (mem.symm.imp_left List.eq_of_mem_replicate) (congrArg some same.symm)
    have backward := withoutSeparators_intercalate kept
    rw [flat] at backward
    refine ⟨n, ?_⟩
    show withoutSeparators (some s) (List.reverse _) = _
    rw [withoutSeparators, List.filter_reverse]
    exact (congrArg List.reverse backward).trans (by
      rw [List.reverse_append, List.reverse_replicate, List.reverse_reverse])

end Decimal

end EntityJson
