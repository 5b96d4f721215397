/-!
# Powers of two and of ten

Binary numbers are multiples of powers of two and decimal ones of powers of ten; a word has two to
the power of 64 values. `twoPow_succ` and `tenPow_succ` are the recursions that arithmetic with them
rests on.
-/

namespace EntityJson

/-- Two to the power of `k`. -/
def twoPow (k : Nat) : Nat := Nat.pow 2 k

/-- Ten to the power of `k`. -/
def tenPow (k : Nat) : Nat := Nat.pow 10 k

/-- The number of values of a word of 64 bits, and so the least number that has no word. -/
def wordLimit : Nat := 18446744073709551616

theorem twoPow_succ (k : Nat) : twoPow (k + 1) = 2 * twoPow k :=
  Nat.mul_comm (twoPow k) 2

theorem twoPow_pos (k : Nat) : 0 < twoPow k := by
  induction k with
  | zero => exact Nat.zero_lt_one
  | succ k ih => rw [twoPow_succ]; omega

theorem tenPow_zero : tenPow 0 = 1 := rfl

theorem tenPow_succ (k : Nat) : tenPow (k + 1) = 10 * tenPow k :=
  Nat.mul_comm (tenPow k) 10

theorem tenPow_pos (k : Nat) : 0 < tenPow k := by
  induction k with
  | zero => exact Nat.zero_lt_one
  | succ k ih => rw [tenPow_succ]; omega

end EntityJson
