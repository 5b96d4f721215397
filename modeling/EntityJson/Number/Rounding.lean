/-!
# Rounding a quotient, counting digits

Quotients of natural numbers are rounded to the nearest natural number, and a quotient half-way
between two goes to the even one. `two_mul_divHalfEven_le` and `le_two_mul_divHalfEven` say that the
result is within a half of the quotient.
-/

namespace EntityJson

/-- The natural number nearest to `n / d`, the even one of two that are equally near. -/
def divHalfEven (n d : Nat) : Nat :=
  let q := n / d
  let r := n % d
  if 2 * r < d then q
  else if d < 2 * r then q + 1
  else if q % 2 = 0 then q else q + 1

/-- The number of decimal digits of `n`; zero has one. -/
def digitCount (n : Nat) : Nat :=
  (Nat.toDigits 10 n).length

theorem two_mul_divHalfEven_le (n d : Nat) (hd : 0 < d) :
    2 * (d * divHalfEven n d) ≤ 2 * n + d := by
  have h := Nat.div_add_mod n d
  have hr := Nat.mod_lt n hd
  unfold divHalfEven
  simp only
  split
  · omega
  · split
    · rw [Nat.mul_add]; omega
    · split
      · omega
      · rw [Nat.mul_add]; omega

theorem le_two_mul_divHalfEven (n d : Nat) (hd : 0 < d) :
    2 * n ≤ 2 * (d * divHalfEven n d) + d := by
  have h := Nat.div_add_mod n d
  have hr := Nat.mod_lt n hd
  unfold divHalfEven
  simp only
  split
  · omega
  · split
    · rw [Nat.mul_add]; omega
    · split
      · omega
      · rw [Nat.mul_add]; omega

theorem digitCount_pos (n : Nat) : 0 < digitCount n := by
  unfold digitCount
  exact Nat.length_toDigits_pos

end EntityJson
