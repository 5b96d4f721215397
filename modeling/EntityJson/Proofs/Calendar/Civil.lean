import EntityJson.Calendar.Date

/-!
# Dates and their civil form

The year, the month and the day of a date say which date it is (`Date.ofCivil_civil`).

The days of an era, less those that leap years have added by then, are 365 for each year. The day that a
leap year adds comes last in it, so a day counts to the year in which it falls (`Date.yearOfEra_spec`):
that is checked at both ends of each of the 400 years, and in between the common days only grow.
-/

namespace EntityJson.Date

/-- The days of an era in front of a year of it. -/
def daysBeforeYear (yearOfEra : Int) : Int :=
  365 * yearOfEra + yearOfEra / 4 - yearOfEra / 100

/-- The days of an era up to one of them, without those that leap years have added. -/
def commonDays (dayOfEra : Int) : Int :=
  dayOfEra - dayOfEra / 1460 + dayOfEra / 36524 - dayOfEra / 146096

/-- A leap day takes back no more than the day that has gone by. -/
theorem commonDays_le_succ {n : Int} (low : 0 ≤ n) (high : n < 146096) :
    commonDays n ≤ commonDays (n + 1) := by
  unfold commonDays
  omega

/-- By induction from one day to the next. -/
theorem commonDays_mono {m n : Int} (low : 0 ≤ m) (le : m ≤ n) (high : n ≤ 146096) :
    commonDays m ≤ commonDays n := by
  obtain ⟨k, rfl⟩ := Int.le.dest le
  induction k with
  | zero => exact Int.le_of_eq (congrArg commonDays (Int.add_zero m).symm)
  | succ k ih =>
    have next := commonDays_le_succ (n := m + k) (by omega) (by omega)
    rw [Int.add_assoc] at next
    exact Int.le_trans (ih (by omega) (by omega)) next

/-- Before the first day of a year at least as many common years have gone by as there are years
before it. -/
theorem le_commonDays_firstDay {y : Int} (low : 0 ≤ y) (high : y < 400) :
    365 * y ≤ commonDays (daysBeforeYear y) := by
  have all : ∀ y : Fin 400, 365 * (y : Int) ≤ commonDays (daysBeforeYear y) := by decide +kernel
  have same : ((y.toNat : Nat) : Int) = y := Int.toNat_of_nonneg low
  have ofYear := all ⟨y.toNat, by omega⟩
  rwa [same] at ofYear

/-- And before the last day of the year in front of it fewer. -/
theorem commonDays_lastDay_lt {y : Int} (low : 0 < y) (high : y ≤ 400) :
    commonDays (daysBeforeYear y - 1) < 365 * y := by
  have all : ∀ y : Fin 400, commonDays (daysBeforeYear (y + 1) - 1) < 365 * ((y : Int) + 1) := by
    decide +kernel
  have same : (((y - 1).toNat : Nat) : Int) + 1 = y := by omega
  have ofYear := all ⟨(y - 1).toNat, by omega⟩
  rwa [same] at ofYear

/-- A day of an era falls into the year that its common days say. -/
theorem yearOfEra_spec {n y : Int} (low : 0 ≤ n) (high : n ≤ 146096) (year : y = commonDays n / 365) :
    (0 ≤ y ∧ y < 400) ∧ daysBeforeYear y ≤ n ∧ n ≤ daysBeforeYear y + 365 := by
  have least : commonDays 0 ≤ commonDays n := commonDays_mono (Int.le_refl 0) low high
  have most : commonDays n ≤ commonDays 146096 := commonDays_mono low high (Int.le_refl _)
  have none : commonDays 0 = 0 := rfl
  have all : commonDays 146096 = 145999 := rfl
  have bounds : 0 ≤ y ∧ y < 400 := by omega
  have days : daysBeforeYear y = 365 * y + y / 4 - y / 100 := rfl
  refine ⟨bounds, Int.not_lt.mp fun earlier => ?_, Int.not_lt.mp fun later => ?_⟩
  · -- The common days of the last day in front of the year are too few.
    have lastDay := commonDays_lastDay_lt (y := y) (by omega) (by omega)
    have := commonDays_mono (n := daysBeforeYear y - 1) low (by omega) (by omega)
    omega
  · -- Those of the first day behind the year are too many; the last year is followed by none.
    have nextDays : daysBeforeYear (y + 1) = 365 * (y + 1) + (y + 1) / 4 - (y + 1) / 100 := rfl
    have firstDay := le_commonDays_firstDay (y := y + 1) (by omega) (by omega)
    have := commonDays_mono (m := daysBeforeYear (y + 1)) (by omega) (by omega) high
    omega

/-- The year, the month and the day of a day of a year that starts in March. -/
def civilOfMarch (year dayOfYear : Int) : CivilDate :=
  let month := (5 * dayOfYear + 2) / 153
  let day := dayOfYear - (153 * month + 2) / 5 + 1
  if month < 10 then ⟨year, (month + 3).toNat, day.toNat⟩
  else ⟨year + 1, (month - 9).toNat, day.toNat⟩

theorem ofCivil_civilOfMarch (era : Int) {y dayOfYear : Int} (year : 0 ≤ y ∧ y < 400)
    (day : 0 ≤ dayOfYear ∧ dayOfYear ≤ 365) :
    ofCivil (civilOfMarch (era * 400 + y) dayOfYear) =
      ⟨era * daysPerEra + (daysBeforeYear y + dayOfYear) - epochOffset⟩ := by
  simp only [civilOfMarch]
  split
  · have late : ¬ ((5 * dayOfYear + 2) / 153 + 3).toNat ≤ 2 := by omega
    have month : ((((5 * dayOfYear + 2) / 153 + 3).toNat : Int) + 9) % 12 =
        (5 * dayOfYear + 2) / 153 := by omega
    have mod : (era * 400 + y) % 400 = y := by omega
    have div : (era * 400 + y) / 400 = era := by omega
    simp only [ofCivil, if_neg late, month, mod, div, daysBeforeYear]
    congr 1
    omega
  · have early : ((5 * dayOfYear + 2) / 153 - 9).toNat ≤ 2 := by omega
    have month : ((((5 * dayOfYear + 2) / 153 - 9).toNat : Int) + 9) % 12 =
        (5 * dayOfYear + 2) / 153 := by omega
    have mod : (era * 400 + y + 1 - 1) % 400 = y := by omega
    have div : (era * 400 + y + 1 - 1) / 400 = era := by omega
    simp only [ofCivil, if_pos early, month, mod, div, daysBeforeYear]
    congr 1
    omega

/-- The year, the month and the day of a date make it up. -/
theorem ofCivil_civil (d : Date) : ofCivil d.civil = d := by
  have low : 0 ≤ (d.days + epochOffset) % daysPerEra := Int.emod_nonneg _ (by decide)
  have high : (d.days + epochOffset) % daysPerEra < daysPerEra := Int.emod_lt_of_pos _ (by decide)
  obtain ⟨year, first, last⟩ := yearOfEra_spec low (Int.le_of_lt_add_one high) rfl
  have split := Int.mul_ediv_add_emod (d.days + epochOffset) daysPerEra
  refine (ofCivil_civilOfMarch ((d.days + epochOffset) / daysPerEra) year
    ⟨Int.sub_nonneg_of_le first, by omega⟩).trans ?_
  congr 1
  rw [Int.mul_comm]
  omega

end EntityJson.Date
