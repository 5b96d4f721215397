/-!
# Dates

A date of the Gregorian calendar, continued into the past without end, is the number of days since
1 January 1970; year, month and day are computed from it. Years are counted with a year zero.

The count runs over **eras** of 400 years, which all have the same length, and over years that start
in March, so that the day which a leap year adds comes last.
-/

namespace EntityJson

/-- A date, as the number of days since 1 January 1970. -/
structure Date where
  days : Int
  deriving DecidableEq, Repr

/-- A date by year, month and day of the month. -/
structure CivilDate where
  year : Int
  month : Nat
  day : Nat
  deriving DecidableEq, Repr

def isLeapYear (year : Int) : Bool :=
  year % 4 = 0 && (year % 100 ≠ 0 || year % 400 = 0)

def daysInMonth (year : Int) (month : Nat) : Nat :=
  if month = 2 then if isLeapYear year then 29 else 28
  else if month = 4 ∨ month = 6 ∨ month = 9 ∨ month = 11 then 30 else 31

namespace CivilDate

def isValid (c : CivilDate) : Bool :=
  1 ≤ c.month && c.month ≤ 12 && 1 ≤ c.day && c.day ≤ daysInMonth c.year c.month

end CivilDate

namespace Date

def daysPerEra : Int := 146097

/-- The days from 1 March of year zero to 1 January 1970. -/
def epochOffset : Int := 719468

/-- The date of a year, month and day. -/
def ofCivil (c : CivilDate) : Date :=
  let year := if c.month ≤ 2 then c.year - 1 else c.year
  let yearOfEra := year % 400
  let month : Int := (c.month + 9) % 12
  let dayOfYear := (153 * month + 2) / 5 + c.day - 1
  let dayOfEra := yearOfEra * 365 + yearOfEra / 4 - yearOfEra / 100 + dayOfYear
  ⟨year / 400 * daysPerEra + dayOfEra - epochOffset⟩

/-- The date of a year, month and day, if there is such a day. -/
def ofCivil? (c : CivilDate) : Option Date :=
  if c.isValid then some (ofCivil c) else none

/-- Year, month and day of a date. -/
def civil (d : Date) : CivilDate :=
  let dayOfEra := (d.days + epochOffset) % daysPerEra
  let yearOfEra := (dayOfEra - dayOfEra / 1460 + dayOfEra / 36524 - dayOfEra / 146096) / 365
  let dayOfYear := dayOfEra - (365 * yearOfEra + yearOfEra / 4 - yearOfEra / 100)
  let month := (5 * dayOfYear + 2) / 153
  let day := dayOfYear - (153 * month + 2) / 5 + 1
  let year := (d.days + epochOffset) / daysPerEra * 400 + yearOfEra
  if month < 10 then ⟨year, (month + 3).toNat, day.toNat⟩
  else ⟨year + 1, (month - 9).toNat, day.toNat⟩

def year (d : Date) : Int := d.civil.year

/-- The first day of a year. -/
def newYear (year : Int) : Date :=
  ofCivil ⟨year, 1, 1⟩

/-- The days since the first day of the year. -/
def dayOfYear (d : Date) : Nat :=
  (d.days - (newYear d.year).days).toNat

/-- The days since the last Sunday, from 0 to 6. -/
def daysFromSunday (d : Date) : Nat :=
  ((d.days + 4) % 7).toNat

/-- The days since the last Monday, from 0 to 6. -/
def daysFromMonday (d : Date) : Nat :=
  ((d.days + 3) % 7).toNat

/-- The week of the year if weeks start `sinceStart` days before the date; the days in front of the
first whole week are in week zero. -/
def weekOfYear (d : Date) (sinceStart : Nat) : Nat :=
  (d.dayOfYear + 7 - sinceStart) / 7

/-- The Thursday of the week from Monday to Sunday that the date is in. -/
def thursday (d : Date) : Date :=
  ⟨d.days - d.daysFromMonday + 3⟩

/-- The year that the week of the date is counted in, which is the year of its Thursday. -/
def weekYear (d : Date) : Int :=
  d.thursday.year

/-- The number of the week of the date, counted by Thursdays from 1. -/
def week (d : Date) : Nat :=
  d.thursday.dayOfYear / 7 + 1

end Date

end EntityJson
