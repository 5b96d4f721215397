import EntityJson.Calendar.DateTime

/-!
# Time zones

A zone gives, for an instant, how far its clocks are ahead of universal time and what they call that.
A **fixed** zone always gives the same. A **seasonal** one puts its clocks on in one season: the
season starts and ends on Sundays told by their month and their place in it, when a clock of the zone
shows a certain time. The rules of the seasonal zones are those in force from 2012 on.
-/

namespace EntityJson

/-- How far clocks are ahead of universal time, in seconds, and the abbreviation for it. -/
structure ClockOffset where
  seconds : Int
  abbreviation : String
  deriving DecidableEq, Repr

/-- A Sunday of a month: the first one from a day of the month on. -/
structure SundayFrom where
  month : Nat
  day : Nat
  deriving DecidableEq, Repr

namespace SundayFrom

def inYear (s : SundayFrom) (year : Int) : Date :=
  let start := Date.ofCivil ⟨year, s.month, s.day⟩
  ⟨start.days + (7 - start.daysFromSunday) % 7⟩

/-- The first Sunday of a month. -/
def first (month : Nat) : SundayFrom := ⟨month, 1⟩

/-- The second Sunday of a month. -/
def second (month : Nat) : SundayFrom := ⟨month, 8⟩

/-- The last Sunday of a month of 31 days. -/
def last (month : Nat) : SundayFrom := ⟨month, 25⟩

end SundayFrom

/-- When the clocks of a zone are changed: the day, and the time that they show before it. -/
structure ClockChange where
  day : SundayFrom
  hour : Nat
  deriving DecidableEq, Repr

/-- The instant of a change in a year, in seconds since the start of 1970, if clocks are ahead by
`before` until then. -/
def ClockChange.instant (c : ClockChange) (year : Int) (before : ClockOffset) : Int :=
  (c.day.inYear year).days * 86400 + c.hour * 3600 - before.seconds

/-- How the clocks of a zone are set. -/
inductive ZoneRules where
  | fixed (offset : ClockOffset)
  | seasonal (standard daylight : ClockOffset) (starts ends : ClockChange)
  deriving DecidableEq, Repr

/-- The offset at an instant. A season that ends earlier in the year than it starts lasts over the
turn of the year. -/
def ZoneRules.offsetAt (rules : ZoneRules) (instant : DateTime) : ClockOffset :=
  match rules with
  | fixed offset => offset
  | seasonal standard daylight starts ends =>
    let year := instant.date.year
    let start := starts.instant year standard
    let stop := ends.instant year daylight
    let now := instant.seconds
    let inSeason := if start < stop then start ≤ now && now < stop else now < stop || start ≤ now
    if inSeason then daylight else standard

/-- A time zone. -/
structure Zone where
  name : String
  rules : ZoneRules
  deriving DecidableEq, Repr

namespace Zone

def offsetAt (z : Zone) (instant : DateTime) : ClockOffset :=
  z.rules.offsetAt instant

/-- Seconds of hours and minutes. -/
def hm (hours minutes : Int) : Int :=
  hours * 3600 + minutes * 60

def utc : Zone := ⟨"UTC", .fixed ⟨0, "UTC"⟩⟩

/-- The season of North America: from the second Sunday of March to the first one of November. -/
def northAmerican (standard daylight : ClockOffset) : ZoneRules :=
  .seasonal standard daylight ⟨.second 3, 2⟩ ⟨.first 11, 2⟩

/-- The season of Europe: from the last Sunday of March to the last one of October, at one o'clock
universal time. -/
def european (standard daylight : ClockOffset) (startHour : Nat) : ZoneRules :=
  .seasonal standard daylight ⟨.last 3, startHour⟩ ⟨.last 10, startHour + 1⟩

def centralEuropean : ZoneRules :=
  european ⟨hm 1 0, "CET"⟩ ⟨hm 2 0, "CEST"⟩ 2

/-- The zones that are known. -/
def all : List Zone := [
  utc,
  ⟨"Asia/Tokyo", .fixed ⟨hm 9 0, "JST"⟩⟩,
  ⟨"Asia/Kolkata", .fixed ⟨hm 5 30, "IST"⟩⟩,
  ⟨"Asia/Kathmandu", .fixed ⟨hm 5 45, "+0545"⟩⟩,
  ⟨"Pacific/Kiritimati", .fixed ⟨hm 14 0, "+14"⟩⟩,
  ⟨"Etc/GMT+5", .fixed ⟨hm (-5) 0, "-05"⟩⟩,
  ⟨"Etc/GMT-14", .fixed ⟨hm 14 0, "+14"⟩⟩,
  ⟨"America/New_York", northAmerican ⟨hm (-5) 0, "EST"⟩ ⟨hm (-4) 0, "EDT"⟩⟩,
  ⟨"America/St_Johns", northAmerican ⟨hm (-3) (-30), "NST"⟩ ⟨hm (-2) (-30), "NDT"⟩⟩,
  ⟨"Europe/London", european ⟨0, "GMT"⟩ ⟨hm 1 0, "BST"⟩ 1⟩,
  ⟨"Europe/Berlin", centralEuropean⟩,
  ⟨"Europe/Paris", centralEuropean⟩,
  ⟨"Australia/Lord_Howe",
    .seasonal ⟨hm 10 30, "+1030"⟩ ⟨hm 11 0, "+11"⟩ ⟨.first 10, 2⟩ ⟨.first 4, 2⟩⟩]

/-- The zone of a name, which has to be spelled exactly. -/
def ofName? (name : String) : Option Zone :=
  all.find? (·.name = name)

end Zone

end EntityJson
