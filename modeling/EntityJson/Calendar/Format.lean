import EntityJson.Calendar.Pattern
import EntityJson.Calendar.Zone

/-!
# Writing dates and times

A **moment** is what is known of a date or a time when it is written: its date, its time of day, and
the offset of its clock, any of which may be missing. A pattern that asks for a missing part gives no
text at all.

An empty pattern stands for the form of the international standard: date, time with the fraction of
the second as far as it is needed, and the offset if there is one.
-/

namespace EntityJson

/-- What is known of a date or a time. -/
structure Moment where
  date : Option Date
  time : Option TimeOfDay
  offset : Option ClockOffset

namespace Moment

/-- Pads the digits of a number to a width, which its sign counts towards. Blanks stand in front of
the sign, zeros behind it. -/
def padded (padding : Padding) (width : Nat) (sign digits : List Char) : List Char :=
  let missing := width - (sign.length + digits.length)
  match padding with
  | .none => sign ++ digits
  | .blanks => List.replicate missing ' ' ++ sign ++ digits
  | .zeros => sign ++ List.replicate missing '0' ++ digits

/-- A number with a sign if it is negative. -/
def signedNumber (padding : Padding) (width : Nat) (n : Int) : List Char :=
  padded padding width (if n < 0 then ['-'] else []) (Nat.toDigits 10 n.natAbs)

/-- A year in four digits, one outside of 0 to 9999 with its sign and one more. -/
def yearNumber (padding : Padding) (year : Int) : List Char :=
  if 0 ≤ year ∧ year < 10000 then signedNumber padding 4 year
  else padded padding 5 [if year < 0 then '-' else '+'] (Nat.toDigits 10 year.natAbs)

/-- A byte in two columns. Its tens are counted on through the characters behind the digits, which
only a century that is far away needs. -/
def twoColumns (padding : Padding) (n : Int) : List Char :=
  let byte := (n % 256).toNat
  let tens := if byte < 10 then match padding with
      | .none => []
      | .blanks => [' ']
      | .zeros => ['0']
    else [Char.ofNat (48 + byte / 10)]
  tens ++ [Char.ofNat (48 + byte % 10)]

def months : List String :=
  ["January", "February", "March", "April", "May", "June", "July", "August", "September",
    "October", "November", "December"]

/-- The days of the week, from Sunday on. -/
def weekdays : List String :=
  ["Sunday", "Monday", "Tuesday", "Wednesday", "Thursday", "Friday", "Saturday"]

def monthName (d : Date) : String :=
  months.getD (d.civil.month - 1) ""

def weekdayName (d : Date) : String :=
  weekdays.getD d.daysFromSunday ""

def abbreviated (name : String) : String :=
  String.ofList (name.toList.take 3)

/-- A number of a date. -/
def dateNumber? (part : NumberPart) (padding : Padding) (d : Date) : Option (List Char) :=
  let two (n : Int) := some (twoColumns padding n)
  let one (n : Nat) := some (Nat.toDigits 10 n)
  match part with
  | .year => some (yearNumber padding d.year)
  | .century => two (d.year / 100)
  | .yearOfCentury => two (d.year % 100)
  | .quarter => one ((d.civil.month - 1) / 3 + 1)
  | .month => two d.civil.month
  | .day => two d.civil.day
  | .weekday => one d.daysFromSunday
  | .isoWeekday => one (d.daysFromMonday + 1)
  | .weekFromSunday => two (d.weekOfYear d.daysFromSunday)
  | .weekFromMonday => two (d.weekOfYear d.daysFromMonday)
  | .weekYear => some (yearNumber padding d.weekYear)
  | .weekYearOfCentury => two (d.weekYear % 100)
  | .week => two d.week
  | .dayOfYear => some (signedNumber padding 3 (d.dayOfYear + 1))
  | _ => none

/-- A number of a time of day. -/
def timeNumber? (part : NumberPart) (padding : Padding) (t : TimeOfDay) : Option (List Char) :=
  match part with
  | .hour => some (twoColumns padding t.hour)
  | .dialHour => some (twoColumns padding t.dialHour)
  | .minute => some (twoColumns padding t.minute)
  | .second => some (twoColumns padding t.shownSecond)
  | .nanosecond => some (signedNumber padding 9 t.fraction)
  | _ => none

/-- The seconds since the start of 1970 in universal time. Without an offset the moment is taken to
be in universal time itself. -/
def timestamp? (m : Moment) : Option Int := do
  let date ← m.date
  let time ← m.time
  return (DateTime.mk date time).seconds - (m.offset.map (·.seconds)).getD 0

def number? (m : Moment) (part : NumberPart) (padding : Padding) : Option (List Char) :=
  match part with
  | .timestamp => m.timestamp?.map (signedNumber padding 9)
  | part => ((m.date.bind (dateNumber? part padding)).or (m.time.bind (timeNumber? part padding)))

def name? (m : Moment) : NamePart → Option String
  | .monthName => m.date.map monthName
  | .monthAbbreviation => m.date.map (abbreviated ∘ monthName)
  | .weekdayName => m.date.map weekdayName
  | .weekdayAbbreviation => m.date.map (abbreviated ∘ weekdayName)
  | .upperHalfDay => m.time.map fun t => if t.isAfternoon then "PM" else "AM"
  | .lowerHalfDay => m.time.map fun t => if t.isAfternoon then "pm" else "am"

/-- The first `groups` groups of three of the nine digits of the fraction of a second. -/
def fractionDigits (groups : Nat) (t : TimeOfDay) : List Char :=
  (signedNumber .zeros 9 t.fraction).take (3 * groups)

/-- The fraction of a second behind a point, in as few groups of three digits as show all of it. -/
def shortFraction (t : TimeOfDay) : List Char :=
  if t.fraction = 0 then []
  else if t.fraction % 1000000 = 0 then '.' :: fractionDigits 1 t
  else if t.fraction % 1000 = 0 then '.' :: fractionDigits 2 t
  else '.' :: fractionDigits 3 t

/-- The parts of an offset that a style shows, each in two digits. Minutes are rounded to the nearest,
a half away from zero; hours are cut off. -/
def offsetParts (style : OffsetStyle) (seconds : Nat) : List Nat :=
  let minutes := (seconds + 30) / 60
  match style with
  | .minutesPlain => [minutes / 60, minutes % 60]
  | .minutes => [minutes / 60, minutes % 60]
  | .seconds => [seconds / 3600, seconds / 60 % 60, seconds % 60]
  | .hours => [seconds / 3600]

def offsetText (style : OffsetStyle) (seconds : Int) : List Char :=
  let colon := if style = .minutesPlain then [] else [':']
  let parts := (offsetParts style seconds.natAbs).map fun n : Nat => twoColumns .zeros (n : Int)
  (if seconds < 0 then '-' else '+') :: List.intercalate colon parts

/-- Writes an element of a pattern; none if a part that it asks for is missing. -/
def element? (m : Moment) : PatternElement → Option String
  | .char c => some c.toString
  | .number part padding => (m.number? part padding).map String.ofList
  | .name part => m.name? part
  | .shortFraction => m.time.map (String.ofList ∘ shortFraction)
  | .fraction point groups => m.time.map fun t =>
    String.ofList ((if point then ['.'] else []) ++ fractionDigits groups t)
  | .offset style => m.offset.map fun o => String.ofList (offsetText style o.seconds)
  | .zoneName => m.offset.map (·.abbreviation)

/-- Writes the elements of a pattern. -/
def render? (m : Moment) : List PatternElement → Option String
  | [] => some ""
  | e :: es => do
    let text ← m.element? e
    return text ++ (← m.render? es)

/-- Writes a moment in a pattern, or in the standard form where the pattern is empty. -/
def format? (m : Moment) (pattern : String) (standard : List PatternElement) : Option String :=
  if pattern.isEmpty then m.render? standard
  else (Pattern.parse? pattern).bind m.render?

end Moment

/-- The name of an offset without a zone: hours and minutes, and seconds if there are any. -/
def bareOffset (seconds : Int) : ClockOffset :=
  let style := if seconds.natAbs % 60 = 0 then OffsetStyle.minutes else .seconds
  ⟨seconds, String.ofList (Moment.offsetText style seconds)⟩

/-- Writes a time of day. -/
def TimeOfDay.format? (t : TimeOfDay) (pattern : String) : Option String :=
  Moment.format? ⟨none, some t, none⟩ pattern (Pattern.clock ++ [.shortFraction])

/-- Writes a date. -/
def Date.format? (d : Date) (pattern : String) : Option String :=
  Moment.format? ⟨some d, none, none⟩ pattern Pattern.isoDate

/-- Writes what the clocks of a zone show at an instant. -/
def Zone.format? (zone : Zone) (instant : DateTime) (pattern : String) : Option String :=
  let offset := zone.offsetAt instant
  let clock := instant.shift offset.seconds
  Moment.format? ⟨some clock.date, some clock.time, some offset⟩ pattern Pattern.isoInstant

/-- Writes a zoned date-time, by the clocks of a zone if one is given and by its own otherwise. -/
def ZonedDateTime.format? (x : ZonedDateTime) (pattern : String) (zone : Option Zone) :
    Option String :=
  match zone with
  | some zone => zone.format? x.instant pattern
  | none =>
    Moment.format? ⟨some x.clock.date, some x.clock.time, some (bareOffset x.offset)⟩ pattern
      Pattern.isoInstant

/-- Writes a date-time without an offset. By the clocks of a zone it is taken to be in universal
time. -/
def DateTime.format? (x : DateTime) (pattern : String) (zone : Option Zone) : Option String :=
  match zone with
  | some zone => zone.format? x pattern
  | none => Moment.format? ⟨some x.date, some x.time, none⟩ pattern Pattern.isoDateTime

/-! ## The standard forms

The standard form of a date or a time asks for nothing that it lacks, so there always is one. -/

def TimeOfDay.text (t : TimeOfDay) : String := (t.format? "").getD ""

def Date.text (d : Date) : String := (d.format? "").getD ""

def DateTime.text (x : DateTime) : String := (x.format? "" none).getD ""

/-- The date and the time of the clock with the offset, to the second if it has seconds. -/
def ZonedDateTime.text (x : ZonedDateTime) : String :=
  x.clock.text ++ (bareOffset x.offset).abbreviation

end EntityJson
