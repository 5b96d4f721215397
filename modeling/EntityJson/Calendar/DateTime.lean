import EntityJson.Calendar.Date

/-!
# Times and date-times

A time of day counts seconds and nanoseconds since midnight. A leap second has no second of its own:
it is the one before it with a thousand million nanoseconds or more.

A **date-time** is a date and a time of day; a **zoned** one knows how far its clock is ahead of
universal time. Moving a date-time by seconds leaves the nanoseconds alone, a leap second's
included.
-/

namespace EntityJson

/-- The nanoseconds of a second. -/
def nanosPerSecond : Nat := 1000000000

/-- A time of day. -/
structure TimeOfDay where
  second : Nat
  nanosecond : Nat
  second_lt : second < 86400
  nanosecond_lt : nanosecond < 2 * nanosPerSecond
  deriving DecidableEq, Repr

namespace TimeOfDay

/-- The time of a clock, if there is such a time. Only the last second of a minute can be followed by
a leap second. -/
def ofClock? (hour minute second nanosecond : Nat) : Option TimeOfDay :=
  if h : hour < 24 ∧ minute < 60 ∧ second < 60 ∧
      (nanosecond < nanosPerSecond ∨ second = 59 ∧ nanosecond < 2 * nanosPerSecond) then
    some ⟨hour * 3600 + minute * 60 + second, nanosecond, by omega, by omega⟩
  else none

def hour (t : TimeOfDay) : Nat := t.second / 3600

def minute (t : TimeOfDay) : Nat := t.second / 60 % 60

/-- The second that a clock shows, one more in a leap second. -/
def shownSecond (t : TimeOfDay) : Nat :=
  t.second % 60 + t.nanosecond / nanosPerSecond

/-- The nanoseconds of the second that a clock shows. -/
def fraction (t : TimeOfDay) : Nat :=
  t.nanosecond % nanosPerSecond

/-- The hour on a dial of twelve. -/
def dialHour (t : TimeOfDay) : Nat :=
  if t.hour % 12 = 0 then 12 else t.hour % 12

def isAfternoon (t : TimeOfDay) : Bool :=
  12 ≤ t.hour

end TimeOfDay

/-- A date and a time of day. -/
structure DateTime where
  date : Date
  time : TimeOfDay
  deriving DecidableEq, Repr

namespace DateTime

/-- Moves a date-time by seconds. -/
def shift (x : DateTime) (seconds : Int) : DateTime :=
  let total := x.time.second + seconds
  { date := ⟨x.date.days + total / 86400⟩
    time := { x.time with
      second := (total % 86400).toNat
      second_lt := by omega } }

/-- The whole seconds since the start of 1970. -/
def seconds (x : DateTime) : Int :=
  x.date.days * 86400 + x.time.second

theorem ext_iff {x y : DateTime} : x = y ↔ x.date.days = y.date.days ∧
    x.time.second = y.time.second ∧ x.time.nanosecond = y.time.nanosecond := by
  obtain ⟨⟨_⟩, ⟨_, _, _, _⟩⟩ := x
  obtain ⟨⟨_⟩, ⟨_, _, _, _⟩⟩ := y
  simp

theorem shift_zero (x : DateTime) : x.shift 0 = x := by
  have := x.time.second_lt
  rw [ext_iff]
  refine ⟨?_, ?_, rfl⟩ <;> simp only [shift] <;> omega

theorem shift_shift (x : DateTime) (a b : Int) : (x.shift a).shift b = x.shift (a + b) := by
  rw [ext_iff]
  refine ⟨?_, ?_, rfl⟩ <;> simp only [shift] <;> omega

theorem seconds_shift (x : DateTime) (a : Int) : (x.shift a).seconds = x.seconds + a := by
  simp only [seconds, shift]
  omega

end DateTime

/-- What a clock shows that is `offset` seconds ahead of universal time. -/
structure ZonedDateTime where
  clock : DateTime
  offset : Int
  deriving DecidableEq, Repr

namespace ZonedDateTime

/-- The same instant in universal time. -/
def instant (x : ZonedDateTime) : DateTime :=
  x.clock.shift (-x.offset)

/-- What a clock shows at an instant. -/
def ofInstant (instant : DateTime) (offset : Int) : ZonedDateTime :=
  ⟨instant.shift offset, offset⟩

theorem instant_ofInstant (x : DateTime) (offset : Int) : (ofInstant x offset).instant = x := by
  rw [instant, ofInstant, DateTime.shift_shift, Int.add_right_neg, DateTime.shift_zero]

end ZonedDateTime

end EntityJson
