import EntityJson.Calendar.Format
import EntityJson.Proofs.Calendar.Civil
import EntityJson.Serializer.Builtin

/-!
# Date-times by the clocks of a zone

By the clocks of a zone a date-time is written as they show it, so what it is written like depends on its
instant alone, and not on the offset that it came with (`Clocks.format_of_sameInstant`). A date-time
without an offset is written as one with the offset zero.

Of a zone that takes no more than what clocks are to the program (`Clocks`): how far they are ahead of
universal time at an instant, and a text for the year, month and day, the time of day and the offset that
they show then. The known zones are such clocks (`Clocks.format_ofZone`), as those fields determine the
date.

Two date-times denote the same instant if the same number of seconds has gone by in universal time and
both stand at the same nanosecond, in a leap second or not (`ZonedDateTime.SameInstant`). Their clocks may
show different days, months and years.
-/

namespace EntityJson

/-- A date-time is the whole seconds since the start of 1970 and the nanoseconds. -/
theorem DateTime.eq_iff_seconds {x y : DateTime} :
    x = y ↔ x.seconds = y.seconds ∧ x.time.nanosecond = y.time.nanosecond := by
  have := x.time.second_lt
  have := y.time.second_lt
  rw [ext_iff, seconds, seconds]
  omega

namespace ZonedDateTime

/-- The whole seconds since the start of 1970 in universal time. -/
def seconds (x : ZonedDateTime) : Int :=
  x.clock.seconds - x.offset

/-- Whether two date-times denote the same instant. -/
structure SameInstant (x y : ZonedDateTime) : Prop where
  seconds_eq : x.seconds = y.seconds
  nanosecond_eq : x.clock.time.nanosecond = y.clock.time.nanosecond

variable {x y : ZonedDateTime}

theorem seconds_instant (x : ZonedDateTime) : x.instant.seconds = x.seconds := by
  rw [instant, DateTime.seconds_shift, seconds, Int.sub_eq_add_neg]

theorem instant_eq_iff : x.instant = y.instant ↔ x.SameInstant y := by
  rw [DateTime.eq_iff_seconds, seconds_instant, seconds_instant]
  exact ⟨fun ⟨seconds, nanosecond⟩ => ⟨seconds, nanosecond⟩,
    fun ⟨seconds, nanosecond⟩ => ⟨seconds, nanosecond⟩⟩

/-- A clock of any offset shows the instant. -/
theorem sameInstant_ofInstant (x : ZonedDateTime) (offset : Int) :
    (ofInstant x.instant offset).SameInstant x :=
  instant_eq_iff.mp (instant_ofInstant x.instant offset)

/-- A date-time without an offset is one with the offset zero in universal time. -/
theorem instant_universal (n : DateTime) : (ZonedDateTime.mk n 0).instant = n :=
  n.shift_zero

end ZonedDateTime

/-- Clocks, by how far they are ahead of universal time at an instant, and by what is written in a pattern
for the date and the time that they show and for how far they are ahead. -/
structure Clocks where
  offsetAt : DateTime → ClockOffset
  write : CivilDate → TimeOfDay → ClockOffset → String → Option String

namespace Clocks

/-- The pattern that is meant by a format: an empty one stands for the standard form. -/
def patternOf (format : String) : String :=
  if format.isEmpty then "%Y-%m-%dT%H:%M:%S%.f%:z" else format

/-- A text, or that there is none in the format. -/
def outcome (format : String) : Option String → Except SerializeError String
  | some text => .ok text
  | none => .error (.invalidFormat .dateTime format)

/-- What the clocks show at an instant. -/
def shownAt (c : Clocks) (instant : DateTime) : ZonedDateTime :=
  .ofInstant instant (c.offsetAt instant).seconds

/-- Writes what the clocks show at an instant. -/
def writeAt (c : Clocks) (instant : DateTime) (pattern : String) : Option String :=
  let clock := (c.shownAt instant).clock
  c.write clock.date.civil clock.time (c.offsetAt instant) pattern

/-- Writes a date-time that has an offset of its own. -/
def formatZoned (c : Clocks) (x : ZonedDateTime) (format : String) : Except SerializeError String :=
  outcome format (c.writeAt x.instant (patternOf format))

/-- Writes a date-time without an offset, which is taken to be in universal time. -/
def formatUniversal (c : Clocks) (n : DateTime) (format : String) : Except SerializeError String :=
  outcome format (c.writeAt n (patternOf format))

/-- The clocks of a known zone. -/
def ofZone (zone : Zone) : Clocks where
  offsetAt := zone.offsetAt
  write date time offset pattern :=
    (Pattern.parse? pattern).bind (Moment.render? ⟨some (.ofCivil date), some time, some offset⟩)

/-- The standard form is a pattern like others. -/
theorem format?_isoInstant (m : Moment) (format : String) :
    m.format? format Pattern.isoInstant = (Pattern.parse? (patternOf format)).bind m.render? := by
  have standard : Pattern.parse? "%Y-%m-%dT%H:%M:%S%.f%:z" = some Pattern.isoInstant := by
    decide +kernel
  unfold Moment.format? patternOf
  split
  · rw [standard, Option.bind_some]
  · rfl

/-- The known zones are written by their clocks. -/
theorem format_ofZone (zone : Zone) (instant : DateTime) (format : String) :
    outcome format (zone.format? instant format) = (ofZone zone).formatUniversal instant format :=
  congrArg (outcome format) (by
    simp only [Zone.format?, format?_isoInstant, writeAt, ofZone, Date.ofCivil_civil]
    rfl)

/-- By the clocks of a zone two date-times of the same instant are written in the same way, or in the
same way are not, whatever offsets they have. The clocks show that instant. A date-time without an offset
is written like the one with the offset zero. All this holds of any clocks, and so of those of the
known zones. -/
theorem format_of_sameInstant (format : String) :
    (∀ (clocks : Clocks) (x y : ZonedDateTime), x.SameInstant y →
      clocks.formatZoned x format = clocks.formatZoned y format) ∧
    (∀ (clocks : Clocks) (n : DateTime),
      clocks.formatUniversal n format = clocks.formatZoned ⟨n, 0⟩ format) ∧
    (∀ (clocks : Clocks) (x : ZonedDateTime), (clocks.shownAt x.instant).SameInstant x) ∧
    ∀ (zone : Zone),
      (∀ x : ZonedDateTime,
        outcome format (x.format? format (some zone)) = (ofZone zone).formatZoned x format) ∧
      (∀ n : DateTime,
        outcome format (n.format? format (some zone)) = (ofZone zone).formatUniversal n format) ∧
      (∀ x y : ZonedDateTime, x.SameInstant y →
        x.format? format (some zone) = y.format? format (some zone)) ∧
      ∀ n : DateTime,
        n.format? format (some zone) = (ZonedDateTime.mk n 0).format? format (some zone) := by
  have universal : ∀ (clocks : Clocks) (x : ZonedDateTime),
      clocks.formatZoned x format = clocks.formatUniversal x.instant format := fun _ _ => rfl
  refine ⟨fun clocks x y same => ?_, fun clocks n => ?_, fun clocks x => ?_, fun zone =>
    ⟨fun x => ?_, fun n => ?_, fun x y same => ?_, fun n => ?_⟩⟩
  · rw [universal, universal, ZonedDateTime.instant_eq_iff.mpr same]
  · rw [universal, ZonedDateTime.instant_universal]
  · exact x.sameInstant_ofInstant _
  · exact format_ofZone zone x.instant format
  · exact format_ofZone zone n format
  · show zone.format? x.instant format = zone.format? y.instant format
    rw [ZonedDateTime.instant_eq_iff.mpr same]
  · show zone.format? n format = zone.format? (ZonedDateTime.mk n 0).instant format
    rw [ZonedDateTime.instant_universal]

/-- At the end of 2016 a leap second went by in London; in India the new year had begun by then, and in
New York the old one had five hours left. -/
theorem format_of_sameInstant_of_leapSecond :
    let leap (second : Nat) (lt : second < 86400) : TimeOfDay := ⟨second, 1000000000, lt, by decide⟩
    let london : ZonedDateTime := ⟨⟨.ofCivil ⟨2016, 12, 31⟩, leap 86399 (by decide)⟩, 0⟩
    let india : ZonedDateTime := ⟨⟨.ofCivil ⟨2017, 1, 1⟩, leap 19799 (by decide)⟩, 19800⟩
    let newYork : Zone :=
      ⟨"America/New_York", Zone.northAmerican ⟨-18000, "EST"⟩ ⟨-14400, "EDT"⟩⟩
    london.SameInstant india ∧
      (ofZone newYork).formatZoned london "" = (ofZone newYork).formatZoned india "" ∧
      (ofZone newYork).formatZoned india "" = .ok "2016-12-31T18:59:60-05:00" := by
  intro leap london india newYork
  have same : london.SameInstant india := ⟨by decide, by decide⟩
  have written : (ofZone newYork).writeAt india.instant (patternOf "") =
      some "2016-12-31T18:59:60-05:00" := by decide +kernel
  exact ⟨same, (format_of_sameInstant "").1 (ofZone newYork) london india same,
    congrArg (outcome "") written⟩

end Clocks

/-- Under options with a time zone the JSON form of a date-time depends on its instant alone. -/
theorem Options.convertScalar_of_sameInstant {ι : Type} {o : Options ι} {zone : Zone}
    {x y : ZonedDateTime} (given : o.timeZone = some zone) (same : x.SameInstant y) :
    o.convertScalar (.zonedDateTime x) = o.convertScalar (.zonedDateTime y) := by
  have written : ∀ format, x.format? format o.timeZone = y.format? format o.timeZone := by
    intro format
    rw [given]
    exact congrArg (zone.format? · format) (ZonedDateTime.instant_eq_iff.mpr same)
  simp only [convertScalar, convertScalar.written, written]

end EntityJson
