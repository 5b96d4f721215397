import EntityJson.Text.Quoted
import EntityJson.Value.Inspect

/-!
# Formats

The patterns in which dates, times, date-times and decimals are written. One that is not set falls
back to another set of formats when they are layered, and to a default in the end.
-/

namespace EntityJson

/-- A format for each kind of scalar that has one. -/
structure Formats where
  date : Option String := none
  time : Option String := none
  dateTime : Option String := none
  decimal : Option String := none
  deriving DecidableEq, Repr

namespace Formats

def dateFormat (f : Formats) : String := f.date.getD "%Y-%m-%d"

def timeFormat (f : Formats) : String := f.time.getD "%H:%M:%S"

def dateTimeFormat (f : Formats) : String := f.dateTime.getD "%Y-%m-%d %H:%M:%S"

def decimalFormat (f : Formats) : String := f.decimal.getD "\x7b\x7d"

/-- The formats with each default filled in. -/
def resolved (f : Formats) : Formats where
  date := some f.dateFormat
  time := some f.timeFormat
  dateTime := some f.dateTimeFormat
  decimal := some f.decimalFormat

/-- The formats with those that are not set taken from others. -/
def layer (f fallback : Formats) : Formats where
  date := f.date.or fallback.date
  time := f.time.or fallback.time
  dateTime := f.dateTime.or fallback.dateTime
  decimal := f.decimal.or fallback.decimal

def inspect (f : Formats) : String :=
  Inspect.record "Formats"
    [("date", Inspect.optional Quoted.text f.date), ("time", Inspect.optional Quoted.text f.time),
      ("datetime", Inspect.optional Quoted.text f.dateTime),
      ("decimal", Inspect.optional Quoted.text f.decimal)]

end Formats

end EntityJson
