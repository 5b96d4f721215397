/-!
# Patterns of dates and times

A pattern is text with **directives**, each a percent sign and a letter that stands for a part of a
date or a time. `Pattern.parse?` takes a pattern apart into elements; some directives stand for
several elements at once. Between the percent sign and the letter of a number a flag can say how the
number is padded: `-` not at all, `_` with blanks, `0` with zeros.
-/

namespace EntityJson

/-- How a number is brought to its width. -/
inductive Padding where
  | none
  | blanks
  | zeros
  deriving DecidableEq, Repr

/-- The parts of a date or a time that are written as numbers. -/
inductive NumberPart where
  | year
  | century
  | yearOfCentury
  | quarter
  | month
  | day
  | weekday
  | isoWeekday
  | weekFromSunday
  | weekFromMonday
  | weekYear
  | weekYearOfCentury
  | week
  | dayOfYear
  | hour
  | dialHour
  | minute
  | second
  | nanosecond
  | timestamp
  deriving DecidableEq, Repr

/-- The parts of a date or a time that are written as words. -/
inductive NamePart where
  | monthName
  | monthAbbreviation
  | weekdayName
  | weekdayAbbreviation
  | upperHalfDay
  | lowerHalfDay
  deriving DecidableEq, Repr

/-- How the offset from universal time is written: to the minute, without or with a colon, to the
second, or to the hour. -/
inductive OffsetStyle where
  | minutesPlain
  | minutes
  | seconds
  | hours
  deriving DecidableEq, Repr

/-- A piece of a pattern. -/
inductive PatternElement where
  | char (c : Char)
  | number (part : NumberPart) (padding : Padding)
  | name (part : NamePart)
  /-- The fraction of the second in as many groups of three digits as it needs, behind a point; no
  text if it is zero. -/
  | shortFraction
  /-- The fraction of the second in `3 * groups` digits. -/
  | fraction (point : Bool) (groups : Nat)
  | offset (style : OffsetStyle)
  | zoneName
  deriving DecidableEq, Repr

namespace Pattern

open PatternElement NumberPart NamePart

/-- The number that a letter stands for, and how it is padded if no flag says so. -/
def numberOf? : Char → Option (NumberPart × Padding)
  | 'Y' => some (year, .zeros)
  | 'C' => some (century, .zeros)
  | 'y' => some (yearOfCentury, .zeros)
  | 'q' => some (quarter, .zeros)
  | 'm' => some (month, .zeros)
  | 'd' => some (day, .zeros)
  | 'e' => some (day, .blanks)
  | 'w' => some (weekday, .zeros)
  | 'u' => some (isoWeekday, .zeros)
  | 'U' => some (weekFromSunday, .zeros)
  | 'W' => some (weekFromMonday, .zeros)
  | 'G' => some (weekYear, .zeros)
  | 'g' => some (weekYearOfCentury, .zeros)
  | 'V' => some (week, .zeros)
  | 'j' => some (dayOfYear, .zeros)
  | 'H' => some (hour, .zeros)
  | 'k' => some (hour, .blanks)
  | 'I' => some (dialHour, .zeros)
  | 'l' => some (dialHour, .blanks)
  | 'M' => some (minute, .zeros)
  | 'S' => some (second, .zeros)
  | 'f' => some (nanosecond, .zeros)
  | 's' => some (timestamp, .none)
  | _ => none

def zeroPadded (part : NumberPart) : PatternElement :=
  number part .zeros

def monthDayYear : List PatternElement :=
  [zeroPadded month, char '/', zeroPadded day, char '/', zeroPadded yearOfCentury]

def isoDate : List PatternElement :=
  [zeroPadded year, char '-', zeroPadded month, char '-', zeroPadded day]

def hourMinute : List PatternElement :=
  [zeroPadded hour, char ':', zeroPadded minute]

def clock : List PatternElement :=
  hourMinute ++ [char ':', zeroPadded second]

/-- A date and a time with the fraction of the second, without an offset. -/
def isoDateTime : List PatternElement :=
  isoDate ++ [char 'T'] ++ clock ++ [shortFraction]

/-- A date and a time with the fraction of the second and the offset. -/
def isoInstant : List PatternElement :=
  isoDateTime ++ [offset .minutes]

/-- The elements that a letter stands for if it is not a number's. -/
def elementsOf? : Char → Option (List PatternElement)
  | '%' => some [char '%']
  | 'n' => some [char '\n']
  | 't' => some [char '\t']
  | 'b' => some [name monthAbbreviation]
  | 'h' => some [name monthAbbreviation]
  | 'B' => some [name monthName]
  | 'a' => some [name weekdayAbbreviation]
  | 'A' => some [name weekdayName]
  | 'p' => some [name upperHalfDay]
  | 'P' => some [name lowerHalfDay]
  | 'D' => some monthDayYear
  | 'x' => some monthDayYear
  | 'F' => some isoDate
  | 'v' => some [number day .blanks, char '-', name monthAbbreviation, char '-', zeroPadded year]
  | 'R' => some hourMinute
  | 'T' => some clock
  | 'X' => some clock
  | 'r' => some [zeroPadded dialHour, char ':', zeroPadded minute, char ':', zeroPadded second,
      char ' ', name upperHalfDay]
  | 'c' => some ([name weekdayAbbreviation, char ' ', name monthAbbreviation, char ' ',
      number day .blanks, char ' '] ++ clock ++ [char ' ', zeroPadded year])
  | '+' => some isoInstant
  | 'z' => some [offset .minutesPlain]
  | 'Z' => some [zoneName]
  | _ => none

def paddingOf? : Char → Option Padding
  | '-' => some .none
  | '_' => some .blanks
  | '0' => some .zeros
  | _ => none

/-- How many groups of three digits a digit stands for. -/
def groupsOf? : Char → Option Nat
  | '3' => some 1
  | '6' => some 2
  | '9' => some 3
  | _ => none

/-- The elements of a directive that is one letter behind its percent sign. -/
def letter? (c : Char) : Option (List PatternElement) :=
  match numberOf? c with
  | some (part, padding) => some [number part padding]
  | none => elementsOf? c

/-- Reads what follows a percent sign: the elements of the directive, and how many characters it
takes. -/
def directive? : List Char → Option (List PatternElement × Nat)
  | '.' :: 'f' :: _ => some ([shortFraction], 2)
  | '.' :: d :: 'f' :: _ => (groupsOf? d).map fun groups => ([fraction true groups], 3)
  | ':' :: 'z' :: _ => some ([offset .minutes], 2)
  | ':' :: ':' :: 'z' :: _ => some ([offset .seconds], 3)
  | ':' :: ':' :: ':' :: 'z' :: _ => some ([offset .hours], 4)
  | c :: rest =>
    match letter? c, paddingOf? c, groupsOf? c, rest with
    | some elements, _, _, _ => some (elements, 1)
    | none, some padding, _, d :: _ =>
      (numberOf? d).map fun (part, _) => ([number part padding], 2)
    | none, none, some groups, 'f' :: _ => some ([fraction false groups], 2)
    | _, _, _, _ => none
  | [] => none

/-- Reads a pattern from its characters; none if it holds a percent sign without a directive. -/
def ofList? (cs : List Char) : Option (List PatternElement) :=
  match cs with
  | [] => some []
  | c :: rest =>
    if c = '%' then do
      let (elements, size) ← directive? rest
      return elements ++ (← ofList? (rest.drop size))
    else (ofList? rest).map (char c :: ·)
termination_by cs.length
decreasing_by all_goals simp only [List.length_drop, List.length_cons]; omega

def parse? (pattern : String) : Option (List PatternElement) :=
  ofList? pattern.toList

end Pattern

end EntityJson
