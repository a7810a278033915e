import Dvcs.Text

/-!
This module contains moments of time in the years 1 to 9999, and the calendar that shows them.
-/

namespace Dvcs

/-- A day of the calendar. -/
structure Day where
  year : Int
  month : Nat
  day : Nat
deriving DecidableEq, Repr

namespace Day

/-- The day a number of days after the first of January 1970. Years are counted from March here, in
eras of 400 years, each with 146097 days. -/
def ofNumber (n : Int) : Day :=
  let z := n + 719468
  let era := z / 146097
  let dayOfEra := (z % 146097).toNat
  let yearOfEra :=
    (dayOfEra - dayOfEra / 1460 + dayOfEra / 36524 - dayOfEra / 146096) / 365
  let dayOfYear := dayOfEra - (365 * yearOfEra + yearOfEra / 4 - yearOfEra / 100)
  let month := (5 * dayOfYear + 2) / 153
  { year := yearOfEra + era * 400 + (if month < 10 then 0 else 1)
    month := if month < 10 then month + 3 else month - 9
    day := dayOfYear - (153 * month + 2) / 5 + 1 }

/-- How many days after the first of January 1970 a day is. -/
def number (d : Day) : Int :=
  let year := if d.month ≤ 2 then d.year - 1 else d.year
  let month := if d.month ≤ 2 then d.month + 9 else d.month - 3
  let yearOfEra := (year % 400).toNat
  let dayOfYear := (153 * month + 2) / 5 + d.day - 1
  let dayOfEra := yearOfEra * 365 + yearOfEra / 4 - yearOfEra / 100 + dayOfYear
  year / 400 * 146097 + dayOfEra - 719468

end Day

/-- Why a time cannot be a moment of the calendar. -/
inductive TimeError where
  /-- The year, held in 32 bits, is not one of 1 to 9999. -/
  | yearOutOfRange (year : Int)
  /-- The year does not even fit 32 bits. -/
  | yearTooLarge
  /-- The seconds do not fit 64 bits. -/
  | secondsTooLarge
  /-- Moving the clock to UTC leaves the calendar. -/
  | leavesCalendar
deriving DecidableEq, Repr

namespace Instant

def microsPerSecond : Int := 1000000

def secondsPerDay : Int := 86400

/-- The first second of the year 1. -/
def firstSecond : Int := -62135596800

/-- The last second of the year 9999. -/
def lastSecond : Int := 253402300799

def inCalendar (micros : Int) : Bool :=
  firstSecond * microsPerSecond ≤ micros && micros < (lastSecond + 1) * microsPerSecond

end Instant

/-- A moment, in microseconds since the start of 1970 in UTC. -/
structure Instant where
  micros : Int
  valid : Instant.inCalendar micros = true
deriving DecidableEq

namespace Instant

/-- How many numbers there are of 32 bits. -/
def numbersOf32Bits : Nat := 4294967296

/-- How many numbers there are of 64 bits. -/
def numbersOf64Bits : Nat := 18446744073709551616

/-- Whether a number can be held in bits, one of them for the sign. -/
def fits (s : Int) (numbers : Nat) : Bool := -(numbers / 2 : Nat) ≤ s && s < (numbers / 2 : Nat)

/-- The moment a number of seconds after the start of 1970. A year is held in 32 bits, counted from
1900; a second in 64 bits. -/
def ofSeconds (s : Int) : Except TimeError Instant :=
  if h : inCalendar (s * microsPerSecond) then .ok ⟨s * microsPerSecond, h⟩
  else if !fits s numbersOf64Bits then .error .secondsTooLarge
  else
    let year := (Day.ofNumber (s / secondsPerDay)).year
    if !fits (year - 1900) numbersOf32Bits then .error .yearTooLarge
    else .error (.yearOutOfRange (Int.bmod year numbersOf32Bits))

/-- The whole seconds in a number of microseconds. The quotient is first rounded to 53 binary
digits, a half to the even neighbour, and its fraction is dropped after that. -/
def wholeSeconds (micros : Int) : Int :=
  let n := micros.natAbs
  let scale := Nat.pow 2 (52 - Nat.log2 (n / 1000000))
  let down := n * scale / 1000000
  let left := n * scale % 1000000
  let rounded :=
    if 2 * left < 1000000 || (2 * left = 1000000 && down % 2 = 0) then down else down + 1
  let seconds := rounded / scale
  if micros < 0 then -seconds else seconds

/-- Seconds since the start of 1970. -/
def seconds (i : Instant) : Int := wholeSeconds i.micros

def day (i : Instant) : Day := Day.ofNumber (i.micros / (secondsPerDay * microsPerSecond))

/-- Microseconds since midnight. -/
def microsOfDay (i : Instant) : Nat := (i.micros % (secondsPerDay * microsPerSecond)).toNat

def hour (i : Instant) : Nat := i.microsOfDay / 3600000000

def minute (i : Instant) : Nat := i.microsOfDay / 60000000 % 60

def second (i : Instant) : Nat := i.microsOfDay / 1000000 % 60

def microsecond (i : Instant) : Nat := i.microsOfDay % 1000000

/-- The form for people, to the minute. -/
def display (i : Instant) : Text :=
  Text.ofInt i.day.year ++ "-" ++ Text.ofNatPadded 2 i.day.month ++ "-" ++
    Text.ofNatPadded 2 i.day.day ++ " " ++ Text.ofNatPadded 2 i.hour ++ ":" ++
    Text.ofNatPadded 2 i.minute

/-- The exact form; a whole second has no fraction. -/
def toText (i : Instant) : Text :=
  let fraction : Text :=
    if i.microsecond = 0 then [] else "." ++ Text.ofNatPadded 6 i.microsecond
  Text.ofNatPadded 4 i.day.year.toNat ++ "-" ++ Text.ofNatPadded 2 i.day.month ++ "-" ++
    Text.ofNatPadded 2 i.day.day ++ "T" ++ Text.ofNatPadded 2 i.hour ++ ":" ++
    Text.ofNatPadded 2 i.minute ++ ":" ++ Text.ofNatPadded 2 i.second ++ fraction ++ "+00:00"

end Instant

/-- A time as a caller gives it: the reading of a local clock, in microseconds since its start of
1970, and how many minutes that clock is ahead of UTC, if that is known. -/
structure ClockTime where
  reading : Int
  offset : Option Int
deriving Repr

namespace ClockTime

def ofFields (day : Day) (hour minute second micro : Nat) (offset : Option Int) : ClockTime :=
  { reading := ((day.number * 24 + hour) * 60 + minute) * 60000000 + second * 1000000 + micro
    offset := offset }

/-- Microseconds since the start of 1970 in UTC; a clock without an offset shows UTC. -/
def micros (t : ClockTime) : Int := t.reading - t.offset.getD 0 * 60000000

def toInstant (t : ClockTime) : Except TimeError Instant :=
  if h : Instant.inCalendar t.micros then .ok ⟨t.micros, h⟩ else .error .leavesCalendar

/-- Seconds since the start of 1970. -/
def seconds (t : ClockTime) : Int := Instant.wholeSeconds t.micros

/-- Whether two times are the same moment. A clock without an offset agrees only with another such
clock. -/
def agrees (s t : ClockTime) : Bool := s.offset.isSome == t.offset.isSome && s.micros == t.micros

end ClockTime

end Dvcs
