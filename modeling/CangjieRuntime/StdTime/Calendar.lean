import CangjieRuntime.StdCore.Numbers

/-!
# `StdTime.Calendar` — dates and seconds

The functions of `std/time/date_time.cj` between the fields of a date-time and the seconds since the start of year 1.
Divisions and remainders of signed values truncate towards zero. `toYearAndSecond` and `getDate` have no step that could
overflow.
-/

namespace CangjieRuntime.StdTime

open StdCore

def MAX_YEAR : Int := 999999999

def MIN_YEAR : Int := -999999999

def START_AD_YEAR : Int := 1

def DAYS_OF_NORMAL_YEAR : Int := 365

def DAYS_OF_LEAP_YEAR : Int := 366

def DAYS_PER_400YEARS : Int := DAYS_OF_NORMAL_YEAR * 400 + 97

def DAYS_PER_100YEARS : Int := DAYS_OF_NORMAL_YEAR * 100 + 24

def DAYS_PER_4YEARS : Int := DAYS_OF_NORMAL_YEAR * 4 + 1

def SECS_PER_MINUTE : Int := 60

def SECS_PER_HOUR : Int := SECS_PER_MINUTE * 60

def SECS_PER_DAY : Int := 24 * SECS_PER_HOUR

def DAYS_OF_UNIX_TO_AD1 : Int := 1969 * 365 + 1969 / 4 - 1969 / 100 + 1969 / 400

def SECS_OF_UNIX_TO_AD1 : Int := DAYS_OF_UNIX_TO_AD1 * SECS_PER_DAY

def DAYS_OF_MAX_TO_AD1 : Int :=
  (MAX_YEAR - 1) * 365 + (MAX_YEAR - 1) / 4 - (MAX_YEAR - 1) / 100 + (MAX_YEAR - 1) / 400 + 365

def SECS_OF_MAX_TO_AD1 : Int := DAYS_OF_MAX_TO_AD1 * SECS_PER_DAY

def DAYS_OF_MIN_TO_AD1 : Int := -(DAYS_OF_MAX_TO_AD1 + 366)

def SECS_OF_MIN_TO_AD1 : Int := DAYS_OF_MIN_TO_AD1 * SECS_PER_DAY

def DAYS_BEFORE : List Int := [0, 31, 59, 90, 120, 151, 181, 212, 243, 273, 304, 334, 365]

def DAYS_OF_MONTH : List Int := [0, 31, 28, 31, 30, 31, 30, 31, 31, 30, 31, 30, 31]

/-- An element of an array. -/
def element (table : List Int) (idx : Int) : Except Exn Int :=
  if idx < 0 then throw .indexOutOfBounds
  else match table[idx.toNat]? with
    | some x => return x
    | none => throw .indexOutOfBounds

/-! ## Months -/

inductive Month where
  | January | February | March | April | May | June | July | August | September | October | November | December
deriving DecidableEq, Repr

namespace Month

def of (mon : Int) : Except Exn Month :=
  match mon with
  | 1 => return January
  | 2 => return February
  | 3 => return March
  | 4 => return April
  | 5 => return May
  | 6 => return June
  | 7 => return July
  | 8 => return August
  | 9 => return September
  | 10 => return October
  | 11 => return November
  | 12 => return December
  | _ => throw .illegalArgument

def toInteger : Month → Int
  | January => 1
  | February => 2
  | March => 3
  | April => 4
  | May => 5
  | June => 6
  | July => 7
  | August => 8
  | September => 9
  | October => 10
  | November => 11
  | December => 12

end Month

def isLeapYear (year : Int) : Bool := year.tmod 4 = 0 ∧ (year.tmod 100 ≠ 0 ∨ year.tmod 400 = 0)

def daysIn (month year : Int) : Except Exn Int :=
  if month < 1 ∨ month > 12 then throw .illegalArgument
  else if month = 2 ∧ isLeapYear year then return 29
  else element DAYS_OF_MONTH month

/-! ## From seconds -/

/-- The year and the second in the year, from the seconds since year 1. -/
def toYearAndSecond (sec : Int) : Int × Int :=
  let (seconds, year) := if sec < 0 then (sec - SECS_OF_MIN_TO_AD1, MIN_YEAR) else (sec, START_AD_YEAR)
  let days := seconds.tdiv SECS_PER_DAY
  let restSec := seconds.tmod SECS_PER_DAY
  let times := days.tdiv DAYS_PER_400YEARS
  let year := year + 400 * times
  let days := days.tmod DAYS_PER_400YEARS
  let times := days.tdiv DAYS_PER_100YEARS
  let times := times - times >>> (2 : Nat)
  let year := year + 100 * times
  let days := days - DAYS_PER_100YEARS * times
  let times := days.tdiv DAYS_PER_4YEARS
  let year := year + 4 * times
  let days := days.tmod DAYS_PER_4YEARS
  let times := days.tdiv DAYS_OF_NORMAL_YEAR
  let times := times - times >>> (2 : Nat)
  let year := year + times
  let days := days - DAYS_OF_NORMAL_YEAR * times
  (year, restSec + days * SECS_PER_DAY)

/-- The loop of `getDate` over the table, with the rounds that are left. -/
def dateLoop (days : Int) : Nat → Nat → Except Exn (Nat × Int)
  | 0, idx => return (idx, 0)
  | rounds + 1, idx => do
      let before ← element DAYS_BEFORE idx
      if days = before then return (idx + 1, 1)
      else if days < before then return (idx, days - (← element DAYS_BEFORE (idx - 1)) + 1)
      else dateLoop days rounds (idx + 1)

/-- The month and the day, from the days of a normal year. -/
def dateInNormalYear (days : Int) : Except Exn (Month × Int) := do
  let (idx, day) ← dateLoop days DAYS_BEFORE.length 0
  return (← Month.of idx, day)

def getDate (year : Int) (sec : Nat) : Except Exn (Month × Int) := do
  let days := (sec : Int).tdiv SECS_PER_DAY
  if isLeapYear year then
    let february ← element DAYS_BEFORE 2
    if days = february then return (.February, 29)
    else if days > february then dateInNormalYear (days - 1)
    else dateInNormalYear days
  else dateInNormalYear days

/-! ## To seconds -/

def daysAD1ToYear (year : Int) : Except Exn Int := do
  let years ← i64 (year - 1)
  let days ← i64 (365 * years)
  let days ← i64 (days + years.tdiv 4)
  let days ← i64 (days - years.tdiv 100)
  i64 (days + years.tdiv 400)

def daysSinceAD1 (year : Int) : Except Exn Int := do
  if year = 0 then return -DAYS_OF_LEAP_YEAR
  else if year > 0 then daysAD1ToYear year
  else i64 (-(← i64 ((← daysAD1ToYear (← i64 ((← i64 (-year)) + 1))) + DAYS_OF_LEAP_YEAR)))

def daysSinceUnix (year : Int) : Except Exn Int := do i64 ((← daysSinceAD1 year) - DAYS_OF_UNIX_TO_AD1)

/-- An `OverflowException` is an `ArithmeticException`, and is caught as one. -/
def toEpochSeconds (year : Int) (sec : Nat) : Except Exn Int :=
  let seconds : Except Exn Int := do i64 ((← i64 ((← daysSinceUnix year) * SECS_PER_DAY)) + sec)
  match seconds with
  | .error .overflow => throw .arithmetic
  | result => result

def toSecondInYear (year month dayOfMonth hour minute second : Int) : Except Exn Int := do
  let days ← i64 ((← i64 ((← element DAYS_BEFORE (← i64 (month - 1))) + dayOfMonth)) - 1)
  let days ← (if month > 2 ∧ isLeapYear year then i64 (days + 1) else return days : Except Exn Int)
  let secInYear ← i64 (days * SECS_PER_DAY)
  let secInYear ← i64 (secInYear + (← i64 (hour * SECS_PER_HOUR)))
  let secInYear ← i64 (secInYear + (← i64 (minute * SECS_PER_MINUTE)))
  i64 (secInYear + second)

def toSecondsFromAD1 (year month dayOfMonth hour minute second : Int) : Except Exn Int := do
  let secInYear ← toSecondInYear year month dayOfMonth hour minute second
  i64 ((← toEpochSeconds year (← toU32 secInYear)) + SECS_OF_UNIX_TO_AD1)

/-- 0 is Sunday, 6 is Saturday. -/
def getDayOfWeek (year : Int) (sec : Nat) : Except Exn Int := do
  let days ← daysSinceAD1 year
  let days ← i64 (days + (sec : Int).tdiv SECS_PER_DAY)
  let days := (← i64 (days + 1)).tmod 7
  if days ≥ 0 then return days else i64 (days + 7)

/-! ## The fields of a date-time -/

structure Fields where
  year : Int
  month : Int
  dayOfMonth : Int
  hour : Int
  minute : Int
  second : Int
deriving DecidableEq, Repr

/-- The fields that are read from the seconds, as in `addDays`. -/
def toFields (seconds : Int) : Except Exn Fields := do
  let (year, sec) := toYearAndSecond seconds
  let (month, day) ← getDate year (← toU32 sec)
  let hour := (sec.tmod SECS_PER_DAY).tdiv SECS_PER_HOUR
  let minute := (sec.tmod SECS_PER_HOUR).tdiv SECS_PER_MINUTE
  let second := sec.tmod SECS_PER_MINUTE
  return ⟨year, month.toInteger, day, hour, minute, second⟩

/-- The seconds of fields. -/
def Fields.toSeconds (f : Fields) : Except Exn Int :=
  toSecondsFromAD1 f.year f.month f.dayOfMonth f.hour f.minute f.second

/-- The day of the week of the seconds. -/
def dayOfWeek (seconds : Int) : Except Exn Int := do
  let (year, sec) := toYearAndSecond seconds
  getDayOfWeek year (← toU32 sec)

/-- The check of the fields. Its last condition, on the nanoseconds, is left out. -/
def checkDateTime (f : Fields) : Except Exn Unit :=
  if f.year > MAX_YEAR ∨ f.year < MIN_YEAR then throw .illegalArgument
  else do
    let days ← daysIn f.month f.year
    if f.dayOfMonth < 1 ∨ f.dayOfMonth > days then throw .illegalArgument
    else if f.hour < 0 ∨ f.hour > 23 then throw .illegalArgument
    else if f.minute < 0 ∨ f.minute > 59 then throw .illegalArgument
    else if f.second < 0 ∨ f.second > 59 then throw .illegalArgument
    else return ()

end CangjieRuntime.StdTime
