/-!
# Dates and times of day

A moment is counted in milliseconds since the start of 1970.  Its date is found
in the proleptic Gregorian calendar with the year taken to begin in March, so
that the leap day comes last: then the months repeat in a fixed pattern and four
hundred years are always the same number of days.
-/

namespace ProgramQueue.Calendar

/-- A day of the Gregorian calendar. -/
structure Date where
  year : Int
  /-- From one to twelve. -/
  month : Nat
  /-- From one to thirty-one. -/
  day : Nat
deriving DecidableEq, Repr

/-- A moment in the calendar, in universal time. -/
structure Stamp where
  date : Date
  hour : Nat
  minute : Nat
  second : Nat
  millisecond : Nat
deriving DecidableEq, Repr

/-- The days in four hundred years. -/
def daysPerEra : Nat := 146097

/-- The days from the first of March of the year zero to the start of 1970. -/
def daysToEpoch : Int := 719468

/-- The date of a day, counted from the start of 1970. -/
def Date.ofDays (days : Int) : Date :=
  let sinceMarch := days + daysToEpoch
  let era := sinceMarch / daysPerEra
  let dayOfEra := (sinceMarch % daysPerEra).toNat
  let yearOfEra :=
    (dayOfEra - dayOfEra / 1460 + dayOfEra / 36524 - dayOfEra / 146096) / 365
  let dayOfYear := dayOfEra - (365 * yearOfEra + yearOfEra / 4 - yearOfEra / 100)
  let monthFromMarch := (5 * dayOfYear + 2) / 153
  let month := if monthFromMarch < 10 then monthFromMarch + 3 else monthFromMarch - 9
  { year := era * 400 + yearOfEra + (if month ≤ 2 then 1 else 0)
    month := month
    day := dayOfYear - (153 * monthFromMarch + 2) / 5 + 1 }

def msPerDay : Nat := 86400000

/-- The moment so many milliseconds after the start of 1970. -/
def Stamp.ofMs (ms : Int) : Stamp :=
  let inDay := (ms % msPerDay).toNat
  { date := .ofDays (ms / msPerDay)
    hour := inDay / 3600000
    minute := inDay / 60000 % 60
    second := inDay / 1000 % 60
    millisecond := inDay % 1000 }

/-! ## Text -/

/-- A number with at least so many digits. -/
def padded (width n : Nat) : String :=
  let digits := Nat.toDigits 10 n
  String.ofList (List.replicate (width - digits.length) '0' ++ digits)

/-- A year; one that has not four digits carries its sign. -/
def yearText (year : Int) : String :=
  if 0 ≤ year ∧ year ≤ 9999 then padded 4 year.toNat
  else (if year < 0 then "-" else "+") ++ padded 4 year.natAbs

def Stamp.toSecond (stamp : Stamp) : String :=
  yearText stamp.date.year ++ "-" ++ padded 2 stamp.date.month ++ "-" ++
    padded 2 stamp.date.day ++ "T" ++ padded 2 stamp.hour ++ ":" ++
    padded 2 stamp.minute ++ ":" ++ padded 2 stamp.second

def Stamp.short (stamp : Stamp) : String := stamp.toSecond ++ "Z"

/-- The text of a moment with the milliseconds, if there are any. -/
def Stamp.full (stamp : Stamp) : String :=
  let fraction :=
    if stamp.millisecond = 0 then "" else "." ++ padded 3 stamp.millisecond
  stamp.toSecond ++ fraction ++ "+00:00"

/-- The last year that has dates. -/
def lastYear : Int := 262142

/-- A moment that has a date. -/
def isDated (ms : Int) : Bool := (Date.ofDays (ms / msPerDay)).year ≤ lastYear

end ProgramQueue.Calendar
