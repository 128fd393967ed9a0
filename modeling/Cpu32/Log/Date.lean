/-!
# Calendar dates

The Gregorian calendar, counted in days from the first of January 1970.

The count is moved to the first of March of the year 0, so that a leap day ends its year, and is
divided into eras of 400 years, which all have the same number of days.
-/

namespace Cpu32.Log

structure Date where
  year : Nat
  month : Nat
  day : Nat
deriving DecidableEq, Repr

namespace Date

/-- The days of an era. -/
def eraDays : Nat := 146097

/-- The days from the first of March of the year 0 to the first of January 1970. -/
def epochOffset : Nat := 719468

/-- The year of an era that a day of the era lies in, both counted from zero. -/
def yearOfEra (dayOfEra : Nat) : Nat :=
  (dayOfEra - dayOfEra / 1460 + dayOfEra / 36524 - dayOfEra / 146096) / 365

/-- The day of a year that begins in March, counted from zero. -/
def dayOfYear (dayOfEra : Nat) : Nat :=
  let year := yearOfEra dayOfEra
  dayOfEra - (365 * year + year / 4 - year / 100)

/-- The month of a year that begins in March, counted from zero. -/
def monthFromMarch (dayOfYear : Nat) : Nat := (5 * dayOfYear + 2) / 153

/-- The date so many days after the first of January 1970. -/
def ofDays (days : Nat) : Date :=
  let era := (days + epochOffset) / eraDays
  let dayOfEra := (days + epochOffset) % eraDays
  let fromMarch := monthFromMarch (dayOfYear dayOfEra)
  let month := if fromMarch < 10 then fromMarch + 3 else fromMarch - 9
  { year := yearOfEra dayOfEra + 400 * era + (if month ≤ 2 then 1 else 0)
    month
    day := dayOfYear dayOfEra - (153 * fromMarch + 2) / 5 + 1 }

end Date

end Cpu32.Log
