/-
Instants in UTC on the proleptic Gregorian calendar, counted in seconds from
the beginning of 1970, and their text with date, time and offset.

`Timestamp.ofUnix?` accepts the years -262143 to 262142. A nanosecond part of
a second or more is a leap second: it needs a time that ends in `:59` and is
written as second `60`.
-/
import ParamQuery.Text.Padded

namespace ParamQuery

/-- A moment: seconds since the beginning of 1970, and nanoseconds behind them. -/
structure Timestamp where
  seconds : Int
  nanos : Nat
deriving DecidableEq

/-- A day of the calendar. -/
structure CivilDate where
  year : Int
  month : Nat
  day : Nat
deriving DecidableEq

/-- The date that lies `days` after 1970-01-01. Years are counted from March,
so that the leap day is the last of its year, in eras of 400 years. -/
def CivilDate.ofDays (days : Int) : CivilDate :=
  let shifted := days + 719468
  let era := shifted / 146097
  let dayOfEra := (shifted % 146097).toNat
  let yearOfEra := (dayOfEra - dayOfEra / 1460 + dayOfEra / 36524 - dayOfEra / 146096) / 365
  let dayOfYear := dayOfEra - (365 * yearOfEra + yearOfEra / 4 - yearOfEra / 100)
  let monthFromMarch := (5 * dayOfYear + 2) / 153
  let month := if monthFromMarch < 10 then monthFromMarch + 3 else monthFromMarch - 9
  { year := era * 400 + yearOfEra + if month ≤ 2 then 1 else 0
    month := month
    day := dayOfYear - (153 * monthFromMarch + 2) / 5 + 1 }

namespace Timestamp

/-- The nanoseconds of a second. -/
def nanosPerSecond : Nat := 1000000000

/-- The first second of the year -262143. -/
def firstSecond : Int := -8334601228800

/-- The last second of the year 262142. -/
def lastSecond : Int := 8210266876799

/-- The instant `seconds` and `nanos` after the beginning of 1970. -/
def ofUnix? (seconds : Int) (nanos : Nat) : Option Timestamp :=
  if firstSecond ≤ seconds ∧ seconds ≤ lastSecond ∧
      (nanos < nanosPerSecond ∨ nanos < 2 * nanosPerSecond ∧ seconds % 60 = 59) then
    some ⟨seconds, nanos⟩
  else none

/-- Four digits for the years 0 to 9999, a sign in front for all others. -/
def yearText (year : Int) : List Char :=
  let ds := Text.padded 10 4 year.natAbs
  if year < 0 then '-' :: ds else if 9999 < year then '+' :: ds else ds

/-- The fewest of 0, 3, 6 or 9 places that are exact. -/
def fractionText (nanos : Nat) : List Char :=
  if nanos = 0 then []
  else if nanos % 1000000 = 0 then '.' :: Text.padded 10 3 (nanos / 1000000)
  else if nanos % 1000 = 0 then '.' :: Text.padded 10 6 (nanos / 1000)
  else '.' :: Text.padded 10 9 nanos

/-- Date, `T`, time and the offset of UTC. -/
def text (t : Timestamp) : String :=
  let date := CivilDate.ofDays (t.seconds / 86400)
  let ofDay := (t.seconds % 86400).toNat
  let leap := if nanosPerSecond ≤ t.nanos then 1 else 0
  let two := Text.padded 10 2
  String.ofList (yearText date.year ++ '-' :: two date.month ++ '-' :: two date.day ++
    'T' :: two (ofDay / 3600) ++ ':' :: two (ofDay / 60 % 60) ++
    ':' :: two (ofDay % 60 + leap) ++ fractionText (t.nanos % nanosPerSecond)) ++ "+00:00"

end Timestamp

end ParamQuery
