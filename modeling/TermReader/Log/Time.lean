/-!
Dates of the proleptic Gregorian calendar and times of day from a count of
seconds.
-/

namespace TermReader.Log

/-- Year, month and day of a day counted from the first of January 1970. Years
start in March here, so that a leap day is the last of its year. -/
def civilDate (day : Int) : Int × Nat × Nat :=
  let shifted := day + 719468
  let era := shifted / 146097
  let dayOfEra := shifted % 146097
  let yearOfEra := (dayOfEra - dayOfEra / 1460 + dayOfEra / 36524 - dayOfEra / 146096) / 365
  let dayOfYear := (dayOfEra - (365 * yearOfEra + yearOfEra / 4 - yearOfEra / 100)).toNat
  let monthFromMarch := (5 * dayOfYear + 2) / 153
  let dayOfMonth := dayOfYear - (153 * monthFromMarch + 2) / 5 + 1
  let month := if monthFromMarch < 10 then monthFromMarch + 3 else monthFromMarch - 9
  let year := yearOfEra + era * 400
  (if month ≤ 2 then year + 1 else year, month, dayOfMonth)

def twoDigits (n : Nat) : String := if n < 10 then "0" ++ toString n else toString n

/-- The time of a count of seconds since 1970, with a T between date and time. -/
def timeText (seconds : Int) : String :=
  let (year, month, day) := civilDate (seconds / 86400)
  let second := (seconds % 86400).toNat
  toString year ++ "-" ++ twoDigits month ++ "-" ++ twoDigits day ++ "T"
    ++ twoDigits (second / 3600) ++ ":" ++ twoDigits (second / 60 % 60) ++ ":"
    ++ twoDigits (second % 60)

end TermReader.Log
