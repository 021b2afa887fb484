import RemoteMenu.Padding

/-!
# Timestamps

A moment is a number of microseconds. Its text is a date and a time of day, read off the proleptic
Gregorian calendar. That calendar repeats itself after 400 years, and a year that starts in March has
its leap day at the end, so a date is found from the day of such a cycle.
-/

namespace RemoteMenu

/-- A moment, in microseconds since the start of 1970. -/
abbrev Timestamp := Int

structure Date where
  year : Int
  month : Nat
  day : Nat
  deriving Repr, DecidableEq

namespace Date

/-- The days of 400 years. -/
def cycleLength : Nat := 146097

/-- The day that comes a number of days after the start of March of the year 0. -/
def ofDays (days : Int) : Date :=
  let ofCycle := (days % cycleLength).toNat
  let years := (ofCycle - ofCycle / 1460 + ofCycle / 36524 - ofCycle / 146096) / 365
  let ofYear := ofCycle - (365 * years + years / 4 - years / 100)
  let fromMarch := (5 * ofYear + 2) / 153
  let month := if fromMarch < 10 then fromMarch + 3 else fromMarch - 9
  { year := days / cycleLength * 400 + years + if month ≤ 2 then 1 else 0
    month
    day := ofYear - (153 * fromMarch + 2) / 5 + 1 }

def text (d : Date) : String :=
  s!"{zeroPadded 4 d.year.toNat}-{zeroPadded 2 d.month}-{zeroPadded 2 d.day}"

end Date

namespace Timestamp

/-- The days from the start of March of the year 0 to the start of 1970. -/
def daysTo1970 : Int := 719468

/-- The part of a second behind its full count, in as few groups of three digits as it takes. -/
def fractionText (micros : Nat) : String :=
  if micros = 0 then ""
  else if micros % 1000 = 0 then "." ++ zeroPadded 3 (micros / 1000)
  else "." ++ zeroPadded 6 micros

/-- The date and the time of day of a moment, for the years that have four digits. -/
def text (t : Timestamp) : String :=
  let seconds := t / 1000000
  let ofDay := (seconds % 86400).toNat
  (Date.ofDays (seconds / 86400 + daysTo1970)).text ++
    s!"T{zeroPadded 2 (ofDay / 3600)}:{zeroPadded 2 (ofDay / 60 % 60)}:{zeroPadded 2 (ofDay % 60)}" ++
    fractionText (t % 1000000).toNat ++ "Z"

end Timestamp

end RemoteMenu
