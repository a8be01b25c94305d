/-!
# Time/Calendar — the Gregorian calendar as a count of days

Day 0 is 1 January of year 1.  `Date.ofDay` finds the date of a day and `Date.toDay` counts back;
years before the first are zero and negative.
-/

namespace ConfigMerge

/-- A date of the proleptic Gregorian calendar. -/
structure Date where
  year : Int
  month : Nat
  day : Nat
deriving DecidableEq

namespace Date

/-- Whether a year has 366 days. -/
def isLeapYear (y : Int) : Bool := y % 4 = 0 && (y % 100 ≠ 0 || y % 400 = 0)

/-- The number of days before 1 January of a year. -/
def daysBeforeYear (y : Int) : Int :=
  let p := y - 1
  365 * p + p / 4 - p / 100 + p / 400

/-- The number of days of a month. -/
def monthLength (y : Int) (month : Nat) : Nat :=
  match month with
  | 2 => if isLeapYear y then 29 else 28
  | 4 | 6 | 9 | 11 => 30
  | _ => 31

/-- The number of days of a year before the month after the `n`-th. -/
def daysThroughMonth (y : Int) : Nat → Nat
  | 0 => 0
  | n + 1 => daysThroughMonth y n + monthLength y (n + 1)

/-- The day on which a date falls. -/
def toDay (d : Date) : Int :=
  daysBeforeYear d.year + daysThroughMonth d.year (d.month - 1) + d.day - 1

/-- The year of a day: an estimate from the mean length of a year, set right by at most one. -/
def yearOf (n : Int) : Int :=
  let y := 400 * n / 146097 + 1
  if n < daysBeforeYear y then y - 1
  else if daysBeforeYear (y + 1) ≤ n then y + 1
  else y

/-- Walks through the months of a year, from the one after the first `done`, until `rest` days fit
into one. -/
def walkMonths (y : Int) (done rest : Nat) : Nat → Nat × Nat
  | 0 => (done + 1, rest + 1)
  | months + 1 =>
    if rest < monthLength y (done + 1) then (done + 1, rest + 1)
    else walkMonths y (done + 1) (rest - monthLength y (done + 1)) months

/-- The date of a day. -/
def ofDay (n : Int) : Date :=
  let y := yearOf n
  let (month, day) := walkMonths y 0 (n - daysBeforeYear y).toNat 11
  ⟨y, month, day⟩

/-- Whether there is such a day in the calendar. -/
def isValid (d : Date) : Bool :=
  1 ≤ d.month && d.month ≤ 12 && 1 ≤ d.day && d.day ≤ monthLength d.year d.month

end Date

end ConfigMerge
