namespace Multicloud

/-- A day of the Gregorian calendar, extended to all years. -/
structure Date where
  year : Int
  month : Nat
  day : Nat
  deriving DecidableEq, Repr

namespace Date

def isLeap (year : Int) : Bool := year % 4 = 0 && (year % 100 ≠ 0 || year % 400 = 0)

def monthLength (year : Int) (month : Nat) : Nat :=
  if month = 2 then if isLeap year then 29 else 28
  else if month = 4 ∨ month = 6 ∨ month = 9 ∨ month = 11 then 30
  else 31

def isValid (d : Date) : Bool :=
  1 ≤ d.month && d.month ≤ 12 && 1 ≤ d.day && d.day ≤ monthLength d.year d.month

/-- From the first of March of the year 0 to that of another year. -/
def yearStart (y : Int) : Int := 365 * y + y / 4 - y / 100 + y / 400

/-- From the first of March to the first of the `m`-th month after it. -/
def monthStart (m : Nat) : Nat := (153 * m + 2) / 5

def epoch : Int := 719468

/-- Days since 1970-01-01. -/
def number (d : Date) : Int :=
  let y := if d.month ≤ 2 then d.year - 1 else d.year
  yearStart y + monthStart ((d.month + 9) % 12) + d.day - 1 - epoch

/-- The year, from March on, of a day counted from the first of March of the year 0. -/
def yearOf (n : Int) : Int :=
  let y := 400 * n / 146097
  if n < yearStart y then y - 1 else if yearStart (y + 1) ≤ n then y + 1 else y

def ofNumber (number : Int) : Date :=
  let n := number + epoch
  let y := yearOf n
  let day := (n - yearStart y).toNat
  let m := (5 * day + 2) / 153
  { year := if m < 10 then y else y + 1
    month := if m < 10 then m + 3 else m - 9
    day := day - monthStart m + 1 }

end Date

end Multicloud
