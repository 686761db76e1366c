/-!
# The calendar

Dates of the proleptic Gregorian calendar and instants, which are counted in microseconds from
the first moment of the year 1.

## Main definitions

* `Civil` — a date and a time of day.
* `Instant` — a point in time; `Instant.ofCivil` and `Instant.toCivil` go between the two.
* `Instant.InRange` — the instants that have a date in the years 1 to 9999.
* `Civil.text` — the written form.
-/

namespace MountSpace

/-- A date and a time of day. -/
structure Civil where
  /-- The year, from 1. -/
  year : Nat
  /-- The month, from 1. -/
  month : Nat
  /-- The day of the month, from 1. -/
  day : Nat
  /-- The hour. -/
  hour : Nat := 0
  /-- The minute. -/
  minute : Nat := 0
  /-- The second. -/
  second : Nat := 0
  /-- The microsecond. -/
  micro : Nat := 0
  deriving DecidableEq, Repr, Inhabited

/-- A point in time, in microseconds from the first moment of the year 1. -/
structure Instant where
  /-- The microseconds. -/
  micros : Int
  deriving DecidableEq, Repr, Inhabited

namespace Civil

/-- Whether a year has a leap day. -/
def isLeap (year : Nat) : Bool := year % 4 == 0 && (year % 100 != 0 || year % 400 == 0)

/-- The lengths of the months of a year. -/
def monthLengths (leap : Bool) : List Nat :=
  [31, if leap then 29 else 28, 31, 30, 31, 30, 31, 31, 30, 31, 30, 31]

/-- The days before the first of January. -/
def daysBeforeYear (year : Nat) : Nat :=
  365 * (year - 1) + (year - 1) / 4 - (year - 1) / 100 + (year - 1) / 400

/-- The days of a year before the first of a month. -/
def daysBeforeMonth (leap : Bool) (month : Nat) : Nat :=
  ((monthLengths leap).take (month - 1)).foldl (· + ·) 0

/-- The days before the date, counted from the first day of the year 1. -/
def dayNumber (c : Civil) : Nat :=
  daysBeforeYear c.year + daysBeforeMonth (isLeap c.year) c.month + (c.day - 1)

/-- The microseconds since midnight. -/
def microOfDay (c : Civil) : Nat :=
  ((c.hour * 60 + c.minute) * 60 + c.second) * 1000000 + c.micro

/-- The month and the day of the month of a day of the year: `lengths` are those of the months
from `month` on. -/
def monthDay (month : Nat) : List Nat → Nat → Nat × Nat
  | [], d => (month, d + 1)
  | n :: lengths, d => if d < n then (month, d + 1) else monthDay (month + 1) lengths (d - n)

/-- The year that holds a day, and the day of that year.  Whole cycles of 400, 100, 4 and 1 years
are taken off; the last year of a cycle of 4 or of 400 may be a day longer. -/
def yearDay (d : Nat) : Nat × Nat :=
  let n400 := d / 146097
  let r400 := d % 146097
  let n100 := min 3 (r400 / 36524)
  let r100 := r400 - n100 * 36524
  let n4 := r100 / 1461
  let r4 := r100 % 1461
  let n1 := min 3 (r4 / 365)
  (400 * n400 + 100 * n100 + 4 * n4 + n1 + 1, r4 - n1 * 365)

/-- The date and time of a day number and a microsecond of that day. -/
def ofDay (d micro : Nat) : Civil :=
  let (year, dayOfYear) := yearDay d
  let (month, day) := monthDay 1 (monthLengths (isLeap year)) dayOfYear
  let seconds := micro / 1000000
  { year, month, day, hour := seconds / 3600, minute := seconds / 60 % 60, second := seconds % 60,
    micro := micro % 1000000 }

/-- A number in decimal, padded with zeros. -/
def padded (width n : Nat) : String :=
  let digits := (Nat.toDigits 10 n)
  String.ofList (List.replicate (width - digits.length) '0' ++ digits)

/-- The written form: date, `T`, time of day, and six digits of the second when it is not whole. -/
def text (c : Civil) : String :=
  padded 4 c.year ++ "-" ++ padded 2 c.month ++ "-" ++ padded 2 c.day ++ "T" ++
    padded 2 c.hour ++ ":" ++ padded 2 c.minute ++ ":" ++ padded 2 c.second ++
    (if c.micro = 0 then "" else "." ++ padded 6 c.micro)

/-- The days before a year, by whole cycles of 400, 100, 4 and 1 years. -/
theorem daysBeforeYear_cycles {a b c e : Nat} (hb : b ≤ 3) (hc : c ≤ 24) (he : e ≤ 3) :
    daysBeforeYear (400 * a + 100 * b + 4 * c + e + 1) =
      146097 * a + 36524 * b + 1461 * c + 365 * e := by
  have h4 : (400 * a + 100 * b + 4 * c + e) / 4 = 100 * a + 25 * b + c := by omega
  have h100 : (400 * a + 100 * b + 4 * c + e) / 100 = 4 * a + b := by omega
  have h400 : (400 * a + 100 * b + 4 * c + e) / 400 = a := by omega
  simp only [daysBeforeYear, Nat.add_sub_cancel, h4, h100, h400]
  omega

/-- The year that `yearDay` finds and the day of that year make up the day number. -/
theorem daysBeforeYear_yearDay (d : Nat) :
    daysBeforeYear (yearDay d).1 + (yearDay d).2 = d := by
  simp only [yearDay]
  rw [daysBeforeYear_cycles (by omega) (by omega) (by omega)]
  omega

end Civil

namespace Instant

/-- The microseconds of a day. -/
def microsPerDay : Nat := 86400000000

/-- The instant of a date and time of day. -/
def ofCivil (c : Civil) : Instant :=
  ⟨(c.dayNumber * microsPerDay + c.microOfDay : Nat)⟩

/-- The days of the years 1 to 9999. -/
def dayCount : Nat := 3652059

/-- The instants that have a date in the years 1 to 9999. -/
def InRange (i : Instant) : Prop := 0 ≤ i.micros ∧ i.micros < (dayCount * microsPerDay : Nat)

instance (i : Instant) : Decidable i.InRange := inferInstanceAs (Decidable (_ ∧ _))

/-- The date and time of day of an instant; those before the year 1 count as its first moment. -/
def toCivil (i : Instant) : Civil :=
  .ofDay (i.micros.toNat / microsPerDay) (i.micros.toNat % microsPerDay)

/-- The instant that lies a number of seconds earlier. -/
def minusSeconds (i : Instant) (seconds : Int) : Instant := ⟨i.micros - seconds * 1000000⟩

/-- The written form of an instant in universal time. -/
def text (i : Instant) : String := i.toCivil.text ++ "+00:00"

end Instant

end MountSpace
