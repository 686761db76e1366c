import MountSpace.Time.Calendar
import Mathlib.Algebra.BigOperators.Group.List.Basic
import Mathlib.Algebra.Ring.Nat

/-!
# Dates and instants

The instants that lie in the years 1 to 9999 are those of the valid dates, and each is the instant
of its own date.

## Main definitions

* `Civil.Valid` — a date in the years 1 to 9999 with a time of day.

Main statements: `Instant.ofCivil_toCivil`, `Instant.inRange_iff`.
-/

namespace MountSpace

namespace Civil

/-! ## Days of a year -/

/-- The days of a month. -/
def monthLength (leap : Bool) (month : ℕ) : ℕ := (monthLengths leap).getD (month - 1) 0

theorem sum_monthLengths (leap : Bool) :
    (monthLengths leap).sum = if leap then 366 else 365 := by
  cases leap <;> rfl

theorem daysBeforeMonth_eq (leap : Bool) (month : ℕ) :
    daysBeforeMonth leap month = ((monthLengths leap).take (month - 1)).sum := by
  rw [daysBeforeMonth, List.sum_eq_foldl]

theorem le_monthDay (month : ℕ) (lengths : List ℕ) (d : ℕ) :
    month ≤ (monthDay month lengths d).1 ∧ 0 < (monthDay month lengths d).2 := by
  induction lengths generalizing month d with
  | nil => exact ⟨Nat.le_refl _, Nat.succ_pos _⟩
  | cons n lengths ih =>
    rw [monthDay]
    split
    · exact ⟨Nat.le_refl _, Nat.succ_pos _⟩
    · exact ⟨Nat.le_of_succ_le (ih _ _).1, (ih _ _).2⟩

/-- The month and the day of the month make up the day of the year. -/
theorem sum_monthDay (month : ℕ) (lengths : List ℕ) (d : ℕ) :
    (lengths.take ((monthDay month lengths d).1 - month)).sum +
      ((monthDay month lengths d).2 - 1) = d := by
  induction lengths generalizing month d with
  | nil => simp [monthDay]
  | cons n lengths ih =>
    rw [monthDay]
    split
    · simp
    · have hle := (le_monthDay (month + 1) lengths (d - n)).1
      have hrest := ih (month + 1) (d - n)
      rw [show (monthDay (month + 1) lengths (d - n)).1 - month =
        ((monthDay (month + 1) lengths (d - n)).1 - (month + 1)) + 1 by omega,
        List.take_succ_cons, List.sum_cons]
      omega

/-- A day within the months falls on one of their days. -/
theorem monthDay_le (month : ℕ) {lengths : List ℕ} {d : ℕ} (h : d < lengths.sum) :
    (monthDay month lengths d).1 < month + lengths.length ∧
      (monthDay month lengths d).2 ≤ lengths.getD ((monthDay month lengths d).1 - month) 0 := by
  induction lengths generalizing month d with
  | nil => simp at h
  | cons n lengths ih =>
    rw [List.sum_cons] at h
    rw [monthDay]
    split
    · rename_i hd
      simp only [Nat.sub_self, List.getD_cons_zero, List.length_cons]
      omega
    · have hle := (le_monthDay (month + 1) lengths (d - n)).1
      obtain ⟨hmonth, hday⟩ := ih (month + 1) (d := d - n) (by omega)
      rw [show (monthDay (month + 1) lengths (d - n)).1 - month =
        ((monthDay (month + 1) lengths (d - n)).1 - (month + 1)) + 1 by omega,
        List.getD_cons_succ, List.length_cons]
      exact ⟨by omega, hday⟩

/-- The days before a month and within it are fewer than those of the year. -/
theorem sum_take_lt {lengths : List ℕ} {i d : ℕ} (h : d < lengths.getD i 0) :
    (lengths.take i).sum + d < lengths.sum := by
  induction lengths generalizing i with
  | nil => simp at h
  | cons n lengths ih =>
    cases i with
    | zero =>
      rw [List.getD_cons_zero] at h
      rw [List.take_zero, List.sum_nil, List.sum_cons]
      omega
    | succ i =>
      rw [List.getD_cons_succ] at h
      rw [List.take_succ_cons, List.sum_cons, List.sum_cons, Nat.add_assoc]
      exact Nat.add_lt_add_left (ih h) n

/-! ## Years -/

/-- The day that `yearDay` finds is a day of the year that it finds. -/
theorem yearDay_lt (d : ℕ) :
    (yearDay d).2 < (monthLengths (isLeap (yearDay d).1)).sum := by
  rw [sum_monthLengths]
  by_cases hleap : isLeap (yearDay d).1 = true
  · rw [if_pos hleap]
    simp only [yearDay]
    omega
  · rw [if_neg hleap]
    simp only [isLeap, yearDay, Bool.and_eq_true, Bool.or_eq_true, beq_iff_eq, bne_iff_ne]
      at hleap ⊢
    omega

theorem yearDay_fst_pos (d : ℕ) : 0 < (yearDay d).1 := by
  simp only [yearDay]
  omega

theorem yearDay_fst_le {d : ℕ} (h : d < Instant.dayCount) : (yearDay d).1 ≤ 9999 := by
  unfold Instant.dayCount at h
  simp only [yearDay]
  omega

/-- A year ends where the next one begins. -/
theorem daysBeforeYear_add_lt {year d : ℕ} (hpos : 0 < year) (hle : year ≤ 9999)
    (hd : d < (monthLengths (isLeap year)).sum) :
    daysBeforeYear year + d < Instant.dayCount := by
  rw [sum_monthLengths, isLeap] at hd
  unfold daysBeforeYear Instant.dayCount
  split at hd
  · rename_i hleap
    simp only [Bool.and_eq_true, beq_iff_eq] at hleap
    omega
  · omega

/-! ## Dates -/

/-- A day of a year in the years 1 to 9999 with a time of day. -/
structure Valid (c : Civil) : Prop where
  year_pos : 0 < c.year
  year_le : c.year ≤ 9999
  month_pos : 0 < c.month
  month_le : c.month ≤ 12
  day_pos : 0 < c.day
  day_le : c.day ≤ monthLength (isLeap c.year) c.month
  hour_lt : c.hour < 24
  minute_lt : c.minute < 60
  second_lt : c.second < 60
  micro_lt : c.micro < 1000000

/-- A date, part by part. -/
theorem ofDay_eq {d micro year dayOfYear month day : ℕ} (hyear : yearDay d = (year, dayOfYear))
    (hmonth : monthDay 1 (monthLengths (isLeap year)) dayOfYear = (month, day)) :
    ofDay d micro =
      { year, month, day, hour := micro / 1000000 / 3600, minute := micro / 1000000 / 60 % 60,
        second := micro / 1000000 % 60, micro := micro % 1000000 } := by
  rw [ofDay, hyear]
  dsimp only
  rw [hmonth]

theorem dayNumber_ofDay (d micro : ℕ) : (ofDay d micro).dayNumber = d := by
  have hsum := daysBeforeYear_yearDay d
  rcases hyear : yearDay d with ⟨year, dayOfYear⟩
  have hday := sum_monthDay 1 (monthLengths (isLeap year)) dayOfYear
  rcases hmonth : monthDay 1 (monthLengths (isLeap year)) dayOfYear with ⟨month, day⟩
  rw [hyear] at hsum
  rw [hmonth] at hday
  rw [ofDay_eq hyear hmonth, dayNumber, daysBeforeMonth_eq, Nat.add_assoc, hday, hsum]

theorem microOfDay_ofDay (d micro : ℕ) : (ofDay d micro).microOfDay = micro := by
  rcases hyear : yearDay d with ⟨year, dayOfYear⟩
  rcases hmonth : monthDay 1 (monthLengths (isLeap year)) dayOfYear with ⟨month, day⟩
  rw [ofDay_eq hyear hmonth, microOfDay]
  dsimp only
  omega

theorem valid_ofDay {d micro : ℕ} (hd : d < Instant.dayCount)
    (hmicro : micro < Instant.microsPerDay) : (ofDay d micro).Valid := by
  have hle := yearDay_fst_le hd
  have hpos := yearDay_fst_pos d
  have hlt := yearDay_lt d
  rcases hyear : yearDay d with ⟨year, dayOfYear⟩
  rw [hyear] at hle hpos hlt
  have hfirst := le_monthDay 1 (monthLengths (isLeap year)) dayOfYear
  have hlast := monthDay_le 1 hlt
  have hlength : (monthLengths (isLeap year)).length = 12 := rfl
  rcases hmonth : monthDay 1 (monthLengths (isLeap year)) dayOfYear with ⟨month, day⟩
  rw [hmonth] at hfirst hlast
  unfold Instant.microsPerDay at hmicro
  rw [ofDay_eq hyear hmonth]
  constructor <;> dsimp only at *
  · exact hpos
  · exact hle
  · exact hfirst.1
  · omega
  · exact hfirst.2
  · exact hlast.2
  all_goals omega

namespace Valid

variable {c : Civil} (h : c.Valid)

include h

theorem dayNumber_lt : c.dayNumber < Instant.dayCount := by
  have hlength : c.day - 1 < (monthLengths (isLeap c.year)).getD (c.month - 1) 0 := by
    have hday := h.day_le
    have hpos := h.day_pos
    unfold monthLength at hday
    omega
  have hyear := daysBeforeYear_add_lt h.year_pos h.year_le (sum_take_lt hlength)
  rwa [dayNumber, daysBeforeMonth_eq, Nat.add_assoc]

theorem microOfDay_lt : c.microOfDay < Instant.microsPerDay := by
  have := h.hour_lt
  have := h.minute_lt
  have := h.second_lt
  have := h.micro_lt
  unfold microOfDay Instant.microsPerDay
  omega

end Valid

end Civil

namespace Instant

variable {i : Instant}

/-- **An instant with a date is the instant of its date.** -/
theorem ofCivil_toCivil (h : 0 ≤ i.micros) : ofCivil i.toCivil = i := by
  obtain ⟨micros⟩ := i
  have hsum := Nat.div_add_mod' micros.toNat microsPerDay
  rw [ofCivil, toCivil, Civil.dayNumber_ofDay, Civil.microOfDay_ofDay, hsum]
  exact congrArg Instant.mk (Int.toNat_of_nonneg h)

theorem valid_toCivil (h : i.InRange) : i.toCivil.Valid := by
  obtain ⟨hpos, hlt⟩ := h
  refine Civil.valid_ofDay ?_ (Nat.mod_lt _ (by decide))
  rw [Nat.div_lt_iff_lt_mul (by decide)]
  omega

/-- The instants with a date are those of the valid dates. -/
theorem inRange_iff : i.InRange ↔ ∃ c : Civil, c.Valid ∧ ofCivil c = i := by
  constructor
  · exact fun h => ⟨i.toCivil, valid_toCivil h, ofCivil_toCivil h.1⟩
  · rintro ⟨c, hc, rfl⟩
    have hday := hc.dayNumber_lt
    have hmicro := hc.microOfDay_lt
    refine ⟨Int.natCast_nonneg _, Int.ofNat_lt.mpr ?_⟩
    calc c.dayNumber * microsPerDay + c.microOfDay
        < (c.dayNumber + 1) * microsPerDay := by
          rw [Nat.succ_mul]
          exact Nat.add_lt_add_left hmicro _
      _ ≤ dayCount * microsPerDay := Nat.mul_le_mul_right _ hday

end Instant

end MountSpace
