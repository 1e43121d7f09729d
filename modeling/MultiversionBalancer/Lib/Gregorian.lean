import Mathlib.Data.Nat.Notation
import Mathlib.Order.Monotone.Basic
import Mathlib.Tactic.IntervalCases

/-!
# The Gregorian calendar

The proleptic Gregorian calendar from January 1 of the year 0 on: leap years, the
lengths of months, dates and their numbers.  The numbers count day after day; the
closed formula for them has years that begin in March.
-/

namespace MultiversionBalancer.Gregorian

/-! ## Years and months -/

/-- A year with a February 29. -/
def Leap (year : ℕ) : Prop :=
  year % 4 = 0 ∧ (year % 100 ≠ 0 ∨ year % 400 = 0)

instance (year : ℕ) : Decidable (Leap year) := inferInstanceAs (Decidable (_ ∧ _))

def yearLength (year : ℕ) : ℕ :=
  if Leap year then 366 else 365

/-- The days of a month, January is 1. -/
def monthLength (year month : ℕ) : ℕ :=
  if month = 2 then if Leap year then 29 else 28
  else if month = 4 ∨ month = 6 ∨ month = 9 ∨ month = 11 then 30
  else 31

/-- The days from January 1 of the year 0 to January 1. -/
def daysBeforeYear : ℕ → ℕ
  | 0 => 0
  | year + 1 => daysBeforeYear year + yearLength year

/-- The days from January 1 to the first of a month. -/
def daysBeforeMonth (year : ℕ) : ℕ → ℕ
  | 0 => 0
  | 1 => 0
  | month + 2 => daysBeforeMonth year (month + 1) + monthLength year (month + 1)

@[ext]
structure Date where
  year : ℕ
  month : ℕ
  day : ℕ
  month_pos : 1 ≤ month
  month_le : month ≤ 12
  day_pos : 1 ≤ day
  day_le : day ≤ monthLength year month

/-- The number of a date, January 1 of the year 0 has 1. -/
def Date.number (d : Date) : ℕ :=
  daysBeforeYear d.year + daysBeforeMonth d.year d.month + d.day

/-- The day of the week, 0 on Sundays; January 1 of the year 0 is a Saturday. -/
def Date.weekday (d : Date) : ℕ :=
  (d.number + 5) % 7

/-- January 1, 1970. -/
def epoch : Date where
  year := 1970
  month := 1
  day := 1
  month_pos := Nat.le_refl 1
  month_le := by decide
  day_pos := Nat.le_refl 1
  day_le := by decide

/-- The seconds from the epoch to a time of a date. -/
def Date.seconds (d : Date) (hour min sec : ℕ) : ℤ :=
  ((d.number : ℤ) - epoch.number) * 86400 + hour * 3600 + min * 60 + sec

/-! ## Dates and their numbers -/

theorem monthLength_le (year month : ℕ) : monthLength year month ≤ 31 := by
  rw [monthLength]
  split
  · split
    · decide
    · decide
  · split
    · decide
    · decide

theorem daysBeforeYear_mono : Monotone daysBeforeYear :=
  monotone_nat_of_le_succ fun _ => Nat.le_add_right _ _

theorem daysBeforeMonth_mono (year : ℕ) : Monotone (daysBeforeMonth year) := by
  refine monotone_nat_of_le_succ fun month => ?_
  cases month with
  | zero => exact Nat.le_refl 0
  | succ month => exact Nat.le_add_right _ _

theorem daysBeforeMonth_succ (year : ℕ) {month : ℕ} (h : 1 ≤ month) :
    daysBeforeMonth year (month + 1) = daysBeforeMonth year month + monthLength year month := by
  obtain ⟨month, rfl⟩ := Nat.exists_eq_add_of_le' h
  rfl

theorem daysBeforeMonth_thirteen (year : ℕ) : daysBeforeMonth year 13 = yearLength year := by
  by_cases h : Leap year
  · simp [daysBeforeMonth, monthLength, yearLength, h]
  · simp [daysBeforeMonth, monthLength, yearLength, h]

namespace Date

variable {d d' : Date}

theorem le_of_month (d : Date) :
    daysBeforeMonth d.year d.month + d.day ≤ daysBeforeMonth d.year (d.month + 1) := by
  rw [daysBeforeMonth_succ d.year d.month_pos]
  exact Nat.add_le_add_left d.day_le _

theorem number_le_year (d : Date) : d.number ≤ daysBeforeYear (d.year + 1) := by
  have hmonth := d.le_of_month
  have hyear : daysBeforeMonth d.year (d.month + 1) ≤ daysBeforeMonth d.year 13 :=
    daysBeforeMonth_mono d.year (Nat.succ_le_succ d.month_le)
  rw [daysBeforeMonth_thirteen] at hyear
  rw [number, daysBeforeYear]
  omega

theorem year_le_of_number (h : d.number ≤ d'.number) : d.year ≤ d'.year := by
  by_contra hlt
  have hyears : daysBeforeYear (d'.year + 1) ≤ daysBeforeYear d.year :=
    daysBeforeYear_mono (Nat.lt_of_not_le hlt)
  have hle := d'.number_le_year
  have hpos := d.day_pos
  rw [number] at h
  omega

theorem month_le_of_number (hyear : d.year = d'.year) (h : d.number ≤ d'.number) :
    d.month ≤ d'.month := by
  by_contra hlt
  have hmonths : daysBeforeMonth d.year (d'.month + 1) ≤ daysBeforeMonth d.year d.month :=
    daysBeforeMonth_mono d.year (Nat.lt_of_not_le hlt)
  have hle := d'.le_of_month
  have hpos := d.day_pos
  rw [number, number, ← hyear] at h
  rw [← hyear] at hle
  omega

theorem number_injective : Function.Injective number := by
  intro d d' h
  have hyear : d.year = d'.year :=
    Nat.le_antisymm (year_le_of_number h.le) (year_le_of_number h.ge)
  have hmonth : d.month = d'.month :=
    Nat.le_antisymm (month_le_of_number hyear h.le) (month_le_of_number hyear.symm h.ge)
  have hday : d.day = d'.day := by
    rw [number, number, hyear, hmonth] at h
    exact Nat.add_left_cancel h
  exact Date.ext hyear hmonth hday

end Date

/-! ## The closed formula -/

def daysBeforeMarch (year : ℕ) : ℕ :=
  365 * year + year / 4 - year / 100 + year / 400

/-- The days from March 1 to the first of the `month`-th month from March on. -/
def daysFromMarch (month : ℕ) : ℕ :=
  367 * month / 12 - 30

theorem daysBeforeYear_eq (year : ℕ) :
    daysBeforeYear year + (if Leap year then 1 else 0) = daysBeforeMarch year + 1 := by
  induction year with
  | zero => rfl
  | succ year ih =>
      rw [daysBeforeYear, yearLength]
      rw [daysBeforeMarch] at ih ⊢
      by_cases hleap : Leap year
      · have hnext : ¬Leap (year + 1) := by
          rw [Leap] at hleap ⊢
          omega
        rw [if_pos hleap] at ih ⊢
        rw [if_neg hnext]
        rw [Leap] at hleap
        omega
      · rw [if_neg hleap] at ih ⊢
        by_cases hnext : Leap (year + 1)
        · rw [if_pos hnext]
          rw [Leap] at hnext
          omega
        · rw [if_neg hnext]
          rw [Leap] at hnext
          omega

/-- The year that begins on March 1 has the February 29 of the next one. -/
theorem daysBeforeMarch_succ (year : ℕ) :
    daysBeforeMarch (year + 1) =
      daysBeforeMarch year + 365 + (if Leap (year + 1) then 1 else 0) := by
  have hyear := daysBeforeYear_eq year
  have hnext := daysBeforeYear_eq (year + 1)
  rw [daysBeforeYear, yearLength] at hnext
  split at hyear
  · next hleap =>
    rw [if_pos hleap] at hnext
    omega
  · next hleap =>
    rw [if_neg hleap] at hnext
    omega

theorem daysBeforeMonth_march (year : ℕ) {month : ℕ} (h : 3 ≤ month) (hle : month ≤ 12) :
    daysBeforeMonth year month =
      59 + (if Leap year then 1 else 0) + daysFromMarch (month - 2) := by
  by_cases hleap : Leap year
  · interval_cases month <;> simp [daysBeforeMonth, monthLength, daysFromMarch, hleap]
  · interval_cases month <;> simp [daysBeforeMonth, monthLength, daysFromMarch, hleap]

theorem daysBeforeMonth_january (year : ℕ) {month : ℕ} (hpos : 1 ≤ month) (h : month ≤ 2) :
    daysBeforeMonth year month + 306 = daysFromMarch (month + 10) := by
  interval_cases month
  · rfl
  · rfl

namespace Date

variable {d : Date}

theorem number_march (h : 3 ≤ d.month) :
    d.number = 60 + daysBeforeMarch d.year + daysFromMarch (d.month - 2) + d.day := by
  have hyear := daysBeforeYear_eq d.year
  rw [number, daysBeforeMonth_march d.year h d.month_le]
  omega

theorem number_january (h : d.month ≤ 2) (hyear : 1 ≤ d.year) :
    d.number = 60 + daysBeforeMarch (d.year - 1) + daysFromMarch (d.month + 10) + d.day := by
  obtain ⟨year, heq⟩ := Nat.exists_eq_add_of_le' hyear
  have hbefore := daysBeforeYear_eq year
  have hmonth := daysBeforeMonth_january d.year d.month_pos h
  have hyears : daysBeforeYear d.year = daysBeforeYear year + yearLength year := by
    rw [heq, daysBeforeYear]
  have hlast : d.year - 1 = year := by omega
  rw [number, hyears, yearLength, hlast]
  split at hbefore
  · next hleap =>
    rw [if_pos hleap]
    omega
  · next hleap =>
    rw [if_neg hleap]
    omega

end Date

theorem number_epoch : epoch.number = 719529 := by
  rw [Date.number_january (by decide) (by decide)]
  rfl

end MultiversionBalancer.Gregorian
