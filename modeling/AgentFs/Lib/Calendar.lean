import Mathlib.Order.Monotone.Basic
import Mathlib.Tactic.IntervalCases

/-!
# The calendar

The days of the Gregorian calendar, counted year by year and month by month, and the closed
forms of the counts.
-/

namespace Calendar

def IsLeapYear (year : Nat) : Prop :=
  (year % 4 = 0 ∧ year % 100 ≠ 0) ∨ year % 400 = 0

instance (year : Nat) : Decidable (IsLeapYear year) :=
  inferInstanceAs (Decidable (_ ∨ _))

def yearLength (year : Nat) : Nat :=
  if IsLeapYear year then 366 else 365

/-- The days of a month; months count from `0`. -/
def monthLength (year : Nat) : Nat → Nat
  | 1 => if IsLeapYear year then 29 else 28
  | 3 | 5 | 8 | 10 => 30
  | _ => 31

/-- The days before a year, from the year `0`. -/
def daysBeforeYear : Nat → Nat
  | 0 => 0
  | year + 1 => daysBeforeYear year + yearLength year

/-- The days of a year before a month. -/
def daysBeforeMonth (year : Nat) : Nat → Nat
  | 0 => 0
  | month + 1 => daysBeforeMonth year month + monthLength year month

/-- Every fourth year is a leap year, but of the hundredth only every fourth. -/
theorem daysBeforeYear_eq (year : Nat) :
  daysBeforeYear year + (year + 99) / 100 = 365 * year + (year + 3) / 4 + (year + 399) / 400
  := by
  induction year with
  | zero => rfl
  | succ year ih =>
      rw [daysBeforeYear, yearLength]
      split
      · rename_i hleap
        unfold IsLeapYear at hleap
        omega
      · rename_i hleap
        unfold IsLeapYear at hleap
        omega

/-- The twelve months make a year. -/
theorem daysBeforeMonth_twelve (year : Nat) :
  daysBeforeMonth year 12 = yearLength year
  := by
  simp only [daysBeforeMonth, monthLength, yearLength]
  split
  · rfl
  · rfl

theorem daysBeforeMonth_mono (year : Nat) :
  Monotone (daysBeforeMonth year)
  := by
  apply monotone_nat_of_le_succ
  intro month
  exact Nat.le_add_right _ _

theorem daysBeforeYear_mono :
  Monotone daysBeforeYear
  := by
  apply monotone_nat_of_le_succ
  intro year
  exact Nat.le_add_right _ _

/-- The days before a month of a year, from the year `0`; months run over into the years. -/
def daysBefore (year month : Nat) : Nat :=
  daysBeforeYear (year + month / 12) + daysBeforeMonth (year + month / 12) (month % 12)

/-- A month of a year is before that of a later year. -/
theorem daysBefore_mono_year {year later : Nat} (h : year ≤ later) (month : Nat) :
  daysBefore year month ≤ daysBefore later month
  := by
  rcases h.eq_or_lt with rfl | hlt
  · apply le_refl
  · unfold daysBefore
    have hmonth : daysBeforeMonth (year + month / 12) (month % 12) ≤
        yearLength (year + month / 12) := by
      rw [← daysBeforeMonth_twelve]
      exact daysBeforeMonth_mono _ (Nat.le_of_lt (Nat.mod_lt _ (by decide)))
    calc daysBeforeYear (year + month / 12) + daysBeforeMonth (year + month / 12) (month % 12)
        ≤ daysBeforeYear (year + month / 12 + 1) := Nat.add_le_add_left hmonth _
      _ ≤ daysBeforeYear (later + month / 12) := daysBeforeYear_mono (by omega)
      _ ≤ _ := Nat.le_add_right _ _

/-- The days before a month, by the table of a common year. -/
theorem daysBeforeMonth_eq (year : Nat) {month : Nat} (hmonth : month < 12) :
  daysBeforeMonth year month =
    [0, 31, 59, 90, 120, 151, 181, 212, 243, 273, 304, 334].getD month 0 +
      (if IsLeapYear year ∧ 2 ≤ month then 1 else 0)
  := by
  by_cases hleap : IsLeapYear year
  · interval_cases month <;> simp [daysBeforeMonth, monthLength, hleap]
  · interval_cases month <;> simp [daysBeforeMonth, monthLength, hleap]

end Calendar
