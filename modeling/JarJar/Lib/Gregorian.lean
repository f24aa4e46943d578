import JarJar.Lib.Buckets

/- The Gregorian calendar. A date is a year from 1970 on, a month of it and a day of
   that month, both counted from 0; its number is the number of days since the first
   day of 1970. Every number is that of a date (`exists_date`), because the days are
   sorted into years and those of a year into months. -/
namespace Gregorian
open Buckets

/-- Every fourth year is a leap year, but of the full centuries only every fourth. -/
def Leap (y : Nat) : Prop := y % 4 = 0 ∧ (y % 100 = 0 → y % 400 = 0)

instance (y : Nat) : Decidable (Leap y) := inferInstanceAs (Decidable (_ ∧ _))

/-- The days of month `m` of the year `y`. -/
def monthDays (y m : Nat) : Nat :=
  match m with
  | 1 => if Leap y then 29 else 28
  | 3 => 30
  | 5 => 30
  | 8 => 30
  | 10 => 30
  | _ => 31

def yearDays (y : Nat) : Nat := if Leap y then 366 else 365

/-- The years from 1970 on, as buckets of days. -/
def eras (k : Nat) : Nat := yearDays (1970 + k)

theorem before_monthDays (y : Nat) : before (monthDays y) 12 = yearDays y := by
  simp only [before, monthDays, yearDays]
  split <;> rfl

structure Date where
  year : Nat
  month : Nat
  day : Nat
  from_1970 : 1970 ≤ year
  month_lt : month < 12
  day_lt : day < monthDays year month

namespace Date

/-- The days of the year before the date. -/
def yearDay (d : Date) : Nat := before (monthDays d.year) d.month + d.day

/-- The days since the first day of 1970. -/
def number (d : Date) : Nat := before eras (d.year - 1970) + d.yearDay

theorem inMonth (d : Date) : InBucket (monthDays d.year) d.month d.yearDay := by
  refine ⟨Nat.le_add_right _ _, ?_⟩
  rw [before]
  exact Nat.add_lt_add_left d.day_lt _

theorem yearDay_lt (d : Date) : d.yearDay < yearDays d.year := by
  rw [← before_monthDays]
  exact Nat.lt_of_lt_of_le d.inMonth.2 (before_mono d.month_lt)

theorem inYear (d : Date) : InBucket eras (d.year - 1970) d.number := by
  refine ⟨Nat.le_add_right _ _, ?_⟩
  rw [before]
  apply Nat.add_lt_add_left
  rw [eras, Nat.add_sub_cancel' d.from_1970]
  exact d.yearDay_lt

theorem exists_date (n : Nat) : ∃ d : Date, d.number = n := by
  have hyears : n < before eras (n + 1) := by
    have hlong : ∀ i, 1 ≤ eras i := fun i => by rw [eras, yearDays]; split <;> decide
    have hle := mul_le_before (n := n + 1) hlong
    omega
  obtain ⟨k, -, hyear⟩ := exists_bucket hyears
  have hrest : n - before eras k < before (monthDays (1970 + k)) 12 := by
    have hend := hyear.2
    rw [before, eras] at hend
    rw [before_monthDays]
    have hstart := hyear.1
    omega
  obtain ⟨m, hm, hmonth⟩ := exists_bucket hrest
  obtain ⟨hstart, hend⟩ := hmonth
  rw [before] at hend
  refine ⟨⟨1970 + k, m, n - before eras k - before (monthDays (1970 + k)) m, Nat.le_add_right _ _, hm,
    by omega⟩, ?_⟩
  have hstart' := hyear.1
  rw [number, yearDay]
  dsimp only
  rw [Nat.add_sub_cancel_left]
  omega

end Date

end Gregorian
