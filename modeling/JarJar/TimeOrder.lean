import JarJar.Time
import Mathlib.Order.Defs.LinearOrder

/- The order of calendar times and what `mktime` makes of it. The loop over the years
   starts in 1970 and adds nothing for the years before: a date before 1970 gets the
   second of its own year, as if that year were 1970.

   What is proved (`mktime_monotone_iff`): of two times in order, without a leap second,
   `mktime` keeps the order exactly if the first is not before 1970, or the second is so
   much later in its year, or by so many whole years from 1970 on, that it makes up for
   the years that are missing. -/
namespace JarJar.Libc
open Gregorian Buckets

namespace Tm

/-- The fields in order, compared one after the other. -/
def Earlier (a b : Tm) : Prop :=
  [a.year, a.mon, a.mday, a.hour, a.min, a.sec] < [b.year, b.mon, b.mday, b.hour, b.min, b.sec]

instance (a b : Tm) : Decidable (a.Earlier b) := by unfold Earlier; infer_instance

/-- The first time is not before 1970, or the second has more seconds since 1970 than the
first has in its year. -/
def KeepsOrder (a b : Tm) : Prop :=
  1970 ≤ a.calendarYear ∨ 1972 ≤ b.calendarYear ∨
    (b.calendarYear = 1971 ∧ a.secondOfYear < 365 * 86400 + b.secondOfYear) ∨
    (b.calendarYear ≤ 1970 ∧ a.secondOfYear < b.secondOfYear)

instance (a b : Tm) : Decidable (a.KeepsOrder b) := by unfold KeepsOrder; infer_instance

variable {a b : Tm}

theorem earlier_iff : a.Earlier b ↔ a.year < b.year ∨ a.year = b.year ∧ (a.mon < b.mon ∨
    a.mon = b.mon ∧ (a.mday < b.mday ∨ a.mday = b.mday ∧ (a.hour < b.hour ∨ a.hour = b.hour ∧
      (a.min < b.min ∨ a.min = b.min ∧ a.sec < b.sec)))) := by
  simp [Earlier, List.cons_lt_cons_iff]

/-! ## Within a year -/

theorem Checked.secondOfYear_lt (h : a.Checked) (hsec : a.sec ≤ 59) :
    0 ≤ a.secondOfYear ∧ a.secondOfYear < yearDays a.calendarYear.natAbs * 86400 := by
  obtain ⟨hmon, hmday, hhour, hmin, hsec'⟩ := h
  have hmonths : before (monthDays a.calendarYear.natAbs) (a.mon.toNat + 1) ≤
      before (monthDays a.calendarYear.natAbs) 12 := before_mono (by omega)
  rw [before_monthDays, before] at hmonths
  rw [secondOfYear]
  omega

theorem Checked.secondOfYear_mono (ha : a.Checked) (hb : b.Checked) (hyear : a.year = b.year)
    (hasec : a.sec ≤ 59) (hbsec : b.sec ≤ 59) (h : a.Earlier b) : a.secondOfYear < b.secondOfYear := by
  obtain ⟨hmon, hmday, hhour, hmin, hsec⟩ := ha
  obtain ⟨hmon', hmday', hhour', hmin', hsec'⟩ := hb
  have hcalendar : b.calendarYear = a.calendarYear := by rw [calendarYear, calendarYear, hyear]
  rw [hcalendar] at hmday'
  rw [secondOfYear, secondOfYear, hcalendar]
  have hlater := (earlier_iff.mp h).resolve_left (by omega)
  obtain hless | ⟨hsame, hrest⟩ := hlater.2
  · -- an earlier month: the whole month of `a` is passed
    have hmonths : before (monthDays a.calendarYear.natAbs) (a.mon.toNat + 1) ≤
        before (monthDays a.calendarYear.natAbs) b.mon.toNat := before_mono (by omega)
    rw [before] at hmonths
    omega
  · rw [hsame]
    omega

end Tm

/-! ## From year to year -/

theorem daysBefore_lt {y z : Int} (hfrom : 1970 ≤ y) (h : y < z) :
    daysBefore y + yearDays y.natAbs ≤ daysBefore z := by
  have hnext : daysBefore y + yearDays y.natAbs = before eras ((y - 1970).toNat + 1) := by
    rw [before, eras, show 1970 + (y - 1970).toNat = y.natAbs by omega]
    rfl
  rw [hnext, daysBefore]
  apply before_mono
  omega

theorem daysBefore_of_le {y : Int} (h : y ≤ 1970) : daysBefore y = 0 := by
  rw [daysBefore, show (y - 1970).toNat = 0 by omega]
  rfl

theorem yearDays_le (y : Nat) : yearDays y ≤ 366 := by
  unfold yearDays
  split <;> decide

theorem daysBefore_1971 : daysBefore 1971 = 365 := by decide

theorem daysBefore_1972 {y : Int} (h : 1972 ≤ y) : 730 ≤ daysBefore y := by
  have hmono : before eras 2 ≤ daysBefore y := before_mono (by omega)
  exact hmono

section
variable {a b : Tm}

theorem mktime_lt_from_1970 (ha : a.Checked) (hb : b.Checked) (hasec : a.sec ≤ 59) (hbsec : b.sec ≤ 59)
    (h : a.Earlier b) (hfrom : 1970 ≤ a.calendarYear) :
    daysBefore a.calendarYear * 86400 + a.secondOfYear <
      daysBefore b.calendarYear * 86400 + b.secondOfYear := by
  obtain ⟨-, hlast⟩ := ha.secondOfYear_lt hasec
  obtain ⟨hfirst, -⟩ := hb.secondOfYear_lt hbsec
  obtain hless | ⟨hsame, -⟩ := Tm.earlier_iff.mp h
  · have hyears : daysBefore a.calendarYear + yearDays a.calendarYear.natAbs ≤
        daysBefore b.calendarYear := by
      apply daysBefore_lt hfrom
      rw [Tm.calendarYear, Tm.calendarYear]
      omega
    omega
  · have hmono := ha.secondOfYear_mono hb hsame hasec hbsec h
    rw [Tm.calendarYear, Tm.calendarYear, hsame]
    omega

/-- A date before 1970 gets no days for its year. -/
theorem mktime_lt_before_1970 (ha : a.Checked) (hb : b.Checked) (hasec : a.sec ≤ 59)
    (hbsec : b.sec ≤ 59) (hbefore : a.calendarYear < 1970) :
    daysBefore a.calendarYear * 86400 + a.secondOfYear <
      daysBefore b.calendarYear * 86400 + b.secondOfYear ↔ a.KeepsOrder b := by
  obtain ⟨hstart, hlast⟩ := ha.secondOfYear_lt hasec
  obtain ⟨hfirst, -⟩ := hb.secondOfYear_lt hbsec
  have hlong := yearDays_le a.calendarYear.natAbs
  rw [daysBefore_of_le (by omega), Tm.KeepsOrder]
  obtain hb₁ | hb₁ | hb₁ :
      b.calendarYear ≤ 1970 ∨ b.calendarYear = 1971 ∨ 1972 ≤ b.calendarYear := by omega
  · rw [daysBefore_of_le hb₁]
    omega
  · rw [hb₁, daysBefore_1971]
    omega
  · have hyears := daysBefore_1972 hb₁
    omega

/-- `mktime` keeps the order of two times exactly if the first is not before 1970, or the
second makes up for the years before 1970 that are not counted. -/
theorem mktime_monotone_iff (a b : Tm)
    (hayear : -2^31 ≤ a.year + 1900 ∧ a.year + 1900 < 2^31)
    (hbyear : -2^31 ≤ b.year + 1900 ∧ b.year + 1900 < 2^31)
    (haccepts : mktime a ≠ some (-1)) (hbaccepts : mktime b ≠ some (-1))
    (hasec : a.sec ≤ 59) (hbsec : b.sec ≤ 59) (h : a.Earlier b) :
    (∃ x y, mktime a = some x ∧ mktime b = some y ∧ x < y) ↔ a.KeepsOrder b := by
  have ha := mktime_checked hayear haccepts
  have hb := mktime_checked hbyear hbaccepts
  rw [mktime_eq hayear ha, mktime_eq hbyear hb]
  have hvalues : (∃ x y, some (daysBefore a.calendarYear * 86400 + a.secondOfYear) = some x ∧
      some (daysBefore b.calendarYear * 86400 + b.secondOfYear) = some y ∧ x < y) ↔
      daysBefore a.calendarYear * 86400 + a.secondOfYear <
        daysBefore b.calendarYear * 86400 + b.secondOfYear := by
    simp
  rw [hvalues]
  by_cases hfrom : 1970 ≤ a.calendarYear
  · exact ⟨fun _ => Or.inl hfrom, fun _ => mktime_lt_from_1970 ha hb hasec hbsec h hfrom⟩
  · exact mktime_lt_before_1970 ha hb hasec hbsec (by omega)

end

/-- The first second of the year `1900 + year`. -/
def newYear (year : Int) : Tm := ⟨0, 0, 0, 1, 0, year, 0, 0, 0⟩

/-- New Year 1969 and New Year 1972, and New Year 1960 and New Year 1961. -/
theorem mktime_monotone_iff_1972 :
    (∃ x y, mktime (newYear 69) = some x ∧ mktime (newYear 72) = some y ∧ x < y) ∧
      ¬ ∃ x y, mktime (newYear 60) = some x ∧ mktime (newYear 61) = some y ∧ x < y := by
  constructor
  · exact (mktime_monotone_iff (newYear 69) (newYear 72) (by decide) (by decide)
      (by decide +kernel) (by decide +kernel) (by decide) (by decide) (by decide)).mpr (by decide)
  · exact fun h => absurd ((mktime_monotone_iff (newYear 60) (newYear 61) (by decide) (by decide)
      (by decide +kernel) (by decide +kernel) (by decide) (by decide) (by decide)).mp h) (by decide)

/-- New Year 1960 and New Year 1961 get the same time. -/
theorem mktime_same_before_1970 :
    (newYear 60).Earlier (newYear 61) ∧ mktime (newYear 60) = some 0 ∧ mktime (newYear 61) = some 0 ∧
      ¬ ∃ x y, mktime (newYear 60) = some x ∧ mktime (newYear 61) = some y ∧ x < y := by
  have h60 : mktime (newYear 60) = some 0 := by decide +kernel
  have h61 : mktime (newYear 61) = some 0 := by decide +kernel
  refine ⟨by decide, h60, h61, ?_⟩
  rintro ⟨x, y, hx, hy, hlt⟩
  rw [h60] at hx
  rw [h61] at hy
  rw [← Option.some.inj hx, ← Option.some.inj hy] at hlt
  exact Int.lt_irrefl 0 hlt

end JarJar.Libc
