import JarJar.Types
import JarJar.Lib.CountedLoop
import JarJar.Lib.Gregorian
import Mathlib.Algebra.Group.Int.Defs
import Mathlib.Data.Int.Init

/- Calendar time of the C library. `mktime` adds up the days of the years and months
   before a date; `gmtime` takes the years and months off again, one at a time, as
   long as enough days are left.

   Correspondence (C ↔ Lean):
     `struct tm`                              ↔ `Tm`
     `is_leap_year`, `get_days_in_month`      ↔ `isLeapYear`, `getDaysInMonth`
     the loops of `gmtime`                    ↔ `yearLoop`, `monthLoop`
     `mktime`, `gmtime`                       ↔ `mktime`, `gmtime`
   An `int` or a `long` is an integer. The result `none` is undefined behaviour: a sum
   that does not fit an `int`, or an index outside of `days_in_month`. Neither pointer
   is NULL (`mktime` returns -1 and `gmtime` NULL for that); `gmtime` returns the
   structure it leaves in `current_tm`. -/
namespace JarJar.Libc
open CountedLoop

structure Tm where
  sec : Int
  min : Int
  hour : Int
  mday : Int
  mon : Int
  year : Int
  wday : Int
  yday : Int
  isdst : Int
  deriving DecidableEq, Repr

/-- An `int` sum. -/
def addInt (a b : Int) : Option Int :=
  if -2^31 ≤ a + b ∧ a + b < 2^31 then some (a + b) else none

/-- A `long` stored in an `int`. -/
def toInt32 (x : Int) : Int := (BitVec.ofInt 32 x).toInt

def isLeapYear (year : Int) : Bool :=
  (year.tmod 4 = 0 ∧ year.tmod 100 ≠ 0) ∨ year.tmod 400 = 0

/-- `is_leap_year(year) ? 366 : 365`. -/
def yearLength (year : Int) : Int := if isLeapYear year then 366 else 365

def daysInMonth : List Int := [31, 28, 31, 30, 31, 30, 31, 31, 30, 31, 30, 31]

def getDaysInMonth (month year : Int) : Option Int :=
  if month = 1 ∧ isLeapYear year then some 29
  else if month < 0 then none
  else daysInMonth[month.toNat]?

def mktime (tm : Tm) : Option Int :=
  (addInt tm.year 1900).bind fun year =>
  if tm.mon < 0 ∨ 11 < tm.mon then some (-1)
  else (getDaysInMonth tm.mon year).bind fun last =>
    if tm.mday < 1 ∨ last < tm.mday then some (-1)
    else if tm.hour < 0 ∨ 23 < tm.hour then some (-1)
    else if tm.min < 0 ∨ 59 < tm.min then some (-1)
    else if tm.sec < 0 ∨ 60 < tm.sec then some (-1)
    else
      let days := loop (year - 1970).toNat (fun k days => days + yearLength (1970 + k)) 0
      let days := loop tm.mon.toNat
        (fun m days => days.bind fun days => (getDaysInMonth m year).map (days + ·)) (some days)
      days.map fun days =>
        (days + (tm.mday - 1)) * 86400 + tm.hour * 3600 + tm.min * 60 + tm.sec

theorem yearLength_pos (year : Int) : 0 < yearLength year := by
  rw [yearLength]
  split <;> decide

/-- Takes off whole years. -/
def yearLoop (days year : Int) : Option (Int × Int) :=
  if yearLength year ≤ days then
    if year + 1 < 2^31 then yearLoop (days - yearLength year) (year + 1) else none
  else some (days, year)
termination_by days.toNat
decreasing_by
  have hpos := yearLength_pos year
  omega

theorem getDaysInMonth_some {month : Nat} {year d : Int} (h : getDaysInMonth month year = some d) :
    month < 12 := by
  rw [getDaysInMonth] at h
  split at h
  · next hfebruary => omega
  · split at h
    · next hnegative => omega
    · rw [List.getElem?_eq_some_iff] at h
      obtain ⟨hlt, -⟩ := h
      exact hlt

/-- Takes off whole months. -/
def monthLoop (days : Int) (month : Nat) (year : Int) : Option (Int × Nat) :=
  match h : getDaysInMonth month year with
  | none => none
  | some d => if d ≤ days then monthLoop (days - d) (month + 1) year else some (days, month)
termination_by 12 - month
decreasing_by
  have hlt := getDaysInMonth_some h
  omega

def gmtime (t : Int) : Option Tm :=
  let sec := t.tmod 60
  let t := t.tdiv 60
  let min := t.tmod 60
  let t := t.tdiv 60
  let hour := t.tmod 24
  let t := t.tdiv 24
  (yearLoop t 1970).bind fun (days, year) =>
  (monthLoop days 0 year).map fun (rest, month) =>
    { sec, min, hour, mday := toInt32 (rest + 1), mon := month, year := year - 1900,
      wday := (4 + t).tmod 7, yday := toInt32 days, isdst := -1 }

/-! ## The calendar -/

section
open Gregorian Buckets

theorem isLeapYear_iff (y : Nat) : isLeapYear y = true ↔ Leap y := by
  rw [isLeapYear, decide_eq_true_iff, Leap]
  have h4 : (y : Int).tmod 4 = ((y % 4 : Nat) : Int) := rfl
  have h100 : (y : Int).tmod 100 = ((y % 100 : Nat) : Int) := rfl
  have h400 : (y : Int).tmod 400 = ((y % 400 : Nat) : Int) := rfl
  rw [h4, h100, h400]
  omega

theorem yearLength_eq (y : Nat) : yearLength y = yearDays y := by
  rw [yearLength, yearDays]
  by_cases hleap : Leap y
  · rw [if_pos ((isLeapYear_iff y).mpr hleap), if_pos hleap]
    rfl
  · rw [if_neg fun h => hleap ((isLeapYear_iff y).mp h), if_neg hleap]
    rfl

theorem getDaysInMonth_eq (y : Nat) {m : Nat} (hm : m < 12) :
    getDaysInMonth m y = some (monthDays y m : Int) := by
  by_cases hfebruary : m = 1
  · subst hfebruary
    rw [getDaysInMonth, monthDays]
    by_cases hleap : Leap y
    · rw [if_pos ⟨rfl, (isLeapYear_iff y).mpr hleap⟩, if_pos hleap]
      rfl
    · rw [if_neg fun h => hleap ((isLeapYear_iff y).mp h.2), if_neg hleap]
      rfl
  · rw [getDaysInMonth, if_neg fun h => hfebruary (Int.ofNat_inj.mp h.1), if_neg (by omega)]
    obtain rfl | rfl | rfl | rfl | rfl | rfl | rfl | rfl | rfl | rfl | rfl : m = 0 ∨ m = 2 ∨ m = 3 ∨
        m = 4 ∨ m = 5 ∨ m = 6 ∨ m = 7 ∨ m = 8 ∨ m = 9 ∨ m = 10 ∨ m = 11 := by omega
    all_goals rfl

theorem isLeapYear_natAbs (year : Int) : isLeapYear year = isLeapYear year.natAbs := by
  have hmod (k : Nat) : year.tmod k = 0 ↔ (year.natAbs : Int).tmod k = 0 := by
    rw [← Int.natAbs_eq_zero, ← Int.natAbs_eq_zero, Int.natAbs_tmod, Int.natAbs_tmod,
      Int.natAbs_natCast, Int.natAbs_natCast]
  have h4 := hmod 4
  have h100 := hmod 100
  have h400 := hmod 400
  rw [isLeapYear, isLeapYear, decide_eq_decide]
  exact or_congr (and_congr h4 (not_congr h100)) h400

theorem getDaysInMonth_natAbs (year : Int) {m : Nat} (hm : m < 12) :
    getDaysInMonth m year = some (monthDays year.natAbs m : Int) := by
  rw [← getDaysInMonth_eq year.natAbs hm, getDaysInMonth, getDaysInMonth, isLeapYear_natAbs]

theorem toInt32_of_lt {n : Nat} (h : n < 2^31) : toInt32 n = n := by
  rw [toInt32, BitVec.toInt_ofInt]
  apply Int.bmod_eq_of_le
  · omega
  · omega

/-- The loop over the years stops in the year of the day, with the day of that year. -/
theorem yearLoop_eq {k j x : Nat} (hx : InBucket eras (k + j) x) (hfits : 1970 + (k + j) < 2^31) :
    yearLoop ((x - before eras k : Nat)) ((1970 + k : Nat)) =
      some (((x - before eras (k + j) : Nat) : Int), ((1970 + (k + j) : Nat) : Int)) := by
  induction j generalizing k with
  | zero =>
    have hstop := hx.goes_on_iff (Nat.le_refl k)
    have hlength : yearLength ((1970 + k : Nat)) = (eras k : Int) := yearLength_eq (1970 + k)
    rw [yearLoop, hlength, if_neg]
    · rfl
    · intro hle
      exact Nat.lt_irrefl k (hstop.mp (by exact_mod_cast hle))
  | succ j ih =>
    have hle : eras k ≤ x - before eras k := (hx.goes_on_iff (by omega)).mpr (by omega)
    have hlength : yearLength ((1970 + k : Nat)) = (eras k : Int) := yearLength_eq (1970 + k)
    have hdays : ((x - before eras k : Nat) : Int) - (eras k : Int) =
        ((x - before eras (k + 1) : Nat) : Int) := by
      rw [before]
      omega
    have hyear : ((1970 + k : Nat) : Int) + 1 = ((1970 + (k + 1) : Nat) : Int) := by omega
    rw [show k + (j + 1) = k + 1 + j by omega] at hx hfits ⊢
    rw [yearLoop, hlength, if_pos (by exact_mod_cast hle), if_pos (by omega), hdays, hyear]
    exact ih hx hfits

theorem monthLoop_eq {y k j x : Nat} (hx : InBucket (monthDays y) (k + j) x) (hlt : k + j < 12) :
    monthLoop ((x - before (monthDays y) k : Nat)) k y =
      some (((x - before (monthDays y) (k + j) : Nat) : Int), k + j) := by
  induction j generalizing k with
  | zero =>
    have hstop := hx.goes_on_iff (Nat.le_refl k)
    rw [monthLoop, getDaysInMonth_eq y (by omega)]
    dsimp only
    rw [if_neg]
    · rfl
    · intro hle
      exact Nat.lt_irrefl k (hstop.mp (by exact_mod_cast hle))
  | succ j ih =>
    have hle : monthDays y k ≤ x - before (monthDays y) k :=
      (hx.goes_on_iff (by omega)).mpr (by omega)
    have hdays : ((x - before (monthDays y) k : Nat) : Int) - (monthDays y k : Int) =
        ((x - before (monthDays y) (k + 1) : Nat) : Int) := by
      rw [before]
      omega
    rw [show k + (j + 1) = k + 1 + j by omega] at hx hlt ⊢
    rw [monthLoop, getDaysInMonth_eq y (by omega)]
    dsimp only
    rw [if_pos (by exact_mod_cast hle), hdays]
    exact ih hx hlt

theorem years_sum (n : Nat) :
    loop n (fun k days => days + yearLength (1970 + (k : Nat))) 0 = (before eras n : Int) := by
  induction n with
  | zero => rfl
  | succ n ih =>
    have hlength : yearLength (1970 + (n : Nat)) = (eras n : Int) := yearLength_eq (1970 + n)
    show loop n _ 0 + yearLength (1970 + (n : Nat)) = _
    rw [ih, hlength, before, Int.natCast_add]

theorem months_sum (year : Int) (a : Nat) {n : Nat} (hn : n ≤ 12) :
    loop n (fun m (days : Option Int) => days.bind fun days =>
      (getDaysInMonth (m : Nat) year).map (days + ·)) (some (a : Int)) =
      some ((a + before (monthDays year.natAbs) n : Nat) : Int) := by
  induction n with
  | zero => rfl
  | succ n ih =>
    show Option.bind (loop n _ _) _ = _
    rw [ih (by omega), Option.bind_some, getDaysInMonth_natAbs year (by omega), Option.map_some, before]
    congr 1
    omega

end

/-! ## Fields that `gmtime` bounds by itself -/

theorem monthLoop_lt {days rest year : Int} {m month : Nat}
    (h : monthLoop days m year = some (rest, month)) : month < 12 := by
  fun_induction monthLoop days m year with
  | case1 => cases h
  | case2 _ _ _ _ _ ih => exact ih h
  | case3 _ _ _ hsome _ =>
    cases h
    exact getDaysInMonth_some hsome

theorem tdiv_day (t : Int) : ((t.tdiv 60).tdiv 60).tdiv 24 = t.tdiv 86400 := by
  have hnat (n : Nat) : (((n : Int).tdiv 60).tdiv 60).tdiv 24 = (n : Int).tdiv 86400 := by
    show ((n / 60 / 60 / 24 : Nat) : Int) = ((n / 86400 : Nat) : Int)
    omega
  cases Int.le_total 0 t with
  | inl hpos =>
    obtain ⟨n, rfl⟩ := Int.eq_ofNat_of_zero_le hpos
    exact hnat n
  | inr hneg =>
    obtain ⟨n, hn⟩ := Int.eq_ofNat_of_zero_le (Int.neg_nonneg_of_nonpos hneg)
    obtain rfl : t = -n := by omega
    rw [Int.neg_tdiv, Int.neg_tdiv, Int.neg_tdiv, Int.neg_tdiv, hnat]

/-- For every time, before the epoch or not. -/
theorem gmtime_fields {t : Int} {tm : Tm} (h : gmtime t = some tm) :
    (0 ≤ tm.mon ∧ tm.mon < 12) ∧ tm.wday = (4 + t.tdiv 86400).tmod 7 := by
  unfold gmtime at h
  obtain ⟨⟨days, year⟩, -, hyear⟩ := Option.bind_eq_some_iff.mp h
  obtain ⟨⟨rest, month⟩, hmonth, rfl⟩ := Option.map_eq_some_iff.mp hyear
  have hlt := monthLoop_lt hmonth
  refine ⟨⟨Int.natCast_nonneg month, Int.ofNat_lt.mpr hlt⟩, ?_⟩
  rw [← tdiv_day]

theorem gmtime_of_lt_february {t : Int} (h : t.tdiv 86400 < 31) : gmtime t = some
    { sec := t.tmod 60, min := (t.tdiv 60).tmod 60, hour := ((t.tdiv 60).tdiv 60).tmod 24,
      mday := toInt32 (t.tdiv 86400 + 1), mon := 0, year := 70, wday := (4 + t.tdiv 86400).tmod 7,
      yday := toInt32 (t.tdiv 86400), isdst := -1 } := by
  have hlength : yearLength 1970 = 365 := rfl
  have hdays : getDaysInMonth (0 : Nat) 1970 = some 31 := rfl
  have hyears : yearLoop (t.tdiv 86400) 1970 = some (t.tdiv 86400, 1970) := by
    rw [yearLoop, hlength, if_neg (by omega)]
  have hmonths : monthLoop (t.tdiv 86400) 0 1970 = some (t.tdiv 86400, 0) := by
    rw [monthLoop, hdays]
    exact if_neg (Int.not_le.mpr h)
  unfold gmtime
  dsimp only
  rw [tdiv_day, hyears, Option.bind_some]
  dsimp only
  rw [hmonths]
  rfl

theorem gmtime_wday_iff {t : Int} {tm : Tm} (h : gmtime t = some tm) :
    0 ≤ tm.wday ↔ -432000 < t ∨ 7 ∣ 4 + t.tdiv 86400 := by
  have hdays : -432000 < t ↔ 0 ≤ 4 + t.tdiv 86400 := by
    cases Int.le_total 0 t with
    | inl hpos =>
      obtain ⟨n, rfl⟩ := Int.eq_ofNat_of_zero_le hpos
      have hn : (n : Int).tdiv 86400 = ((n / 86400 : Nat) : Int) := rfl
      omega
    | inr hneg =>
      obtain ⟨n, hn⟩ := Int.eq_ofNat_of_zero_le (Int.neg_nonneg_of_nonpos hneg)
      obtain rfl : t = -n := by omega
      have hn : (n : Int).tdiv 86400 = ((n / 86400 : Nat) : Int) := rfl
      rw [Int.neg_tdiv, hn]
      omega
  rw [(gmtime_fields h).2, hdays]
  generalize 4 + t.tdiv 86400 = d
  constructor
  · intro hmod
    by_cases hd : 0 ≤ d
    · exact .inl hd
    · have hback := Int.neg_tmod (-d) 7
      have hpos := Int.tmod_nonneg 7 (show 0 ≤ -d by omega)
      rw [Int.neg_neg] at hback
      exact .inr (Int.dvd_of_tmod_eq_zero (by omega))
  · rintro (hd | hdvd)
    · exact Int.tmod_nonneg 7 hd
    · exact Int.le_of_eq (Int.tmod_eq_zero_of_dvd hdvd).symm

/-! ## What `mktime` computes -/

namespace Tm
open Gregorian

def calendarYear (tm : Tm) : Int := tm.year + 1900

/-- The checks of `mktime`. -/
structure Checked (tm : Tm) : Prop where
  mon : 0 ≤ tm.mon ∧ tm.mon ≤ 11
  mday : 1 ≤ tm.mday ∧ tm.mday ≤ monthDays tm.calendarYear.natAbs tm.mon.toNat
  hour : 0 ≤ tm.hour ∧ tm.hour ≤ 23
  min : 0 ≤ tm.min ∧ tm.min ≤ 59
  sec : 0 ≤ tm.sec ∧ tm.sec ≤ 60

/-- The seconds of the year before the time. -/
def secondOfYear (tm : Tm) : Int :=
  (Buckets.before (monthDays tm.calendarYear.natAbs) tm.mon.toNat + (tm.mday - 1)) * 86400 +
    tm.hour * 3600 + tm.min * 60 + tm.sec

end Tm

section
variable {tm : Tm}

/-- The days of the years that the loop of `mktime` passes. -/
def daysBefore (year : Int) : Nat := Buckets.before Gregorian.eras (year - 1970).toNat

theorem mktime_checked (hyear : -2^31 ≤ tm.calendarYear ∧ tm.calendarYear < 2^31)
    (haccepts : mktime tm ≠ some (-1)) : tm.Checked := by
  have hadd : addInt tm.year 1900 = some tm.calendarYear := if_pos hyear
  rw [mktime, hadd, Option.bind_some] at haccepts
  by_cases hmon : tm.mon < 0 ∨ 11 < tm.mon
  · rw [if_pos hmon] at haccepts
    exact absurd rfl haccepts
  obtain ⟨m, hm⟩ := Int.eq_ofNat_of_zero_le (show 0 ≤ tm.mon by omega)
  rw [if_neg hmon, hm, getDaysInMonth_natAbs _ (by omega), Option.bind_some] at haccepts
  by_cases hmday : tm.mday < 1 ∨ (Gregorian.monthDays tm.calendarYear.natAbs m : Int) < tm.mday
  · rw [if_pos hmday] at haccepts
    exact absurd rfl haccepts
  by_cases hhour : tm.hour < 0 ∨ 23 < tm.hour
  · rw [if_neg hmday, if_pos hhour] at haccepts
    exact absurd rfl haccepts
  by_cases hmin : tm.min < 0 ∨ 59 < tm.min
  · rw [if_neg hmday, if_neg hhour, if_pos hmin] at haccepts
    exact absurd rfl haccepts
  by_cases hsec : tm.sec < 0 ∨ 60 < tm.sec
  · rw [if_neg hmday, if_neg hhour, if_neg hmin, if_pos hsec] at haccepts
    exact absurd rfl haccepts
  refine ⟨by omega, ?_, by omega, by omega, by omega⟩
  rw [hm, Int.toNat_natCast]
  omega

/-- What meets the checks gets the seconds of the years, of the year and of the day. -/
theorem mktime_eq (hyear : -2^31 ≤ tm.calendarYear ∧ tm.calendarYear < 2^31) (h : tm.Checked) :
    mktime tm = some (daysBefore tm.calendarYear * 86400 + tm.secondOfYear) := by
  have hadd : addInt tm.year 1900 = some tm.calendarYear := if_pos hyear
  obtain ⟨hmon, hmday, hhour, hmin, hsec⟩ := h
  obtain ⟨m, hm⟩ := Int.eq_ofNat_of_zero_le hmon.1
  rw [hm, Int.toNat_natCast] at hmday
  have hmonths := months_sum tm.calendarYear (daysBefore tm.calendarYear) (n := m) (by omega)
  rw [mktime, hadd, Option.bind_some, hm, if_neg (by omega), getDaysInMonth_natAbs _ (by omega),
    Option.bind_some, if_neg (by omega), if_neg (by omega), if_neg (by omega), if_neg (by omega),
    Int.toNat_natCast]
  dsimp only
  rw [years_sum, ← daysBefore, hmonths, Option.map_some, Tm.secondOfYear, hm, Int.toNat_natCast,
    Option.some.injEq]
  omega

end

/-! ## There and back -/

open Gregorian

/-- The second of a date at a time of day. -/
def secondOf (d : Date) (hour min sec : Nat) : Nat := d.number * 86400 + hour * 3600 + min * 60 + sec

/-- The structure for a date at a time of day. -/
def Tm.at (d : Date) (hour min sec : Nat) : Tm where
  sec := sec
  min := min
  hour := hour
  mday := d.day + 1
  mon := d.month
  year := (d.year : Int) - 1900
  wday := ((4 + d.number) % 7 : Nat)
  yday := d.yearDay
  isdst := -1

section
variable {d : Date} {hour min sec : Nat}

theorem monthDays_le (y m : Nat) : monthDays y m ≤ 31 := by
  unfold monthDays
  split
  · split <;> decide
  all_goals decide

theorem yearDay_le (d : Date) : d.yearDay < 366 := by
  have hlt := d.yearDay_lt
  rw [yearDays] at hlt
  split at hlt <;> omega

/-- `gmtime` finds the date and the time of day. -/
theorem gmtime_secondOf (hyear : d.year < 2^31) (hhour : hour < 24) (hmin : min < 60) (hsec : sec < 60) :
    gmtime (secondOf d hour min sec) = some (Tm.at d hour min sec) := by
  have hfrom := d.from_1970
  have hday := monthDays_le d.year d.month
  have hdaylt := d.day_lt
  have hyearDay := yearDay_le d
  generalize ht : secondOf d hour min sec = t
  rw [secondOf] at ht
  have hsec' : t % 60 = sec := by omega
  have hmin' : t / 60 % 60 = min := by omega
  have hhour' : t / 60 / 60 % 24 = hour := by omega
  have hnumber : t / 60 / 60 / 24 = d.number := by omega
  have hyears : yearLoop (d.number : Nat) 1970 = some ((d.yearDay : Int), (d.year : Int)) := by
    have hloop := yearLoop_eq (k := 0) (j := d.year - 1970) (x := d.number)
      (by rw [Nat.zero_add]; exact d.inYear) (by omega)
    rw [Nat.zero_add, show 1970 + (d.year - 1970) = d.year by omega] at hloop
    have hrest : d.number - Buckets.before eras (d.year - 1970) = d.yearDay :=
      Nat.add_sub_cancel_left _ _
    rw [hrest] at hloop
    exact hloop
  have hmonths : monthLoop (d.yearDay : Nat) 0 d.year = some ((d.day : Int), d.month) := by
    have hloop := monthLoop_eq (k := 0) (j := d.month) (x := d.yearDay)
      (by rw [Nat.zero_add]; exact d.inMonth) (by have := d.month_lt; omega)
    have hrest : d.yearDay - Buckets.before (monthDays d.year) (0 + d.month) = d.day := by
      rw [Nat.zero_add]
      exact Nat.add_sub_cancel_left _ _
    rw [hrest, Nat.zero_add] at hloop
    exact hloop
  show ((yearLoop (((t / 60 / 60 / 24 : Nat) : Int)) 1970).bind fun p =>
    (monthLoop p.1 0 p.2).map fun q =>
      ({ sec := ((t % 60 : Nat) : Int), min := ((t / 60 % 60 : Nat) : Int),
         hour := ((t / 60 / 60 % 24 : Nat) : Int), mday := toInt32 (q.1 + 1), mon := q.2,
         year := p.2 - 1900, wday := ((4 + t / 60 / 60 / 24) % 7 : Nat), yday := toInt32 p.1,
         isdst := -1 } : Tm)) = _
  have hmday : toInt32 ((d.day : Int) + 1) = (d.day : Int) + 1 :=
    toInt32_of_lt (n := d.day + 1) (by omega)
  rw [hnumber, hyears, Option.bind_some]
  dsimp only
  rw [hmonths, Option.map_some, hsec', hmin', hhour', hmday, toInt32_of_lt (by omega)]
  rfl

/-- `mktime` adds a date and a time of day up again, whatever the other fields are. -/
theorem mktime_secondOf {tm : Tm} (hyear : d.year < 2^31) (hhour : hour < 24) (hmin : min < 60)
    (hsec : sec ≤ 60) (htm : tm.year + 1900 = d.year ∧ tm.mon = d.month ∧ tm.mday = d.day + 1 ∧
      tm.hour = hour ∧ tm.min = min ∧ tm.sec = sec) :
    mktime tm = some (secondOf d hour min sec : Int) := by
  obtain ⟨hy, hmon, hmday, hh, hmi, hs⟩ := htm
  have hfrom := d.from_1970
  have hday := d.day_lt
  have hmonth := d.month_lt
  have hcalendar : tm.calendarYear = d.year := hy
  have hchecked : tm.Checked := by
    refine ⟨by omega, ?_, by omega, by omega, by omega⟩
    rw [hcalendar, hmon, Int.natAbs_natCast, Int.toNat_natCast]
    omega
  have hcount : ((d.year : Int) - 1970).toNat = d.year - 1970 := by omega
  rw [mktime_eq (by omega) hchecked, Tm.secondOfYear, daysBefore, hcalendar, hmon, hmday, hh, hmi, hs,
    hcount, Int.natAbs_natCast, Int.toNat_natCast, secondOf, Date.number, Date.yearDay, Option.some.injEq]
  omega

theorem mktime_accepts {tm : Tm} {y : Nat} (hy : tm.year + 1900 = y) (hfrom : 1970 ≤ y)
    (hyear : y < 2^31) (haccepts : mktime tm ≠ some (-1)) :
    ∃ (d : Date) (hour min sec : Nat), d.year = y ∧ hour < 24 ∧ min < 60 ∧ sec ≤ 60 ∧
      tm.mon = d.month ∧ tm.mday = d.day + 1 ∧ tm.hour = hour ∧ tm.min = min ∧ tm.sec = sec := by
  have hcalendar : tm.calendarYear = y := hy
  obtain ⟨hmon, hmday, hhour, hmin, hsec⟩ := mktime_checked (by omega) haccepts
  rw [hcalendar, Int.natAbs_natCast] at hmday
  refine ⟨⟨y, tm.mon.toNat, tm.mday.toNat - 1, hfrom, by omega, by omega⟩, tm.hour.toNat,
    tm.min.toNat, tm.sec.toNat, rfl, ?_⟩
  dsimp only
  omega

theorem exists_secondOf {t : Nat} (ht : t < 2^55) :
    ∃ (d : Date) (hour min sec : Nat), secondOf d hour min sec = t ∧ d.year < 2^31 ∧
      d.number = t / 86400 ∧ hour < 24 ∧ min < 60 ∧ sec < 60 := by
  obtain ⟨d, hd⟩ := Date.exists_date (t / 86400)
  refine ⟨d, t / 3600 % 24, t / 60 % 60, t % 60, ?_, ?_, hd, by omega, by omega, by omega⟩
  · rw [secondOf, hd]
    omega
  · have hlong : ∀ i, 365 ≤ eras i := fun i => by rw [eras, yearDays]; split <;> decide
    have hyears := Buckets.mul_le_before (n := d.year - 1970) hlong
    have hstart := d.inYear.1
    omega

end

/-- `gmtime` and `mktime` are inverse to each other. From any second up to 2^55 `gmtime`
makes a date of the calendar with the right day of the year and of the week, and
`mktime` leads back to it; and what `mktime` accepts in the years 1970 to 10^9 + 1900,
without a leap second, `gmtime` gives back. -/
theorem gmtime_mktime_inverse :
    (∀ t : Int, 0 ≤ t → t < 2^55 → ∃ tm, gmtime t = some tm ∧
      (0 ≤ tm.sec ∧ tm.sec < 60) ∧ (0 ≤ tm.min ∧ tm.min < 60) ∧ (0 ≤ tm.hour ∧ tm.hour < 24) ∧
      (∃ y m : Nat, tm.year + 1900 = y ∧ tm.mon = m ∧ m ≤ 11 ∧
        1 ≤ tm.mday ∧ tm.mday ≤ monthDays y m ∧
        tm.yday = Buckets.before (monthDays y) m + (tm.mday - 1)) ∧
      tm.wday = (t / 86400 + 4) % 7 ∧ mktime tm = some t) ∧
    (∀ tm : Tm, mktime tm ≠ some (-1) → 70 ≤ tm.year → tm.year ≤ 10^9 → tm.sec ≤ 59 →
      ∃ t tm', mktime tm = some t ∧ gmtime t = some tm' ∧
        tm'.year = tm.year ∧ tm'.mon = tm.mon ∧ tm'.mday = tm.mday ∧
        tm'.hour = tm.hour ∧ tm'.min = tm.min ∧ tm'.sec = tm.sec) := by
  constructor
  · intro t hstart hend
    obtain ⟨n, rfl⟩ := Int.eq_ofNat_of_zero_le hstart
    obtain ⟨d, hour, min, sec, rfl, hyear, hnumber, hhour, hmin, hsec⟩ :=
      exists_secondOf (t := n) (by exact_mod_cast hend)
    have hday := d.day_lt
    have hmonth := d.month_lt
    refine ⟨Tm.at d hour min sec, gmtime_secondOf hyear hhour hmin hsec, ?_, ?_, ?_,
      ⟨d.year, d.month, ?_⟩, ?_, ?_⟩
    · exact ⟨Int.natCast_nonneg sec, Int.ofNat_lt.mpr hsec⟩
    · exact ⟨Int.natCast_nonneg min, Int.ofNat_lt.mpr hmin⟩
    · exact ⟨Int.natCast_nonneg hour, Int.ofNat_lt.mpr hhour⟩
    · have hyday : (Tm.at d hour min sec).yday =
          ((Buckets.before (monthDays d.year) d.month + d.day : Nat) : Int) := rfl
      have hmday : (Tm.at d hour min sec).mday = d.day + 1 := rfl
      have hyear' : (Tm.at d hour min sec).year = (d.year : Int) - 1900 := rfl
      rw [hyday, hmday, hyear']
      refine ⟨by omega, rfl, by omega, by omega, by omega, by omega⟩
    · show (((4 + d.number) % 7 : Nat) : Int) = _
      omega
    · have hfields : (Tm.at d hour min sec).year + 1900 = d.year := by
        show (d.year : Int) - 1900 + 1900 = d.year
        omega
      exact mktime_secondOf hyear hhour hmin (by omega) ⟨hfields, rfl, rfl, rfl, rfl, rfl⟩
  · intro tm haccepts hfirst hlast hnoleap
    obtain ⟨y, hy⟩ := Int.eq_ofNat_of_zero_le (show 0 ≤ tm.year + 1900 by omega)
    obtain ⟨d, hour, min, sec, rfl, hhour, hmin, hsec, hmon, hmday, hh, hmi, hs⟩ :=
      mktime_accepts hy (by omega) (by omega) haccepts
    refine ⟨secondOf d hour min sec, Tm.at d hour min sec,
      mktime_secondOf (by omega) hhour hmin hsec ⟨hy, hmon, hmday, hh, hmi, hs⟩,
      gmtime_secondOf (by omega) hhour hmin (by omega), ?_, hmon.symm, hmday.symm, hh.symm, hmi.symm,
      hs.symm⟩
    show (d.year : Int) - 1900 = tm.year
    omega

/-- Noon of 29 February 2000, there and back. -/
theorem gmtime_mktime_leap_day :
    (∃ tm, gmtime 951825600 = some tm ∧ mktime tm = some 951825600) ∧
    ∃ t tm', mktime ⟨0, 0, 12, 29, 1, 100, 0, 0, 0⟩ = some t ∧ gmtime t = some tm' ∧
      tm'.year = 100 ∧ tm'.mon = 1 ∧ tm'.mday = 29 := by
  constructor
  · obtain ⟨tm, hgm, -, -, -, -, -, hmk⟩ := gmtime_mktime_inverse.1 951825600 (by decide) (by decide)
    exact ⟨tm, hgm, hmk⟩
  · obtain ⟨t, tm', hmk, hgm, hy, hm, hd, -⟩ :=
      gmtime_mktime_inverse.2 ⟨0, 0, 12, 29, 1, 100, 0, 0, 0⟩ (by decide +kernel) (by decide)
        (by decide) (by decide)
    exact ⟨t, tm', hmk, hgm, hy, hm, hd⟩

end JarJar.Libc
