import Mathlib.Tactic.IntervalCases
import MicroFramework.Library.Gregorian

/-!
# The calendar of the time driver

`TimeDriver::ToSystemTime` and `TimeDriver::FromSystemTime` with their macros.  A `TIME` is an
integer, in units of 100 ns since the start of the year 1601; the fields of a `SYSTEMTIME` are
words.
-/

namespace MicroFramework.Time

def baseYear : ℤ := 1601

def baseYearLeapYearAdjust : ℤ := 388

def daysInNormalYear : ℤ := 365

def baseYearDayOfWeekShift : ℤ := 1

def cummulativeDaysForMonth : List ℤ :=
  [0, 31, 59, 90, 120, 151, 181, 212, 243, 273, 304, 334, 365]

def isLeapYear (y : ℤ) : Bool :=
  (y.tmod 4 == 0 && y.tmod 100 != 0) || y.tmod 400 == 0

def numberOfLeapYears (y : ℤ) : ℤ :=
  (y - 1).tdiv 4 - (y - 1).tdiv 100 + (y - 1).tdiv 400 - baseYearLeapYearAdjust

def numberOfYears (y : ℤ) : ℤ := y - baseYear

def yearsToDays (y : ℤ) : ℤ := numberOfYears y * daysInNormalYear + numberOfLeapYears y

/-- `MONTH_TO_DAYS`, for the months from 1 to 13 that the table has. -/
def monthToDays (y : ℤ) (m : ℕ) : ℤ :=
  cummulativeDaysForMonth.getD (m - 1) 0 + if isLeapYear y ∧ m > 2 then 1 else 0

def word (z : ℤ) : ℕ := (z % 65536).toNat

@[ext]
structure SystemTime where
  wYear : ℕ
  wMonth : ℕ
  wDayOfWeek : ℕ
  wDay : ℕ
  wHour : ℕ
  wMinute : ℕ
  wSecond : ℕ
  wMilliseconds : ℕ
deriving DecidableEq

/-- The year, and the days of the years before it, of a day counted from the base year. -/
def yearOfDays (time : ℤ) : ℕ × ℤ :=
  let wYear := word (time.tdiv daysInNormalYear + baseYear)
  let ytd := yearsToDays wYear
  if ytd > time then
    let wYear := word (wYear - 1)
    (wYear, yearsToDays wYear)
  else (wYear, ytd)

def monthOfDays (wYear : ℕ) (time : ℤ) : ℕ :=
  let wMonth := word (time.tdiv 31 + 1)
  let mtd := monthToDays wYear (wMonth + 1)
  if time ≥ mtd then word (wMonth + 1) else wMonth

def toSystemTime (time : ℤ) : SystemTime :=
  let time := time.tdiv 10000
  let wMilliseconds := word (time.tmod 1000)
  let time := time.tdiv 1000
  let wSecond := word (time.tmod 60)
  let time := time.tdiv 60
  let wMinute := word (time.tmod 60)
  let time := time.tdiv 60
  let wHour := word (time.tmod 24)
  let time := time.tdiv 24
  let wDayOfWeek := word ((time + baseYearDayOfWeekShift).tmod 7)
  let (wYear, ytd) := yearOfDays time
  let time := time - ytd
  let wMonth := monthOfDays wYear time
  let mtd := monthToDays wYear wMonth
  let wDay := word (time - mtd + 1)
  { wYear, wMonth, wDayOfWeek, wDay, wHour, wMinute, wSecond, wMilliseconds }

def fromSystemTime (st : SystemTime) : ℤ :=
  let r := yearsToDays st.wYear + monthToDays st.wYear st.wMonth + st.wDay - 1
  ((((r * 24 + st.wHour) * 60 + st.wMinute) * 60 + st.wSecond) * 1000 + st.wMilliseconds) * 10000

def accDaysInMonth (year : ℤ) (month : ℕ) : ℤ := monthToDays year month

/-!
## The calendar of the time driver is the Gregorian calendar

Between the years 1601 and 3000 a `SYSTEMTIME` is a day, counted in the Gregorian calendar, and a
time of that day.
-/

open Gregorian

namespace SystemTime

def date (st : SystemTime) : Date := ⟨st.wYear, st.wMonth, st.wDay⟩

/-- A date of the supported years and a time of the day. -/
structure Valid (st : SystemTime) : Prop where
  year_ge : 1601 ≤ st.wYear
  year_le : st.wYear ≤ 3000
  date : st.date.Valid
  hour : st.wHour < 24
  minute : st.wMinute < 60
  second : st.wSecond < 60
  milliseconds : st.wMilliseconds < 1000

/-- The fields in calendar order, the largest unit first. -/
def fields (st : SystemTime) : List ℕ :=
  [st.wYear, st.wMonth, st.wDay, st.wHour, st.wMinute, st.wSecond, st.wMilliseconds]

/-- The day of the week of a date, counted on from the first of January 1601, a Monday. -/
def IsDayOfWeek (d : Date) (w : ℕ) : Prop :=
  ∃ n, Date.DaysAfter ⟨1601, 1, 1⟩ d n ∧ w = (1 + n) % 7

end SystemTime

/-- The end of the year 3000, in units of 100 ns. -/
def endOfCalendar : ℤ := daysBeforeYear 1601 3001 * (24 * 60 * 60 * 1000 * 10000)

/-! ## The macros -/

theorem isLeapYear_iff (y : ℕ) : isLeapYear y = true ↔ IsLeap y := by
  simp only [isLeapYear, IsLeap, Bool.or_eq_true, Bool.and_eq_true, beq_iff_eq, bne_iff_ne]
  rw [Int.tmod_eq_emod_of_nonneg (Int.natCast_nonneg y),
    Int.tmod_eq_emod_of_nonneg (Int.natCast_nonneg y),
    Int.tmod_eq_emod_of_nonneg (Int.natCast_nonneg y)]
  omega

variable {y m n b r : ℕ}

/-- `YEARS_TO_DAYS` counts the days since the start of 1601. -/
theorem yearsToDays_eq (h : 1601 ≤ y) : yearsToDays y = daysBeforeYear 1601 y := by
  have hclosed := @daysBeforeYear_add 1601 y (by decide) h
  have hbase : leapYearsBefore 1601 = 388 := rfl
  obtain ⟨k, rfl⟩ : ∃ k, y = k + 1 := ⟨y - 1, by omega⟩
  rw [hbase, leapYearsBefore, Nat.add_sub_cancel] at hclosed
  simp only [yearsToDays, numberOfYears, numberOfLeapYears, baseYear, daysInNormalYear,
    baseYearLeapYearAdjust, Nat.cast_add, Nat.cast_one, add_sub_cancel_right,
    Int.tdiv_eq_ediv_of_nonneg (Int.natCast_nonneg k)]
  omega

/-- `MONTH_TO_DAYS` counts the days since the start of the year. -/
theorem monthToDays_eq (y : ℕ) (hpos : 1 ≤ m) (hle : m ≤ 13) :
    monthToDays y m = daysBeforeMonth y m := by
  unfold monthToDays daysBeforeMonth Gregorian.daysInMonth
  by_cases hleap : IsLeap y
  · simp only [isLeapYear_iff, hleap, if_true]
    interval_cases m <;> rfl
  · simp only [isLeapYear_iff, hleap, if_false]
    interval_cases m <;> rfl

/-! ## The day -/

theorem word_natCast (h : n < 65536) : word n = n := by
  unfold word
  omega

/-- There are at most 339 leap years between 1601 and 3000. -/
theorem daysBeforeYear_bounds (hge : 1601 ≤ y) (hle : y ≤ 3001) :
    (y - 1601) * 365 ≤ daysBeforeYear 1601 y ∧ daysBeforeYear 1601 y ≤ (y - 1601) * 365 + 339 := by
  have hclosed := @daysBeforeYear_add 1601 y (by decide) hge
  have hbase : leapYearsBefore 1601 = 388 := rfl
  obtain ⟨k, rfl⟩ : ∃ k, y = k + 1 := ⟨y - 1, by omega⟩
  rw [hbase, leapYearsBefore, Nat.add_sub_cancel] at hclosed
  omega

/-- The year is at most one too large at first. -/
theorem yearOfDays_eq (hge : 1601 ≤ y) (hle : y ≤ 3000)
    (hlo : daysBeforeYear 1601 y ≤ n) (hhi : n < daysBeforeYear 1601 (y + 1)) :
    yearOfDays n = (y, (daysBeforeYear 1601 y : ℤ)) := by
  have hlower := (daysBeforeYear_bounds hge (Nat.le_succ_of_le hle)).1
  have hupper := (@daysBeforeYear_bounds (y + 1) (Nat.le_succ_of_le hge) (Nat.succ_le_succ hle)).2
  have hword : word ((n : ℤ).tdiv daysInNormalYear + baseYear) = n / 365 + 1601 := by
    rw [Int.tdiv_eq_ediv_of_nonneg (Int.natCast_nonneg n)]
    unfold word daysInNormalYear baseYear
    omega
  have hyear : n / 365 + 1601 = y ∨ n / 365 + 1601 = y + 1 := by omega
  unfold yearOfDays
  simp only [hword]
  rcases hyear with hyear | hyear
  · rw [hyear, yearsToDays_eq hge, if_neg (by omega)]
  · rw [hyear, @yearsToDays_eq (y + 1) (Nat.le_succ_of_le hge), if_pos (by omega)]
    have hprevious : word ((y + 1 : ℕ) - 1) = y := by
      unfold word
      omega
    rw [hprevious, yearsToDays_eq hge]

/-- The month is at most one too small at first. -/
theorem monthOfDays_eq {k : ℕ} (hpos : 1 ≤ m) (hle : m ≤ 12) (hlo : daysBeforeMonth y m ≤ k)
    (hhi : k < daysBeforeMonth y (m + 1)) : monthOfDays y k = m := by
  have hupper := daysBeforeMonth_le y (m + 1)
  have hlower : 31 * (m - 2) ≤ daysBeforeMonth y m := by
    clear hlo hhi hupper
    unfold daysBeforeMonth Gregorian.daysInMonth
    by_cases hleap : IsLeap y <;> simp only [hleap, if_true, if_false] <;> interval_cases m <;> decide
  have hword : word ((k : ℤ).tdiv 31 + 1) = k / 31 + 1 := by
    rw [Int.tdiv_eq_ediv_of_nonneg (Int.natCast_nonneg k)]
    unfold word
    omega
  have hmonth : k / 31 + 1 = m ∨ k / 31 + 1 + 1 = m := by omega
  unfold monthOfDays
  simp only [hword]
  rcases hmonth with hmonth | hmonth
  · rw [hmonth, monthToDays_eq y (Nat.le_add_left 1 m) (Nat.succ_le_succ hle), if_neg (by omega)]
  · rw [hmonth, monthToDays_eq y hpos (Nat.le_succ_of_le hle), if_pos (by omega)]
    have hnext : word ((k / 31 + 1 : ℕ) + 1) = m := by
      unfold word
      omega
    exact hnext

/-! ## The time of the day -/

theorem tdiv_mul_add (a : ℕ) (h : r < b) : ((a * b + r : ℕ) : ℤ).tdiv b = a := by
  rw [← Int.ofNat_tdiv, Nat.mul_comm, Nat.mul_add_div (Nat.zero_lt_of_lt h), Nat.div_eq_of_lt h,
    Nat.add_zero]

theorem word_tmod_mul_add (a : ℕ) (h : r < b) (hb : b ≤ 65536) :
    word (((a * b + r : ℕ) : ℤ).tmod b) = r := by
  rw [← Int.ofNat_tmod, Nat.mul_comm, Nat.mul_add_mod, Nat.mod_eq_of_lt h,
    word_natCast (h.trans_le hb)]

/-! ## Both conversions -/

namespace SystemTime

variable {st st' : SystemTime}

def dayNumber (st : SystemTime) : ℕ := st.date.dayNumber 1601

theorem dayNumber_eq (h : 1 ≤ st.wDay) : (st.dayNumber : ℤ) =
    daysBeforeYear 1601 st.wYear + daysBeforeMonth st.wYear st.wMonth + st.wDay - 1 := by
  have hday : st.dayNumber =
      daysBeforeYear 1601 st.wYear + daysBeforeMonth st.wYear st.wMonth + (st.wDay - 1) := rfl
  omega

section

variable (h : st.Valid)

include h

/-- The number that `FromSystemTime` gives, digit by digit. -/
theorem Valid.fromSystemTime_eq :
    fromSystemTime st =
      (((((st.dayNumber * 24 + st.wHour) * 60 + st.wMinute) * 60 + st.wSecond) * 1000 +
        st.wMilliseconds) * 10000 : ℕ) := by
  have hmonth : 1 ≤ st.wMonth := h.date.month_pos
  have hmonth' : st.wMonth ≤ 12 := h.date.month_le
  have hday := dayNumber_eq h.date.day_pos
  unfold fromSystemTime
  rw [yearsToDays_eq h.year_ge, monthToDays_eq _ hmonth (Nat.le_succ_of_le hmonth')]
  dsimp only
  omega

/-- The date of a day comes back. -/
theorem Valid.date_eq :
    yearOfDays st.dayNumber = (st.wYear, (daysBeforeYear 1601 st.wYear : ℤ)) ∧
    monthOfDays st.wYear (st.dayNumber - daysBeforeYear 1601 st.wYear) = st.wMonth ∧
    word (st.dayNumber - daysBeforeYear 1601 st.wYear - monthToDays st.wYear st.wMonth + 1) =
      st.wDay := by
  have hmonth : 1 ≤ st.wMonth := h.date.month_pos
  have hmonth' : st.wMonth ≤ 12 := h.date.month_le
  have hpos : 1 ≤ st.wDay := h.date.day_pos
  have hle : st.wDay ≤ Gregorian.daysInMonth st.wYear st.wMonth := h.date.day_le
  have hmax := daysInMonth_le st.wYear st.wMonth
  have hday := dayNumber_eq hpos
  have hrest : (st.dayNumber : ℤ) - daysBeforeYear 1601 st.wYear =
      (daysBeforeMonth st.wYear st.wMonth + (st.wDay - 1) : ℕ) := by omega
  refine ⟨?_, ?_, ?_⟩
  · exact yearOfDays_eq h.year_ge h.year_le st.date.le_dayNumber_year
      (h.date.dayNumber_lt_year h.year_ge)
  · rw [hrest]
    apply monthOfDays_eq hmonth hmonth' (Nat.le_add_right _ _)
    rw [daysBeforeMonth_succ _ hmonth]
    omega
  · rw [monthToDays_eq _ hmonth (Nat.le_succ_of_le hmonth'), hrest]
    unfold word
    omega

/-- A time of a day comes back, up to the ticks of a millisecond. -/
theorem Valid.toSystemTime_eq {ticks : ℕ} (hticks : ticks < 10000) :
    toSystemTime (fromSystemTime st + ticks) =
      { st with wDayOfWeek := (1 + st.dayNumber) % 7 } := by
  obtain ⟨hyear, hmonth, hday⟩ := h.date_eq
  have hmilliseconds := fun a ↦ tdiv_mul_add a hticks
  have hseconds := fun a ↦ tdiv_mul_add a h.milliseconds
  have hminutes := fun a ↦ tdiv_mul_add a h.second
  have hhours := fun a ↦ tdiv_mul_add a h.minute
  have hdays := fun a ↦ tdiv_mul_add a h.hour
  have hwMilliseconds := fun a ↦ word_tmod_mul_add a h.milliseconds (by decide)
  have hwSecond := fun a ↦ word_tmod_mul_add a h.second (by decide)
  have hwMinute := fun a ↦ word_tmod_mul_add a h.minute (by decide)
  have hwHour := fun a ↦ word_tmod_mul_add a h.hour (by decide)
  have hwDayOfWeek : word (((st.dayNumber : ℤ) + baseYearDayOfWeekShift).tmod 7) =
      (1 + st.dayNumber) % 7 := by
    rw [Int.tmod_eq_emod_of_nonneg (by unfold baseYearDayOfWeekShift; omega)]
    unfold word baseYearDayOfWeekShift
    omega
  simp only [Nat.cast_ofNat] at hmilliseconds hseconds hminutes hhours hdays
  simp only [Nat.cast_ofNat] at hwMilliseconds hwSecond hwMinute hwHour
  rw [h.fromSystemTime_eq, ← Nat.cast_add]
  unfold toSystemTime
  simp only [hmilliseconds, hseconds, hminutes, hhours, hdays, hwMilliseconds, hwSecond, hwMinute,
    hwHour, hwDayOfWeek, hyear, hmonth, hday]

theorem isDayOfWeek_iff (w : ℕ) : IsDayOfWeek st.date w ↔ w = (1 + st.dayNumber) % 7 := by
  constructor
  · rintro ⟨n, hdays, rfl⟩
    have hnumber := (Date.iterate_tomorrow 1601 n).2.2
    rw [hdays] at hnumber
    rw [dayNumber, hnumber]
  · rintro rfl
    exact ⟨st.dayNumber, h.date.daysAfter h.year_ge, rfl⟩

theorem Valid.dayNumber_lt : st.dayNumber < daysBeforeYear 1601 3001 :=
  (h.date.dayNumber_lt_year h.year_ge).trans_le (daysBeforeYear_mono (Nat.succ_le_succ h.year_le))

theorem Valid.fromSystemTime_mem : 0 ≤ fromSystemTime st ∧ fromSystemTime st < endOfCalendar := by
  have hday := h.dayNumber_lt
  have hhour := h.hour
  have hminute := h.minute
  have hsecond := h.second
  have hmilliseconds := h.milliseconds
  rw [h.fromSystemTime_eq, endOfCalendar]
  omega

end

/-- Every number of ticks before the end is a valid time with the ticks of a millisecond. -/
theorem exists_valid {t : ℤ} (hpos : 0 ≤ t) (hlt : t < endOfCalendar) :
    ∃ (st : SystemTime) (ticks : ℕ), st.Valid ∧ ticks < 10000 ∧ t = fromSystemTime st + ticks := by
  obtain ⟨t, rfl⟩ := Int.eq_ofNat_of_zero_le hpos
  rw [endOfCalendar] at hlt
  obtain ⟨d, hvalid, hyear, hnumber⟩ := Date.exists_dayNumber 1601 (t / 10000 / 1000 / 60 / 60 / 24)
  have hlast : d.year ≤ 3000 := by
    by_contra hafter
    have hmono := @daysBeforeYear_mono 1601 3001 d.year (not_le.mp hafter)
    have hle := @Date.le_dayNumber_year 1601 d
    omega
  have hst : Valid ⟨d.year, d.month, 0, d.day, t / 10000 / 1000 / 60 / 60 % 24,
      t / 10000 / 1000 / 60 % 60, t / 10000 / 1000 % 60, t / 10000 % 1000⟩ := by
    constructor
    · exact hyear
    · exact hlast
    · exact hvalid
    all_goals exact Nat.mod_lt _ (by decide)
  refine ⟨_, t % 10000, hst, Nat.mod_lt _ (by decide), ?_⟩
  rw [hst.fromSystemTime_eq]
  have hday : dayNumber ⟨d.year, d.month, 0, d.day, t / 10000 / 1000 / 60 / 60 % 24,
      t / 10000 / 1000 / 60 % 60, t / 10000 / 1000 % 60, t / 10000 % 1000⟩ =
      t / 10000 / 1000 / 60 / 60 / 24 := hnumber
  rw [hday]
  dsimp only
  omega

/-- The order of the fields is that of the days and, on one day, of the times. -/
theorem Valid.fields_lt (h : st.Valid) (hlt : st.fields < st'.fields) :
    st.dayNumber < st'.dayNumber ∨ st.dayNumber = st'.dayNumber ∧
      (st.wHour < st'.wHour ∨ st.wHour = st'.wHour ∧
        (st.wMinute < st'.wMinute ∨ st.wMinute = st'.wMinute ∧
          (st.wSecond < st'.wSecond ∨ st.wSecond = st'.wSecond ∧
            st.wMilliseconds < st'.wMilliseconds))) := by
  simp only [fields, List.cons_lt_cons_iff, List.not_lt_nil, and_false, or_false] at hlt
  have hearlier := @Date.Valid.dayNumber_lt st.date st'.date 1601 h.date h.year_ge
  rcases hlt with hyear | ⟨hyear, hmonth | ⟨hmonth, hday | ⟨hday, htime⟩⟩⟩
  · exact Or.inl (hearlier (Or.inl hyear))
  · exact Or.inl (hearlier (Or.inr ⟨hyear, Or.inl hmonth⟩))
  · exact Or.inl (hearlier (Or.inr ⟨hyear, Or.inr ⟨hmonth, hday⟩⟩))
  · refine Or.inr ⟨?_, htime⟩
    simp only [dayNumber, SystemTime.date, hyear, hmonth, hday]

theorem Valid.fromSystemTime_lt (h : st.Valid) (h' : st'.Valid) (hlt : st.fields < st'.fields) :
    fromSystemTime st < fromSystemTime st' := by
  have hhour := h.hour
  have hminute := h.minute
  have hsecond := h.second
  have hmilliseconds := h.milliseconds
  have horder := h.fields_lt hlt
  rw [h.fromSystemTime_eq, h'.fromSystemTime_eq]
  omega

end SystemTime

open SystemTime

/-- From 1601 to 3000 the two conversions are inverse to each other, up to the day of the week,
which is computed, and the ticks of a millisecond, which are dropped; and time runs in calendar
order. -/
theorem calendar_roundTrip :
    (∀ st : SystemTime, st.Valid →
      (0 ≤ fromSystemTime st ∧ fromSystemTime st < endOfCalendar) ∧
      (∃ w, IsDayOfWeek st.date w) ∧
      ∀ w, IsDayOfWeek st.date w →
        toSystemTime (fromSystemTime st) = { st with wDayOfWeek := w }) ∧
    (∀ t : ℤ, 0 ≤ t → t < endOfCalendar →
      (toSystemTime t).Valid ∧ fromSystemTime (toSystemTime t) = t - t % 10000) ∧
    (∀ st st' : SystemTime, st.Valid → st'.Valid → st.fields < st'.fields →
      fromSystemTime st < fromSystemTime st') := by
  refine ⟨?_, ?_, ?_⟩
  · intro st h
    refine ⟨h.fromSystemTime_mem, ⟨_, (isDayOfWeek_iff h _).mpr rfl⟩, ?_⟩
    intro w hw
    have hto := h.toSystemTime_eq (Nat.succ_pos 9999)
    rw [Nat.cast_zero, add_zero] at hto
    rw [hto, (isDayOfWeek_iff h w).mp hw]
  · intro t hpos hlt
    obtain ⟨st, ticks, h, hticks, rfl⟩ := exists_valid hpos hlt
    rw [h.toSystemTime_eq hticks]
    have hvalid : Valid { st with wDayOfWeek := (1 + st.dayNumber) % 7 } :=
      ⟨h.year_ge, h.year_le, h.date, h.hour, h.minute, h.second, h.milliseconds⟩
    refine ⟨hvalid, ?_⟩
    have hfrom : fromSystemTime { st with wDayOfWeek := (1 + st.dayNumber) % 7 } =
        fromSystemTime st := rfl
    rw [hfrom, h.fromSystemTime_eq]
    omega
  · exact fun st st' h h' ↦ h.fromSystemTime_lt h'

/-- The end of a leap day, a Sunday, and the next millisecond. -/
theorem calendar_roundTrip_leapDay :
    toSystemTime (fromSystemTime ⟨1604, 2, 4, 29, 23, 59, 59, 999⟩) =
      ⟨1604, 2, 0, 29, 23, 59, 59, 999⟩ ∧
    fromSystemTime (toSystemTime 997919999999999) = 997919999990000 ∧
    fromSystemTime ⟨1604, 2, 0, 29, 23, 59, 59, 999⟩ <
      fromSystemTime ⟨1604, 3, 0, 1, 0, 0, 0, 0⟩ := by
  have hend : endOfCalendar ≥ 997920000000000 := by
    have hlo := (@daysBeforeYear_bounds 3001 (by decide) le_rfl).1
    unfold endOfCalendar
    omega
  have hleap : Valid ⟨1604, 2, 4, 29, 23, 59, 59, 999⟩ := by
    constructor <;> first | exact ⟨by decide, by decide, by decide, by decide⟩ | decide
  have hleap' : Valid ⟨1604, 2, 0, 29, 23, 59, 59, 999⟩ := by
    constructor <;> first | exact ⟨by decide, by decide, by decide, by decide⟩ | decide
  have hmarch : Valid ⟨1604, 3, 0, 1, 0, 0, 0, 0⟩ := by
    constructor <;> first | exact ⟨by decide, by decide, by decide, by decide⟩ | decide
  refine ⟨?_, ?_, ?_⟩
  · exact (calendar_roundTrip.1 _ hleap).2.2 0 ((isDayOfWeek_iff hleap 0).mpr rfl)
  · exact (calendar_roundTrip.2.1 997919999999999 (by decide) (by omega)).2
  · exact calendar_roundTrip.2.2 _ _ hleap' hmarch (by decide)

end MicroFramework.Time
