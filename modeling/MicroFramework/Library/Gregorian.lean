import Mathlib.Algebra.Order.BigOperators.Group.Finset

/-!
# The Gregorian calendar

Dates in the order of the days, and the number of days since the first day of a year.  The number is
defined by adding up whole years and months; `daysBeforeYear_add` is the usual closed form.
-/

namespace MicroFramework.Gregorian

open Finset Nat

def IsLeap (y : ℕ) : Prop := (4 ∣ y ∧ ¬ 100 ∣ y) ∨ 400 ∣ y

instance (y : ℕ) : Decidable (IsLeap y) := inferInstanceAs (Decidable (_ ∨ _))

def daysInMonth (y : ℕ) : ℕ → ℕ
  | 2 => if IsLeap y then 29 else 28
  | 4 | 6 | 9 | 11 => 30
  | _ => 31

def daysInYear (y : ℕ) : ℕ := if IsLeap y then 366 else 365

structure Date where
  year : ℕ
  month : ℕ
  day : ℕ
deriving DecidableEq

namespace Date

structure Valid (d : Date) : Prop where
  month_pos : 1 ≤ d.month
  month_le : d.month ≤ 12
  day_pos : 1 ≤ d.day
  day_le : d.day ≤ daysInMonth d.year d.month

/-- The date of the next day. -/
def tomorrow (d : Date) : Date :=
  if d.day < daysInMonth d.year d.month then { d with day := d.day + 1 }
  else if d.month < 12 then ⟨d.year, d.month + 1, 1⟩
  else ⟨d.year + 1, 1, 1⟩

def DaysAfter (first d : Date) (n : ℕ) : Prop := tomorrow^[n] first = d

end Date

/-! ## Counting days -/

def daysBeforeYear (base y : ℕ) : ℕ := ∑ i ∈ range (y - base), daysInYear (base + i)

def daysBeforeMonth (y m : ℕ) : ℕ := ∑ i ∈ range (m - 1), daysInMonth y (i + 1)

def Date.dayNumber (base : ℕ) (d : Date) : ℕ :=
  daysBeforeYear base d.year + daysBeforeMonth d.year d.month + (d.day - 1)

theorem daysBeforeYear_succ {base y : ℕ} (h : base ≤ y) :
    daysBeforeYear base (y + 1) = daysBeforeYear base y + daysInYear y := by
  rw [daysBeforeYear, succ_sub h, sum_range_succ, Nat.add_sub_cancel' h]
  rfl

theorem daysBeforeMonth_succ {m : ℕ} (y : ℕ) (h : 1 ≤ m) :
    daysBeforeMonth y (m + 1) = daysBeforeMonth y m + daysInMonth y m := by
  obtain ⟨m, rfl⟩ := exists_eq_succ_of_ne_zero (one_le_iff_ne_zero.mp h)
  exact sum_range_succ _ _

theorem daysBeforeYear_mono {base y y' : ℕ} (h : y ≤ y') :
    daysBeforeYear base y ≤ daysBeforeYear base y' :=
  sum_le_sum_of_subset (range_subset_range.mpr (Nat.sub_le_sub_right h base))

theorem daysBeforeMonth_mono {m m' : ℕ} (y : ℕ) (h : m ≤ m') :
    daysBeforeMonth y m ≤ daysBeforeMonth y m' :=
  sum_le_sum_of_subset (range_subset_range.mpr (Nat.sub_le_sub_right h 1))

theorem daysBeforeMonth_thirteen (y : ℕ) : daysBeforeMonth y 13 = daysInYear y := by
  simp only [daysBeforeMonth, daysInYear, sum_range_succ, range_zero, sum_empty, daysInMonth]
  split_ifs <;> rfl

def leapYearsBefore (y : ℕ) : ℕ := (y - 1) / 4 - (y - 1) / 100 + (y - 1) / 400

theorem leapYearsBefore_succ {y : ℕ} (h : 1 ≤ y) :
    leapYearsBefore (y + 1) = leapYearsBefore y + if IsLeap y then 1 else 0 := by
  obtain ⟨k, rfl⟩ := exists_eq_succ_of_ne_zero (one_le_iff_ne_zero.mp h)
  simp only [leapYearsBefore, succ_eq_add_one, Nat.add_sub_cancel]
  by_cases hleap : IsLeap (k + 1)
  · rw [if_pos hleap]
    unfold IsLeap at hleap
    omega
  · rw [if_neg hleap]
    unfold IsLeap at hleap
    omega

theorem daysBeforeYear_add {base y : ℕ} (hbase : 1 ≤ base) (h : base ≤ y) :
    daysBeforeYear base y + leapYearsBefore base = (y - base) * 365 + leapYearsBefore y := by
  induction y, h using le_induction with
  | base => simp [daysBeforeYear]
  | succ y h ih =>
    rw [daysBeforeYear_succ h, leapYearsBefore_succ (hbase.trans h), daysInYear]
    split_ifs <;> omega

/-! ## The order of the dates -/

namespace Date

variable {d d' : Date} {base : ℕ}

theorem Valid.dayNumber_lt_month (h : d.Valid) :
    d.dayNumber base < daysBeforeYear base d.year + daysBeforeMonth d.year (d.month + 1) := by
  have hpos := h.day_pos
  have hle := h.day_le
  rw [daysBeforeMonth_succ _ h.month_pos, dayNumber]
  omega

theorem Valid.dayNumber_lt_year (h : d.Valid) (hbase : base ≤ d.year) :
    d.dayNumber base < daysBeforeYear base (d.year + 1) := by
  calc d.dayNumber base
      < daysBeforeYear base d.year + daysBeforeMonth d.year (d.month + 1) := h.dayNumber_lt_month
    _ ≤ daysBeforeYear base d.year + daysBeforeMonth d.year 13 :=
        Nat.add_le_add_left (daysBeforeMonth_mono _ (succ_le_succ h.month_le)) _
    _ = daysBeforeYear base (d.year + 1) := by
        rw [daysBeforeMonth_thirteen, daysBeforeYear_succ hbase]

theorem le_dayNumber_month (d : Date) :
    daysBeforeYear base d.year + daysBeforeMonth d.year d.month ≤ d.dayNumber base :=
  le_add_right _ _

theorem le_dayNumber_year (d : Date) : daysBeforeYear base d.year ≤ d.dayNumber base :=
  (le_add_right _ _).trans d.le_dayNumber_month

/-- Later dates have larger numbers. -/
theorem Valid.dayNumber_lt (h : d.Valid) (hbase : base ≤ d.year)
    (hlt : d.year < d'.year ∨ d.year = d'.year ∧
      (d.month < d'.month ∨ d.month = d'.month ∧ d.day < d'.day)) :
    d.dayNumber base < d'.dayNumber base := by
  rcases hlt with hyear | ⟨hyear, hmonth | ⟨hmonth, hday⟩⟩
  · calc d.dayNumber base
        < daysBeforeYear base (d.year + 1) := h.dayNumber_lt_year hbase
      _ ≤ daysBeforeYear base d'.year := daysBeforeYear_mono hyear
      _ ≤ d'.dayNumber base := d'.le_dayNumber_year
  · calc d.dayNumber base
        < daysBeforeYear base d.year + daysBeforeMonth d.year (d.month + 1) := h.dayNumber_lt_month
      _ ≤ daysBeforeYear base d.year + daysBeforeMonth d.year d'.month :=
          Nat.add_le_add_left (daysBeforeMonth_mono _ hmonth) _
      _ ≤ d'.dayNumber base := hyear ▸ d'.le_dayNumber_month
  · have hpos := h.day_pos
    rw [dayNumber, dayNumber, hyear, hmonth]
    omega

theorem Valid.dayNumber_injective (h : d.Valid) (h' : d'.Valid) (hbase : base ≤ d.year)
    (hbase' : base ≤ d'.year) (heq : d.dayNumber base = d'.dayNumber base) : d = d' := by
  have hlt := mt (h.dayNumber_lt hbase) heq.not_lt
  have hgt := mt (h'.dayNumber_lt hbase') heq.not_gt
  have hyear : d.year = d'.year := by omega
  have hmonth : d.month = d'.month := by omega
  have hday : d.day = d'.day := by omega
  cases d
  cases d'
  subst hyear hmonth hday
  rfl

theorem daysInMonth_pos (y m : ℕ) : 1 ≤ daysInMonth y m := by
  unfold daysInMonth
  split
  · split_ifs <;> decide
  all_goals decide

theorem Valid.tomorrow (h : d.Valid) : d.tomorrow.Valid := by
  have hmonth := h.month_pos
  unfold Date.tomorrow
  split_ifs with hday hlast
  · exact ⟨h.month_pos, h.month_le, le_add_left 1 _, hday⟩
  · exact ⟨le_add_left 1 _, hlast, le_rfl, daysInMonth_pos _ _⟩
  · exact ⟨le_rfl, succ_pos 11, le_rfl, daysInMonth_pos _ _⟩

theorem Valid.dayNumber_tomorrow (h : d.Valid) (hbase : base ≤ d.year) :
    d.tomorrow.dayNumber base = d.dayNumber base + 1 := by
  have hpos := h.day_pos
  have hle := h.day_le
  have hmonth := h.month_le
  unfold Date.tomorrow
  split_ifs with hday hlast
  · simp only [dayNumber]
    omega
  · simp only [dayNumber, daysBeforeMonth_succ _ h.month_pos]
    omega
  · have hyear := daysBeforeMonth_succ d.year h.month_pos
    obtain hdecember : d.month = 12 := le_antisymm hmonth (not_lt.mp hlast)
    rw [hdecember, daysBeforeMonth_thirteen] at hyear
    rw [hdecember] at hle hday
    simp only [dayNumber, daysBeforeYear_succ hbase, hdecember]
    have hjanuary : daysBeforeMonth (d.year + 1) 1 = 0 := rfl
    omega

theorem year_le_tomorrow (d : Date) : d.year ≤ d.tomorrow.year := by
  unfold Date.tomorrow
  split_ifs
  · exact le_rfl
  · exact le_rfl
  · exact le_succ _

/-- Going on from the first of January of `base`, the dates are numbered one after the other. -/
theorem iterate_tomorrow (base n : ℕ) : (tomorrow^[n] ⟨base, 1, 1⟩).Valid ∧
    base ≤ (tomorrow^[n] ⟨base, 1, 1⟩).year ∧ (tomorrow^[n] ⟨base, 1, 1⟩).dayNumber base = n := by
  induction n with
  | zero =>
    refine ⟨⟨le_rfl, succ_pos 11, le_rfl, daysInMonth_pos _ _⟩, le_rfl, ?_⟩
    simp [dayNumber, daysBeforeYear, daysBeforeMonth]
  | succ n ih =>
    rw [Function.iterate_succ_apply']
    exact ⟨ih.1.tomorrow, ih.2.1.trans (year_le_tomorrow _),
      (ih.1.dayNumber_tomorrow ih.2.1).trans (congrArg Nat.succ ih.2.2)⟩

/-- The number of a date counts the days since the first of January of `base`. -/
theorem Valid.daysAfter (h : d.Valid) (hbase : base ≤ d.year) :
    DaysAfter ⟨base, 1, 1⟩ d (d.dayNumber base) := by
  obtain ⟨hvalid, hyear, hnumber⟩ := iterate_tomorrow base (d.dayNumber base)
  exact hvalid.dayNumber_injective h hyear hbase hnumber

theorem exists_dayNumber (base n : ℕ) :
    ∃ d : Date, d.Valid ∧ base ≤ d.year ∧ d.dayNumber base = n :=
  ⟨_, iterate_tomorrow base n⟩

end Date

/-! ## Bounds -/

theorem daysInMonth_le (y m : ℕ) : daysInMonth y m ≤ 31 := by
  unfold daysInMonth
  split
  · split_ifs <;> decide
  all_goals decide

theorem daysBeforeMonth_le (y m : ℕ) : daysBeforeMonth y m ≤ 31 * (m - 1) := by
  calc daysBeforeMonth y m ≤ ∑ _i ∈ range (m - 1), 31 := sum_le_sum fun _ _ ↦ daysInMonth_le _ _
    _ = 31 * (m - 1) := by rw [sum_const, card_range, Nat.nsmul_eq_mul, mul_comm]

end MicroFramework.Gregorian
