import MicroFramework.Time.TimeDriver

/-!
# The values of `System.DateTime`

The highest bit of the word tells universal from local time, the others are ticks of the time
driver.
-/

namespace MicroFramework.Time

open Gregorian SystemTime

inductive Thrown
  | argumentOutOfRange
  deriving DecidableEq

def minTicks : ℤ := 0

def maxTicks : ℤ := 441796895990000000

/-- A value with the bits of its word. -/
@[ext]
structure DateTime where
  m_ticks : ℕ
  isUInt64 : m_ticks < 2 ^ 64
  deriving DecidableEq

namespace DateTime

/-- The value with the lowest 64 bits of a number. -/
def ofWord (z : ℤ) : DateTime := ⟨(z % 2 ^ 64).toNat, by omega⟩

def tickMask : ℕ := 0x7FFFFFFFFFFFFFFF

def ticks (d : DateTime) : ℤ := d.m_ticks &&& tickMask

/-! ## From a date and a time of the day -/

def words (year month day hour minute second millisecond : ℤ) : SystemTime :=
  ⟨word year, word month, 0, word day, word hour, word minute, word second, word millisecond⟩

/-- The check of the constructor fails. -/
def Refused (st : SystemTime) : Prop :=
  st.wYear < 1601 ∨ st.wYear > 3000 ∨ st.wMonth < 1 ∨ st.wMonth > 12 ∨ st.wDay < 1 ∨ st.wDay > 31

instance (st : SystemTime) : Decidable (Refused st) := inferInstanceAs (Decidable (_ ∨ _))

/-- `DateTime..ctor( year, month, day, hour, minute, second, millisecond )` with `Compress` -/
def new (year month day hour minute second millisecond : ℤ) : Except Thrown DateTime :=
  let st := words year month day hour minute second millisecond
  if Refused st then .error .argumentOutOfRange else .ok (ofWord (fromSystemTime st))

/-- `Expand`, from whose fields `Year`, `Month`, `Day`, `Hour`, `Minute`, `Second` and `Millisecond`
are taken. -/
def expand (d : DateTime) : SystemTime := toSystemTime d.ticks

def dayOfYear (d : DateTime) : ℤ := accDaysInMonth d.expand.wYear d.expand.wMonth + d.expand.wDay

def Given (st : SystemTime) (args : List ℤ) : Prop := st.Valid ∧ st.fields.map Nat.cast = args

/-- The value shows the date and the time, and is among the others. -/
structure Shows (d : DateTime) (st : SystemTime) : Prop where
  fields : d.expand.fields = st.fields
  dayOfYear : ∃ n, Date.DaysAfter ⟨st.wYear, 1, 1⟩ st.date n ∧ d.dayOfYear = n + 1
  ge : minTicks ≤ d.ticks
  le : d.ticks ≤ maxTicks

/-- Valid arguments give their date and time, and others are refused. -/
def Constructs (args : List ℤ) (result : Except Thrown DateTime) : Prop :=
  (∀ st, Given st args → ∃ d, result = .ok d ∧ d.Shows st) ∧
    ((∀ st, ¬ Given st args) → result = .error .argumentOutOfRange)

def lastSecond : SystemTime := ⟨3000, 12, 0, 31, 23, 59, 59, 0⟩

variable {st st' : SystemTime} {d : DateTime}

theorem and_tickMask (n : ℕ) : n &&& tickMask = n % 2 ^ 63 := Nat.and_two_pow_sub_one_eq_mod n 63

theorem ticks_ofWord {z : ℤ} (hpos : 0 ≤ z) (hlt : z < 2 ^ 63) : (ofWord z).ticks = z := by
  rw [ticks, and_tickMask]
  unfold ofWord
  dsimp only
  omega

theorem valid_lastSecond : lastSecond.Valid := by
  constructor <;> first | exact ⟨by decide, by decide, by decide, by decide⟩ | decide

theorem fromSystemTime_congr (h : st.fields = st'.fields) :
    fromSystemTime st = fromSystemTime st' := by
  simp only [SystemTime.fields, List.cons.injEq] at h
  obtain ⟨hyear, hmonth, hday, hhour, hminute, hsecond, hmilliseconds, -⟩ := h
  simp only [fromSystemTime, hyear, hmonth, hday, hhour, hminute, hsecond, hmilliseconds]

/-- A valid time is among the values up to the last second. -/
theorem fromSystemTime_le_iff (h : st.Valid) :
    fromSystemTime st ≤ maxTicks ↔ st.fields ≤ lastSecond.fields := by
  have hlast : fromSystemTime lastSecond = maxTicks := by decide
  rw [← hlast]
  constructor
  · intro hle
    by_contra hlt
    exact absurd (valid_lastSecond.fromSystemTime_lt h (not_le.mp hlt)) (not_lt.mpr hle)
  · intro hle
    obtain hlt | heq := lt_or_eq_of_le hle
    · exact (h.fromSystemTime_lt valid_lastSecond hlt).le
    · exact (fromSystemTime_congr heq).le

theorem shows_iff (h : st.Valid) :
    (ofWord (fromSystemTime st)).Shows st ↔ st.fields ≤ lastSecond.fields := by
  obtain ⟨hpos, hend⟩ := h.fromSystemTime_mem
  have hsmall : endOfCalendar < 2 ^ 63 := by
    have := (@daysBeforeYear_bounds 3001 (by decide) le_rfl).2
    unfold endOfCalendar
    omega
  have hticks := ticks_ofWord hpos (hend.trans hsmall)
  have hexpand := h.toSystemTime_eq (Nat.succ_pos 9999)
  rw [Nat.cast_zero, add_zero] at hexpand
  rw [← fromSystemTime_le_iff h]
  constructor
  · intro hshows
    exact hticks ▸ hshows.le
  · intro hle
    refine ⟨?_, ⟨_, h.date.daysAfter le_rfl, ?_⟩, by rw [hticks]; exact hpos,
      by rwa [hticks]⟩
    · rw [expand, hticks, hexpand]
      rfl
    · have hmonth : 1 ≤ st.wMonth := h.date.month_pos
      have hmonth' : st.wMonth ≤ 12 := h.date.month_le
      have hday : 1 ≤ st.wDay := h.date.day_pos
      have hnumber : st.date.dayNumber st.wYear = daysBeforeYear st.wYear st.wYear +
          daysBeforeMonth st.wYear st.wMonth + (st.wDay - 1) := rfl
      have hfirst : daysBeforeYear st.wYear st.wYear = 0 := by simp [daysBeforeYear]
      rw [dayOfYear, expand, hticks, hexpand, accDaysInMonth]
      dsimp only
      rw [monthToDays_eq _ hmonth (Nat.le_succ_of_le hmonth')]
      omega

section construction

variable {year month day hour minute second millisecond : ℤ}

/-- Valid arguments are not changed by the casts, and pass the check. -/
theorem new_of_given (h : Given st [year, month, day, hour, minute, second, millisecond]) :
    new year month day hour minute second millisecond = .ok (ofWord (fromSystemTime st)) := by
  obtain ⟨hvalid, hfields⟩ := h
  have hyear := hvalid.year_ge
  have hyear' := hvalid.year_le
  have hmonth : 1 ≤ st.wMonth ∧ st.wMonth ≤ 12 := ⟨hvalid.date.month_pos, hvalid.date.month_le⟩
  have hday : 1 ≤ st.wDay ∧ st.wDay ≤ 31 :=
    ⟨hvalid.date.day_pos, hvalid.date.day_le.trans (daysInMonth_le _ _)⟩
  have hhour := hvalid.hour
  have hminute := hvalid.minute
  have hsecond := hvalid.second
  have hmilliseconds := hvalid.milliseconds
  simp only [SystemTime.fields, List.map_cons, List.map_nil, List.cons.injEq, and_true] at hfields
  obtain ⟨rfl, rfl, rfl, rfl, rfl, rfl, rfl⟩ := hfields
  have haccepted : ¬ Refused { st with wDayOfWeek := 0 } := by
    unfold Refused
    dsimp only
    omega
  rw [new, words, word_natCast (by omega), word_natCast (by omega), word_natCast (by omega),
    word_natCast (by omega), word_natCast (by omega), word_natCast (by omega),
    word_natCast (by omega), if_neg haccepted]
  rfl

/-- The construction is exact for the times up to the last second, and for other arguments exactly
where their words fail the check. -/
theorem constructs_iff (year month day hour minute second millisecond : ℤ) :
    Constructs [year, month, day, hour, minute, second, millisecond]
        (new year month day hour minute second millisecond) ↔
      (∃ st, Given st [year, month, day, hour, minute, second, millisecond] ∧
        st.fields ≤ lastSecond.fields) ∨
      (∀ st, ¬ Given st [year, month, day, hour, minute, second, millisecond]) ∧
        Refused (words year month day hour minute second millisecond) := by
  by_cases hgiven : ∃ st, Given st [year, month, day, hour, minute, second, millisecond]
  · obtain ⟨st, hst⟩ := hgiven
    have hsame {st' : SystemTime}
        (hst' : Given st' [year, month, day, hour, minute, second, millisecond]) :
        st'.fields = st.fields :=
      List.map_injective_iff.mpr Nat.cast_injective (hst'.2.trans hst.2.symm)
    have hshown : Constructs [year, month, day, hour, minute, second, millisecond]
        (new year month day hour minute second millisecond) ↔ st.fields ≤ lastSecond.fields := by
      rw [← shows_iff hst.1]
      constructor
      · intro hconstructs
        obtain ⟨d, hd, hshows⟩ := hconstructs.1 st hst
        cases (new_of_given hst).symm.trans hd
        exact hshows
      · intro hshows
        refine ⟨fun st' hst' ↦ ⟨_, new_of_given hst', (shows_iff hst'.1).mpr ?_⟩,
          fun hno ↦ absurd hst (hno st)⟩
        exact hsame hst' ▸ (shows_iff hst.1).mp hshows
    rw [hshown, or_iff_left fun hno ↦ hno.1 st hst]
    refine ⟨fun hle ↦ ⟨st, hst, hle⟩, fun hle ↦ ?_⟩
    obtain ⟨st', hst', hle⟩ := hle
    exact hsame hst' ▸ hle
  · have hno := not_exists.mp hgiven
    rw [or_iff_right fun ⟨st, hst, _⟩ ↦ hno st hst, new]
    constructor
    · intro hconstructs
      refine ⟨hno, ?_⟩
      by_contra haccepted
      cases (if_neg haccepted).symm.trans (hconstructs.2 hno)
    · intro hrefused
      rw [if_pos hrefused.2]
      exact ⟨fun st hst ↦ absurd hst (hno st), fun _ ↦ rfl⟩

/-- The 31st of April is accepted. -/
theorem not_constructs_april : ¬ Constructs [2001, 4, 31, 0, 0, 0, 0] (new 2001 4 31 0 0 0 0) := by
  intro hconstructs
  have hno : ∀ st, ¬ Given st [2001, 4, 31, 0, 0, 0, 0] := by
    rintro st ⟨hvalid, hfields⟩
    have hle : st.wDay ≤ Gregorian.daysInMonth st.wYear st.wMonth := hvalid.date.day_le
    simp only [SystemTime.fields, List.map_cons, List.cons.injEq] at hfields
    obtain ⟨-, hmonth, hday, -⟩ := hfields
    rw [show st.wMonth = 4 by omega, show st.wDay = 31 by omega] at hle
    exact absurd hle (by simp [Gregorian.daysInMonth])
  cases hconstructs.2 hno

end construction

end DateTime

end MicroFramework.Time
