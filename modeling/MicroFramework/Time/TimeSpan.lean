import Mathlib.Data.UInt
import Mathlib.Tactic.Linarith

/-!
# The values of `System.TimeSpan`

Construction from days, hours, minutes, seconds and milliseconds, and the text of a number of
ticks.
-/

namespace MicroFramework.Time.TimeSpan

def ticksPerSecond : ℕ := 10000000

def oneMinute : ℕ := 60

def oneHour : ℕ := 3600

def oneDay : ℕ := 86400

/-- `ConstructTimeSpan`, where the hours and the minutes are multiplied as `int`. -/
def constructTimeSpan (days hours minutes seconds msec : BitVec 32) : BitVec 64 :=
  let val := days.signExtend 64 * 86400 + (hours * 3600).signExtend 64 +
    (minutes * 60).signExtend 64 + (seconds * 1).signExtend 64
  let val := val * 1000
  let val := val + msec.signExtend 64
  val * 10000

/-- `%02d` and `%07d` -/
def padded (width v : ℕ) : List Char :=
  List.replicate (width - (Nat.toDigits 10 v).length) '0' ++ Nat.toDigits 10 v

/-- What is printed; the days only where there are some, and the ticks where they are not zero. -/
structure Parts where
  negative : Bool
  days : Option ℕ
  hours : ℕ
  minutes : ℕ
  seconds : ℕ
  rest : ℕ
  deriving DecidableEq

/-- The values that `TimeDriver::TimeSpanToString` prints; its casts change none of them. -/
def parts (ticks : ℤ) : Parts :=
  let ticksAbs := ticks.natAbs / ticksPerSecond
  let below := if ticksAbs > oneDay then ticksAbs % oneDay else ticksAbs
  { negative := ticks < 0
    days := if ticksAbs > oneDay then some (ticksAbs / oneDay) else none
    hours := below / oneHour
    minutes := below % oneHour / oneMinute
    seconds := below % oneHour % oneMinute
    rest := ticks.natAbs % ticksPerSecond }

namespace Parts

variable (p : Parts)

def head : List Char :=
  match p.days with
  | none => padded 2 p.hours
  | some days => Nat.toDigits 10 days ++ '.' :: padded 2 p.hours

def tail : List Char :=
  padded 2 p.seconds ++ if p.rest ≠ 0 then '.' :: padded 7 p.rest else []

/-- The calls of `SafeSprintf` -/
def text : List Char :=
  (if p.negative then ['-'] else []) ++ (p.head ++ ':' :: (padded 2 p.minutes ++ ':' :: p.tail))

def value : ℤ :=
  (if p.negative then -1 else 1) *
    ((((p.days.getD 0 * 24 + p.hours) * 60 + p.minutes) * 60 + p.seconds) * ticksPerSecond + p.rest)

/-- The form `[-][d.]hh:mm:ss[.fffffff]` -/
structure Proper : Prop where
  days : p.days ≠ some 0
  hours : p.hours < 24
  minutes : p.minutes < 60
  seconds : p.seconds < 60
  rest : p.rest < ticksPerSecond

end Parts

/-- The number of ticks of the arguments. -/
def total (days hours minutes seconds msec : BitVec 32) : ℤ :=
  ((((days.toInt * 24 + hours.toInt) * 60 + minutes.toInt) * 60 + seconds.toInt) * 1000 +
    msec.toInt) * 10000

def Fits (z : ℤ) : Prop := -2 ^ 63 ≤ z ∧ z < 2 ^ 63

/-- The claimed behaviour of the construction and of the text. -/
structure ExactTimeSpan (days hours minutes seconds msec : BitVec 32) (ticks : BitVec 64) :
    Prop where
  constructed : Fits (total days hours minutes seconds msec) →
    (constructTimeSpan days hours minutes seconds msec).toInt =
      total days hours minutes seconds msec
  written : ∃ p : Parts, p.Proper ∧ p.negative = decide (ticks.toInt < 0) ∧
    p.value = ticks.toInt ∧ (parts ticks.toInt).text = p.text
  injective : ∀ other : BitVec 64,
    (parts other.toInt).text = (parts ticks.toInt).text → other = ticks

/-- How often a product wraps around. -/
def wraps (z : ℤ) : ℤ := (z + 2 ^ 31) / 2 ^ 32

/-! ## Texts -/

theorem ofDigitChars_padded (width v : ℕ) : Nat.ofDigitChars 10 (padded width v) 0 = v := by
  rw [padded, Nat.ofDigitChars_append, Nat.ofDigitChars_replicate_zero, Nat.mul_zero,
    Nat.ofDigitChars_ten_toDigits]

theorem padded_injective {width v v' : ℕ} (h : padded width v = padded width v') : v = v' := by
  rw [← ofDigitChars_padded width v, h, ofDigitChars_padded]

theorem notMem_toDigits {c : Char} (hc : c.isDigit = false) (v : ℕ) : c ∉ Nat.toDigits 10 v :=
  fun hmem ↦ absurd (Nat.isDigit_of_mem_toDigits (by decide) (by decide) hmem) (by simp [hc])

theorem notMem_padded {c : Char} (hc : c.isDigit = false) (width v : ℕ) : c ∉ padded width v := by
  intro hmem
  obtain hzero | hdigit := List.mem_append.mp hmem
  · rw [(List.mem_replicate.mp hzero).2] at hc
    cases hc
  · exact notMem_toDigits hc v hdigit

/-- The first occurrence of a character divides a text in one way. -/
theorem append_cons_inj {c : Char} {a a' b b' : List Char} (ha : c ∉ a) (ha' : c ∉ a')
    (h : a ++ c :: b = a' ++ c :: b') : a = a' ∧ b = b' := by
  induction a generalizing a' with
  | nil =>
    cases a' with
    | nil => exact ⟨rfl, (List.cons.inj h).2⟩
    | cons x l => exact absurd (List.cons.inj h).1 (List.ne_of_not_mem_cons ha')
  | cons x l ih =>
    cases a' with
    | nil => exact absurd (List.cons.inj h).1.symm (List.ne_of_not_mem_cons ha)
    | cons x' l' =>
      obtain ⟨rfl, hrest⟩ := List.cons.inj h
      obtain ⟨rfl, hb⟩ := ih (List.not_mem_of_not_mem_cons ha)
        (List.not_mem_of_not_mem_cons ha') hrest
      exact ⟨rfl, hb⟩

namespace Parts

variable {p p' : Parts}

theorem notMem_head {c : Char} (hc : c.isDigit = false) (hdot : c ≠ '.') (p : Parts) :
    c ∉ p.head := by
  unfold head
  cases p.days with
  | none => exact notMem_padded hc _ _
  | some days => simp [notMem_toDigits hc, notMem_padded hc, hdot]

theorem notMem_tail {c : Char} (hc : c.isDigit = false) (hdot : c ≠ '.') (p : Parts) :
    c ∉ p.tail := by
  unfold tail
  split_ifs <;> simp [notMem_padded hc, hdot]

theorem head_injective (h : p.head = p'.head) : p.days = p'.days ∧ p.hours = p'.hours := by
  have hdot := notMem_padded (c := '.') rfl 2
  unfold head at h
  cases hdays : p.days with
  | none =>
    cases hdays' : p'.days with
    | none =>
      simp only [hdays, hdays'] at h
      exact ⟨rfl, padded_injective h⟩
    | some days' =>
      simp only [hdays, hdays'] at h
      exact absurd (h ▸ by simp) (hdot p.hours)
  | some days =>
    cases hdays' : p'.days with
    | none =>
      simp only [hdays, hdays'] at h
      exact absurd (h ▸ by simp) (hdot p'.hours)
    | some days' =>
      simp only [hdays, hdays'] at h
      obtain ⟨hdigits, hhours⟩ :=
        append_cons_inj (notMem_toDigits rfl days) (notMem_toDigits rfl days') h
      have hvalue := congrArg (Nat.ofDigitChars 10 · 0) hdigits
      simp only [Nat.ofDigitChars_ten_toDigits] at hvalue
      exact ⟨congrArg some hvalue, padded_injective hhours⟩

theorem tail_injective (h : p.tail = p'.tail) : p.seconds = p'.seconds ∧ p.rest = p'.rest := by
  have hdot := notMem_padded (c := '.') rfl
  unfold tail at h
  split_ifs at h with hrest hrest' hrest'
  · obtain ⟨hseconds, hfraction⟩ := append_cons_inj (hdot _ _) (hdot _ _) h
    exact ⟨padded_injective hseconds, padded_injective hfraction⟩
  · rw [List.append_nil] at h
    exact absurd (h ▸ by simp) (hdot 2 p'.seconds)
  · rw [List.append_nil] at h
    exact absurd (h ▸ by simp) (hdot 2 p.seconds)
  · rw [List.append_nil, List.append_nil] at h
    exact ⟨padded_injective h, (not_not.mp hrest).trans (not_not.mp hrest').symm⟩

theorem text_injective (h : p.text = p'.text) : p = p' := by
  have hsign (p : Parts) : '-' ∉ p.head ++ ':' :: (padded 2 p.minutes ++ ':' :: p.tail) := by
    simp [notMem_head, notMem_tail, notMem_padded]
  have hbody : p.negative = p'.negative ∧ p.head ++ ':' :: (padded 2 p.minutes ++ ':' :: p.tail) =
      p'.head ++ ':' :: (padded 2 p'.minutes ++ ':' :: p'.tail) := by
    unfold text at h
    cases hnegative : p.negative <;> cases hnegative' : p'.negative
    · simp only [hnegative, hnegative'] at h
      exact ⟨rfl, h⟩
    · simp only [hnegative, hnegative'] at h
      exact absurd (h ▸ List.mem_cons_self) (hsign p)
    · simp only [hnegative, hnegative'] at h
      exact absurd (h ▸ List.mem_cons_self) (hsign p')
    · simp only [hnegative, hnegative'] at h
      exact ⟨rfl, (List.cons.inj h).2⟩
  obtain ⟨hnegative, hbody⟩ := hbody
  have hcolon (p : Parts) : ':' ∉ p.head := notMem_head rfl (by decide) p
  obtain ⟨hhead, hrest⟩ := append_cons_inj (hcolon p) (hcolon p') hbody
  obtain ⟨hminutes, htail⟩ :=
    append_cons_inj (notMem_padded rfl _ _) (notMem_padded rfl _ _) hrest
  obtain ⟨hdays, hhours⟩ := head_injective hhead
  obtain ⟨hseconds, hfraction⟩ := tail_injective htail
  cases p
  cases p'
  exact Parts.mk.injEq .. ▸ ⟨hnegative, hdays, hhours, padded_injective hminutes, hseconds, hfraction⟩

end Parts

theorem value_parts (ticks : ℤ) : (parts ticks).value = ticks := by
  unfold parts Parts.value ticksPerSecond oneDay oneHour oneMinute
  simp only [decide_eq_true_eq]
  split_ifs <;> simp only [Option.getD_some, Option.getD_none] <;> omega

/-- The parts have their form, but for the seconds of exactly one day. -/
theorem proper_parts_iff (ticks : ℤ) :
    (parts ticks).Proper ↔ ticks.natAbs / ticksPerSecond ≠ oneDay := by
  constructor
  · intro hproper hday
    have hhours := hproper.hours
    simp only [parts, hday] at hhours
    exact absurd hhours (by decide)
  · intro hday
    unfold parts
    generalize ticks.natAbs / ticksPerSecond = whole at hday
    unfold oneDay at hday ⊢
    dsimp only
    split_ifs with hlarge
    · refine ⟨?_, ?_, ?_, ?_, Nat.mod_lt _ (by decide)⟩
      case refine_1 => simpa using show whole / 86400 ≠ 0 by omega
      all_goals
        unfold oneHour
        try unfold oneMinute
        dsimp only
        omega
    · refine ⟨nofun, ?_, ?_, ?_, Nat.mod_lt _ (by decide)⟩
      all_goals
        unfold oneHour
        try unfold oneMinute
        dsimp only
        omega

/-! ## Construction -/

theorem toInt_product (x : BitVec 32) {n : BitVec 32} :
    (x * n).toInt = x.toInt * n.toInt - 2 ^ 32 * wraps (x.toInt * n.toInt) := by
  rw [BitVec.toInt_mul, Int.bmod_def, wraps]
  omega

/-- The sum is short of the total by what wrapped around. -/
theorem constructTimeSpan_eq (days hours minutes seconds msec : BitVec 32) :
    constructTimeSpan days hours minutes seconds msec = BitVec.ofInt 64
      (total days hours minutes seconds msec -
        10000000 * (2 ^ 32 * (wraps (hours.toInt * 3600) + wraps (minutes.toInt * 60)))) := by
  have hextend (x : BitVec 32) : x.signExtend 64 = BitVec.ofInt 64 x.toInt := rfl
  have hhours : (hours * 3600).toInt =
      hours.toInt * 3600 - 2 ^ 32 * wraps (hours.toInt * 3600) := toInt_product hours
  have hminutes : (minutes * 60).toInt =
      minutes.toInt * 60 - 2 ^ 32 * wraps (minutes.toInt * 60) := toInt_product minutes
  have hseconds : seconds * 1 = seconds := BitVec.mul_one seconds
  unfold constructTimeSpan
  simp only [hextend, hhours, hminutes, hseconds,
    show (86400 : BitVec 64) = BitVec.ofInt 64 86400 from rfl,
    show (1000 : BitVec 64) = BitVec.ofInt 64 1000 from rfl,
    show (10000 : BitVec 64) = BitVec.ofInt 64 10000 from rfl, ← BitVec.ofInt_mul,
    ← BitVec.ofInt_add]
  congr 1
  unfold total
  omega

theorem constructed_iff {days hours minutes seconds msec : BitVec 32}
    (hfits : Fits (total days hours minutes seconds msec)) :
    (constructTimeSpan days hours minutes seconds msec).toInt =
        total days hours minutes seconds msec ↔
      wraps (hours.toInt * 3600) + wraps (minutes.toInt * 60) = 0 := by
  obtain ⟨hlo, hhi⟩ := hfits
  have hhours := BitVec.toInt_lt (x := hours)
  have hhours' := BitVec.le_toInt (x := hours)
  have hminutes := BitVec.toInt_lt (x := minutes)
  have hminutes' := BitVec.le_toInt (x := minutes)
  have hfew : -2000 < wraps (hours.toInt * 3600) + wraps (minutes.toInt * 60) ∧
      wraps (hours.toInt * 3600) + wraps (minutes.toInt * 60) < 2000 := by
    unfold wraps
    omega
  rw [constructTimeSpan_eq, BitVec.toInt_ofInt]
  generalize total days hours minutes seconds msec = z at *
  generalize wraps (hours.toInt * 3600) + wraps (minutes.toInt * 60) = k at *
  constructor
  · intro heq
    obtain ⟨n, hn⟩ := Int.dvd_self_sub_bmod (x := z - 10000000 * (2 ^ 32 * k)) (m := 2 ^ 64)
    rw [heq] at hn
    push_cast at hn
    -- ten million is 2 ^ 7 times an odd number
    have hmul : (2 ^ 25 : ℤ) ∣ k * 78125 := ⟨-n, by linarith⟩
    have hdvd : (2 ^ 25 : ℤ) ∣ k := Int.dvd_of_dvd_mul_left_of_gcd_one hmul (by decide)
    exact Int.eq_zero_of_abs_lt_dvd hdvd (abs_lt.mpr ⟨by linarith, by linarith⟩)
  · rintro rfl
    rw [Int.bmod_eq_of_le] <;> omega

/-! ## Both -/

/-- The construction is exact where what wrapped around cancels out, and the text has its form
but for the seconds of exactly one day; the text tells the ticks in any case. -/
theorem exactTimeSpan_iff (days hours minutes seconds msec : BitVec 32) (ticks : BitVec 64) :
    ExactTimeSpan days hours minutes seconds msec ticks ↔
      (Fits (total days hours minutes seconds msec) →
        wraps (hours.toInt * 3600) + wraps (minutes.toInt * 60) = 0) ∧
      ticks.toInt.natAbs / ticksPerSecond ≠ oneDay := by
  rw [← proper_parts_iff]
  constructor
  · intro h
    refine ⟨fun hfits ↦ (constructed_iff hfits).mp (h.constructed hfits), ?_⟩
    obtain ⟨p, hproper, -, -, htext⟩ := h.written
    exact Parts.text_injective htext ▸ hproper
  · rintro ⟨hwraps, hproper⟩
    refine ⟨fun hfits ↦ (constructed_iff hfits).mpr (hwraps hfits),
      ⟨_, hproper, rfl, value_parts _, rfl⟩, ?_⟩
    intro other htext
    apply BitVec.eq_of_toInt_eq
    rw [← value_parts other.toInt, Parts.text_injective htext, value_parts]

/-- The text of one day. -/
theorem not_exactTimeSpan_day : ¬ ExactTimeSpan 0 0 0 0 0 864000000000 := by
  intro h
  obtain ⟨p, hproper, -, -, htext⟩ := h.written
  have hp := Parts.text_injective htext
  subst hp
  exact absurd hproper.hours (by decide)

end MicroFramework.Time.TimeSpan
