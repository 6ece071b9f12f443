import Mathlib.Data.Nat.Bitwise
import MicroFramework.Support.Crc
import MicroFramework.Support.LittleEndian
import MicroFramework.Time.DateTime

/-!
# Sums, differences and conversions of `System.DateTime`

The operators work on the whole word, with the kind in its highest bit.
-/

namespace MicroFramework.Time.DateTime

open Support

inductive DateTimeKind
  | utc
  | local
  deriving DecidableEq

def utcMask : ℕ := 0x8000000000000000

variable (d e : DateTime) (val : BitVec 64) (minutes : BitVec 32)

def kind : DateTimeKind := if d.m_ticks &&& utcMask ≠ 0 then .utc else .local

def ofTicks (ticks : ℤ) : Except Thrown DateTime :=
  let d := ofWord ticks
  if d.ticks < minTicks ∨ d.ticks > maxTicks then .error .argumentOutOfRange else .ok d

def add : Except Thrown DateTime := ofTicks (d.m_ticks + val.toInt)

def addTicks : Except Thrown DateTime := ofTicks (d.m_ticks + val.toInt)

def plus : Except Thrown DateTime := ofTicks (d.m_ticks + val.toInt)

def subtract : Except Thrown DateTime := ofTicks (d.m_ticks - val.toInt)

def minus : Except Thrown DateTime := ofTicks (d.m_ticks - val.toInt)

def span : BitVec 64 := BitVec.ofInt 64 (d.ticks - e.ticks)

def compare : ℤ := if d.ticks > e.ticks then 1 else if d.ticks < e.ticks then -1 else 0

def equals : Prop := compare d e = 0

/-- `GetHashCode` of the heap block that holds the word. -/
def getHashCode : UInt32 := computeCRC (leBytes 8 d.m_ticks) 8 0

def timeZoneOffset : ℤ := minutes.toInt * 600000000

def toLocalTime : Except Thrown DateTime :=
  .ok (if d.m_ticks &&& utcMask ≠ 0 then ofWord (d.ticks + timeZoneOffset minutes) else d)

def toUniversalTime : Except Thrown DateTime :=
  .ok (if d.m_ticks &&& utcMask ≠ 0 then d
    else ofWord ↑((ofWord (d.m_ticks - timeZoneOffset minutes)).m_ticks ||| utcMask))

/-! ## The claimed behaviour -/

def InRange (ticks : ℤ) : Prop := minTicks ≤ ticks ∧ ticks ≤ maxTicks

/-- A value that is returned has the kind of `d` and these ticks. -/
def Exactly (ticks : ℤ) (result : Except Thrown DateTime) : Prop :=
  ∀ r, result = .ok r → r.kind = d.kind ∧ r.ticks = ticks

/-- The ticks that `d` has in the other kind of time. -/
def shifted : ℤ :=
  match d.kind with
  | .utc => d.ticks + timeZoneOffset minutes
  | .local => d.ticks - timeZoneOffset minutes

/-- A conversion gives a value of the other kind, or fails where its ticks are out of range. -/
def Converts (kind : DateTimeKind) (result : Except Thrown DateTime) : Prop :=
  (InRange (d.shifted minutes) →
      ∃ r, result = .ok r ∧ r.kind = kind ∧ r.ticks = d.shifted minutes) ∧
    (¬ InRange (d.shifted minutes) → ∃ thrown, result = .error thrown)

structure ExactArithmetic : Prop where
  sums : ∀ f ∈ [add, addTicks, plus], d.Exactly (d.ticks + val.toInt) (f d val)
  differences : ∀ f ∈ [subtract, minus], d.Exactly (d.ticks - val.toInt) (f d val)
  span : (d.span e).toInt = d.ticks - e.ticks
  greater : 0 < compare d e ↔ e.ticks < d.ticks
  less : compare d e < 0 ↔ d.ticks < e.ticks
  hash : equals d e → d.getHashCode = e.getHashCode
  universal : d.kind = .local → d.Converts minutes .utc (d.toUniversalTime minutes)
  back : d.kind = .local → InRange (d.shifted minutes) →
    (d.toUniversalTime minutes).bind (toLocalTime · minutes) = .ok d
  toLocal : d.kind = .utc → d.Converts minutes .local (d.toLocalTime minutes)

/-- The sum stays in the lower bits, or what is left of it there is out of range. -/
def Carried (ticks : ℤ) : Prop := 0 ≤ ticks ∧ ticks < 2 ^ 63 ∨ maxTicks < ticks % 2 ^ 63

/-! ## Words -/

variable {d e val minutes} {z : ℤ}

theorem and_utcMask {n : ℕ} (h : n < 2 ^ 64) : n &&& utcMask ≠ 0 ↔ 2 ^ 63 ≤ n := by
  rw [Nat.and_comm, show utcMask = 2 ^ 63 from rfl, Nat.two_pow_and,
    Nat.testBit_eq_decide_div_mod_eq]
  simpa using show n / 2 ^ 63 % 2 = 1 ↔ 2 ^ 63 ≤ n by omega

theorem kind_eq (d : DateTime) : d.kind = if 2 ^ 63 ≤ d.m_ticks then .utc else .local :=
  if_congr (and_utcMask d.isUInt64) rfl rfl

theorem ticks_eq (d : DateTime) : d.ticks = d.m_ticks % 2 ^ 63 := by
  rw [ticks, and_tickMask]
  rfl

theorem ticks_mem (d : DateTime) : 0 ≤ d.ticks ∧ d.ticks < 2 ^ 63 := by
  rw [ticks_eq]
  omega

/-- The word is the sum of the ticks and the bit of the kind. -/
theorem m_ticks_cases (d : DateTime) :
    d.kind = .utc ∧ (d.m_ticks : ℤ) = 2 ^ 63 + d.ticks ∨ d.kind = .local ∧ d.m_ticks = d.ticks := by
  have hword := d.isUInt64
  rw [ticks_eq, kind_eq]
  split_ifs with hbit
  · exact .inl ⟨rfl, by omega⟩
  · exact .inr ⟨rfl, by omega⟩

theorem m_ticks_ofWord (z : ℤ) : ((ofWord z).m_ticks : ℤ) = z % 2 ^ 64 := by
  unfold ofWord
  dsimp only
  omega

theorem ticks_ofWord_emod (z : ℤ) : (ofWord z).ticks = z % 2 ^ 63 := by
  rw [ticks_eq, m_ticks_ofWord]
  omega

theorem kind_ofWord (hpos : 0 ≤ z) (hlt : z < 2 ^ 63) : (ofWord z).kind = .local := by
  have hword := m_ticks_ofWord z
  rw [kind_eq, if_neg (by omega)]

theorem kind_ofWord_utc (hpos : 0 ≤ z) (hlt : z < 2 ^ 63) : (ofWord (2 ^ 63 + z)).kind = .utc := by
  have hword := m_ticks_ofWord (2 ^ 63 + z)
  rw [kind_eq, if_pos (by omega)]

theorem ofWord_m_ticks (d : DateTime) : ofWord d.m_ticks = d := by
  have hword := m_ticks_ofWord d.m_ticks
  have hlt := d.isUInt64
  ext
  omega

/-! ## Sums -/

/-- A sum is exact where no carry reaches the kind, or the check refuses what it leaves. -/
theorem exactly_ofTicks (d : DateTime) (t : ℤ) :
    d.Exactly (d.ticks + t) (ofTicks (d.m_ticks + t)) ↔ Carried (d.ticks + t) := by
  have hticks : (ofWord (d.m_ticks + t)).ticks = (d.ticks + t) % 2 ^ 63 := by
    rw [ticks_ofWord_emod]
    obtain ⟨-, hword⟩ | ⟨-, hword⟩ := m_ticks_cases d <;> omega
  have hmin : minTicks = 0 := rfl
  have hmem := ticks_mem (ofWord (d.m_ticks + t))
  constructor
  · intro hexact
    by_contra hno
    unfold Carried at hno
    have hreturned := hexact (ofWord (d.m_ticks + t)) (if_neg (by omega))
    omega
  · rintro (⟨hpos, hlt⟩ | hlarge) r hr
    · unfold ofTicks at hr
      dsimp only at hr
      split_ifs at hr
      cases hr
      refine ⟨?_, by omega⟩
      obtain ⟨hkind, hword⟩ | ⟨hkind, hword⟩ := m_ticks_cases d
      · rw [hkind, hword, add_assoc, kind_ofWord_utc hpos hlt]
      · rw [hkind, hword, kind_ofWord hpos hlt]
    · cases (if_pos (by omega)).symm.trans hr

/-! ## Comparisons and hashes -/

theorem toInt_span (d e : DateTime) : (d.span e).toInt = d.ticks - e.ticks := by
  have hd := ticks_mem d
  have he := ticks_mem e
  rw [span, BitVec.toInt_ofInt, Int.bmod_eq_of_le] <;> omega

theorem compare_pos : 0 < compare d e ↔ e.ticks < d.ticks := by
  unfold compare
  split_ifs <;> omega

theorem compare_neg : compare d e < 0 ↔ d.ticks < e.ticks := by
  unfold compare
  split_ifs <;> omega

theorem equals_iff : equals d e ↔ d.ticks = e.ticks := by
  have hgreater := @compare_pos d e
  have hless := @compare_neg d e
  unfold equals
  omega

theorem leBytes_congr {width a b : ℕ} (h : a % 256 ^ width = b % 256 ^ width) :
    leBytes width a = leBytes width b := by
  induction width generalizing a b with
  | zero => rfl
  | succ width ih =>
    rw [Nat.pow_succ', Nat.mod_mul, Nat.mod_mul] at h
    have hbyte : UInt8.ofNat a = UInt8.ofNat b := by
      apply UInt8.toNat_inj.mp
      rw [UInt8.toNat_ofNat', UInt8.toNat_ofNat']
      omega
    have hrest : a / 256 % 256 ^ width = b / 256 % 256 ^ width := by omega
    rw [leBytes, leBytes, hbyte, ih hrest]

theorem leBytes_succ (width a : ℕ) :
    leBytes (width + 1) a = leBytes width a ++ [UInt8.ofNat (a / 256 ^ width)] := by
  induction width generalizing a with
  | zero => simp [leBytes]
  | succ width ih =>
    rw [leBytes, ih, leBytes, Nat.pow_succ', Nat.div_div_eq_div_mul]
    rfl

/-- Equal values of different kinds have different hash codes. -/
theorem getHashCode_eq_iff (h : d.ticks = e.ticks) :
    d.getHashCode = e.getHashCode ↔ d.kind = e.kind := by
  have hd := m_ticks_cases d
  have he := m_ticks_cases e
  constructor
  · intro hhash
    have hlow : d.m_ticks % 256 ^ 7 = e.m_ticks % 256 ^ 7 := by omega
    have htake (a : ℕ) (b : UInt8) : computeCRC (leBytes 7 a ++ [b]) 8 0 =
        crcByte ((leBytes 7 a).foldl crcByte 0) b := by
      rw [computeCRC, List.take_of_length_le (by simp), List.foldl_append]
      rfl
    rw [getHashCode, getHashCode, leBytes_succ 7, leBytes_succ 7, htake, htake,
      leBytes_congr hlow] at hhash
    have hbyte := congrArg UInt8.toNat (crcByte_byte_inj hhash)
    rw [UInt8.toNat_ofNat', UInt8.toNat_ofNat'] at hbyte
    rw [kind_eq, kind_eq]
    exact if_congr (by omega) rfl rfl
  · intro hkind
    have hword : d.m_ticks = e.m_ticks := by
      rw [hkind] at hd
      obtain ⟨hd, hd'⟩ | ⟨hd, hd'⟩ := hd <;> obtain ⟨he, he'⟩ | ⟨he, he'⟩ := he <;>
        first | omega | cases hd.symm.trans he
    rw [getHashCode, hword, getHashCode]

/-! ## Conversions -/

theorem toLocalTime_utc (h : d.kind = .utc) :
    d.toLocalTime minutes = .ok (ofWord (d.ticks + timeZoneOffset minutes)) := by
  have hbit : d.m_ticks &&& utcMask ≠ 0 :=
    fun hzero ↦ absurd ((if_neg (not_not.mpr hzero)).symm.trans h) nofun
  rw [toLocalTime, if_pos hbit]

theorem toUniversalTime_local (h : d.kind = .local) (hrange : InRange (d.shifted minutes)) :
    d.toUniversalTime minutes = .ok (ofWord (2 ^ 63 + d.shifted minutes)) := by
  have hbit : ¬ d.m_ticks &&& utcMask ≠ 0 := fun hbit ↦ absurd ((if_pos hbit).symm.trans h) nofun
  obtain ⟨hkind, -⟩ | ⟨-, hword⟩ := m_ticks_cases d
  · exact absurd (hkind.symm.trans h) nofun
  · have hshifted : d.shifted minutes = d.m_ticks - timeZoneOffset minutes := by
      rw [shifted, h, hword]
    obtain ⟨hpos, hle⟩ := hrange
    have hmin : minTicks = 0 := rfl
    have hmax : maxTicks < 2 ^ 63 := by decide
    have hlocal := m_ticks_ofWord (d.shifted minutes)
    have hlt : (ofWord (d.shifted minutes)).m_ticks < 2 ^ 63 := by omega
    rw [toUniversalTime, if_neg hbit, ← hshifted, Nat.or_comm]
    have hor := (@Nat.two_pow_add_eq_or_of_lt 63 _ hlt 1).symm
    rw [mul_one] at hor
    rw [show utcMask = 2 ^ 63 from rfl, hor]
    congr 2
    push_cast
    omega

/-- A conversion is right where the ticks stay in range, and never fails elsewhere. -/
theorem conversions_iff : (d.kind = .local → d.Converts minutes .utc (d.toUniversalTime minutes)) ∧
    (d.kind = .utc → d.Converts minutes .local (d.toLocalTime minutes)) ↔
      InRange (d.shifted minutes) := by
  constructor
  · rintro ⟨huniversal, hlocal⟩
    by_contra hno
    obtain ⟨hkind, -⟩ | ⟨hkind, -⟩ := m_ticks_cases d
    · cases ((hlocal hkind).2 hno).choose_spec
    · cases ((huniversal hkind).2 hno).choose_spec
  · intro hrange
    have hmax : maxTicks < 2 ^ 63 := by decide
    have hlt := hrange.2.trans_lt hmax
    constructor
    · intro hkind
      refine ⟨fun _ ↦ ⟨_, toUniversalTime_local hkind hrange, kind_ofWord_utc hrange.1 hlt, ?_⟩,
        fun hno ↦ absurd hrange hno⟩
      rw [ticks_ofWord_emod, ← Int.emod_eq_of_lt hrange.1 hlt]
      omega
    · intro hkind
      have hshifted : d.shifted minutes = d.ticks + timeZoneOffset minutes := by
        rw [shifted, hkind]
      rw [toLocalTime_utc hkind, ← hshifted]
      exact ⟨fun _ ↦ ⟨_, rfl, kind_ofWord hrange.1 hlt, ticks_ofWord hrange.1 hlt⟩,
        fun hno ↦ absurd hrange hno⟩

theorem toLocalTime_toUniversalTime (h : d.kind = .local) (hrange : InRange (d.shifted minutes)) :
    (d.toUniversalTime minutes).bind (toLocalTime · minutes) = .ok d := by
  have hmax : maxTicks < 2 ^ 63 := by decide
  have hlt := hrange.2.trans_lt hmax
  have hticks : (ofWord (2 ^ 63 + d.shifted minutes)).ticks + timeZoneOffset minutes = d.ticks := by
    have hshifted : d.shifted minutes = d.ticks - timeZoneOffset minutes := by rw [shifted, h]
    have hpos : 0 ≤ d.shifted minutes := hrange.1
    rw [ticks_ofWord_emod]
    omega
  rw [toUniversalTime_local h hrange]
  change toLocalTime _ minutes = _
  rw [toLocalTime_utc (kind_ofWord_utc hrange.1 hlt), hticks]
  obtain ⟨hkind, -⟩ | ⟨-, hword⟩ := m_ticks_cases d
  · exact absurd (hkind.symm.trans h) nofun
  · rw [← hword, ofWord_m_ticks]

/-! ## All together -/

/-- The arithmetic is exact where no carry changes a kind unnoticed, values of different kinds are
not compared as equal, and the conversion stays in range. -/
theorem exactArithmetic_iff (d e : DateTime) (val : BitVec 64) (minutes : BitVec 32) :
    ExactArithmetic d e val minutes ↔
      Carried (d.ticks + val.toInt) ∧ Carried (d.ticks - val.toInt) ∧
        (d.ticks = e.ticks → d.kind = e.kind) ∧ InRange (d.shifted minutes) := by
  have hsum := exactly_ofTicks d val.toInt
  have hdifference := exactly_ofTicks d (-val.toInt)
  rw [← sub_eq_add_neg, ← sub_eq_add_neg] at hdifference
  constructor
  · intro h
    exact ⟨hsum.mp (h.sums add (by simp)), hdifference.mp (h.differences subtract (by simp)),
      fun hticks ↦ (getHashCode_eq_iff hticks).mp (h.hash (equals_iff.mpr hticks)),
      conversions_iff.mp ⟨h.universal, h.toLocal⟩⟩
  · rintro ⟨hadd, hsubtract, hkind, hrange⟩
    obtain ⟨huniversal, hlocal⟩ := conversions_iff.mpr hrange
    refine ⟨?_, ?_, toInt_span d e, compare_pos, compare_neg, ?_, huniversal,
      fun h hrange ↦ toLocalTime_toUniversalTime h hrange, hlocal⟩
    · simp only [List.mem_cons, List.not_mem_nil, or_false]
      rintro f (rfl | rfl | rfl) <;> exact hsum.mpr hadd
    · simp only [List.mem_cons, List.not_mem_nil, or_false]
      rintro f (rfl | rfl) <;> exact hdifference.mpr hsubtract
    · intro hequals
      have hticks := equals_iff.mp hequals
      exact (getHashCode_eq_iff hticks).mpr (hkind hticks)

/-- The largest span takes the first instant to another kind. -/
theorem not_exactArithmetic_largest :
    ¬ ExactArithmetic (ofWord 0) (ofWord 0) (BitVec.ofInt 64 (2 ^ 63 - 1)) 0 := by
  intro h
  have hresult := h.differences subtract (by simp) (ofWord (2 ^ 63 + 1)) (by decide)
  exact absurd hresult.1 (by decide)

end MicroFramework.Time.DateTime
