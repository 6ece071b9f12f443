import Mathlib.Data.Nat.Log
import MicroFramework.Graphics.Lzw

/-!
# The meaning of LZW data

What a sequence of bytes stands for: codes of growing width, the lowest bits first, that name
strings of a dictionary which grows by one string with each code.
-/

namespace MicroFramework.Graphics.Lzw

open Support

/-- How the data ends. -/
inductive Status where
  | ended
  | error
  | needInput
  deriving DecidableEq, Repr

/-- The strings of the codes behind the end code, and the string of the last code. -/
structure Dictionary where
  strings : List (List UInt8)
  prev : Option (List UInt8)
  deriving DecidableEq, Repr

namespace Dictionary

/-- The dictionary at the start and after a clear code. -/
def empty : Dictionary where
  strings := []
  prev := none

/-- The first code without a string. -/
def nextCode (bcodeSize : ℕ) (r : Dictionary) : ℕ :=
  2 ^ bcodeSize + 2 + r.strings.length

/-- The width of a code: the next code has to fit, up to 12 bits. -/
def width (bcodeSize : ℕ) (r : Dictionary) : ℕ :=
  min 12 (Nat.log 2 (r.nextCode bcodeSize) + 1)

def lookup (bcodeSize : ℕ) (r : Dictionary) (code : ℕ) : Option (List UInt8) :=
  if code < 2 ^ bcodeSize then some [UInt8.ofNat code]
  else if code < 2 ^ bcodeSize + 2 then none
  else r.strings[code - (2 ^ bcodeSize + 2)]?

/-- The dictionary after a code with the string `s`, with the string `new` added if it is not
full. -/
def add (bcodeSize : ℕ) (r : Dictionary) (new s : List UInt8) : Dictionary where
  strings := if r.nextCode bcodeSize < 4096 then r.strings ++ [new] else r.strings
  prev := some s

/-- What a code says: the data stops, or some bytes are put out and the dictionary changes. -/
inductive Reply where
  | stop (status : Status)
  | go (out : List UInt8) (r : Dictionary)

/-- The meaning of one code.  A code that the dictionary is about to get stands for the last string
with its own first byte behind it. -/
def step (bcodeSize : ℕ) (r : Dictionary) (code : ℕ) : Reply :=
  if code = 2 ^ bcodeSize then .go [] empty
  else if code = 2 ^ bcodeSize + 1 then .stop .ended
  else
    match r.prev, r.lookup bcodeSize code with
    | none, some s => .go s { r with prev := some s }
    | some p, some s => .go s (r.add bcodeSize (p ++ s.take 1) s)
    | some p, none =>
      if code = r.nextCode bcodeSize then
        .go (p ++ p.take 1) (r.add bcodeSize (p ++ p.take 1) (p ++ p.take 1))
      else .stop .error
    | none, none => .stop .error

theorem width_pos (bcodeSize : ℕ) (r : Dictionary) : 0 < r.width bcodeSize :=
  lt_min (by decide) (Nat.succ_pos _)

/-- The meaning of `count` bits with the given value, the lowest first. -/
def decodeFrom (bcodeSize : ℕ) (r : Dictionary) (value count : ℕ) : List UInt8 × Status :=
  if count < r.width bcodeSize then ([], .needInput)
  else
    match r.step bcodeSize (value % 2 ^ r.width bcodeSize) with
    | .stop status => ([], status)
    | .go out r' =>
      let later := decodeFrom bcodeSize r' (value / 2 ^ r.width bcodeSize)
        (count - r.width bcodeSize)
      (out ++ later.1, later.2)
termination_by count
decreasing_by
  have := r.width_pos bcodeSize
  omega

/-- From one dictionary and rest of the data some codes lead to another, with this output. -/
inductive Reads (bcodeSize : ℕ) (r₀ : Dictionary) (value₀ count₀ : ℕ) :
    List UInt8 → Dictionary → ℕ → ℕ → Prop
  | refl : Reads bcodeSize r₀ value₀ count₀ [] r₀ value₀ count₀
  | tail {out more : List UInt8} {r r' : Dictionary} {value count : ℕ} :
      Reads bcodeSize r₀ value₀ count₀ out r value count → r.width bcodeSize ≤ count →
        r.step bcodeSize (value % 2 ^ r.width bcodeSize) = .go more r' →
          Reads bcodeSize r₀ value₀ count₀ (out ++ more) r' (value / 2 ^ r.width bcodeSize)
            (count - r.width bcodeSize)

variable {bcodeSize : ℕ} {r r₀ r' : Dictionary} {value count value₀ count₀ : ℕ} {out : List UInt8}

theorem decodeFrom_of_lt (h : count < r.width bcodeSize) :
    decodeFrom bcodeSize r value count = ([], .needInput) := by
  rw [decodeFrom, if_pos h]

theorem decodeFrom_of_stop {status : Status} (h : r.width bcodeSize ≤ count)
    (hstep : r.step bcodeSize (value % 2 ^ r.width bcodeSize) = .stop status) :
    decodeFrom bcodeSize r value count = ([], status) := by
  rw [decodeFrom, if_neg (Nat.not_lt.mpr h), hstep]

theorem decodeFrom_of_go (h : r.width bcodeSize ≤ count)
    (hstep : r.step bcodeSize (value % 2 ^ r.width bcodeSize) = .go out r') :
    decodeFrom bcodeSize r value count =
      (out ++ (decodeFrom bcodeSize r' (value / 2 ^ r.width bcodeSize)
        (count - r.width bcodeSize)).1,
      (decodeFrom bcodeSize r' (value / 2 ^ r.width bcodeSize) (count - r.width bcodeSize)).2) := by
  rw [decodeFrom, if_neg (Nat.not_lt.mpr h), hstep]

theorem Reads.decodeFrom_eq (h : Reads bcodeSize r₀ value₀ count₀ out r value count) :
    decodeFrom bcodeSize r₀ value₀ count₀ =
      (out ++ (decodeFrom bcodeSize r value count).1, (decodeFrom bcodeSize r value count).2) := by
  induction h with
  | refl => rfl
  | tail _ hwidth hstep ih => rw [ih, decodeFrom_of_go hwidth hstep, List.append_assoc]

end Dictionary

/-- The bytes that a sequence of bytes decodes to, and how the data ends. -/
def decode (bcodeSize : ℕ) (bytes : List UInt8) : List UInt8 × Status :=
  Dictionary.empty.decodeFrom bcodeSize (leValue bytes) (8 * bytes.length)

/-- The codes of the data lead to this dictionary, with this output and this rest. -/
def Reaches (bcodeSize : ℕ) (bytes : List UInt8) : List UInt8 → Dictionary → ℕ → ℕ → Prop :=
  Dictionary.Reads bcodeSize Dictionary.empty (leValue bytes) (8 * bytes.length)

/-- The data has, where no code has been read since the start or the last clear code, the code that
the dictionary gets next. -/
def Stray (bcodeSize : ℕ) (bytes : List UInt8) : Prop :=
  ∃ out r value count, Reaches bcodeSize bytes out r value count ∧ r.prev = none ∧
    r.width bcodeSize ≤ count ∧ value % 2 ^ r.width bcodeSize = r.nextCode bcodeSize

def StartsClear (bcodeSize : ℕ) (bytes : List UInt8) : Prop :=
  bcodeSize + 1 ≤ 8 * bytes.length → leValue bytes % 2 ^ (bcodeSize + 1) = 2 ^ bcodeSize

/-!
## The decompressor follows the meaning of the data

The token table holds the dictionary, the saved state holds the last string, and the bits in hand
and in the input block are the rest of the data.  A turn of the loop takes one code.
-/

/-! ### The width of the codes -/

/-- The width grows where the next code becomes a power of two. -/
theorem width_succ {n : ℕ} (hpos : 0 < n) (hn : n < 4096) :
    min 12 (Nat.log 2 (n + 1) + 1) =
      if n &&& (n + 1) = 0 ∧ n < 4095 then min 12 (Nat.log 2 n + 1) + 1
      else min 12 (Nat.log 2 n + 1) := by
  have hpower : n &&& (n + 1) = 0 ↔ (n + 1).isPowerOfTwo := by
    rw [Nat.and_comm]
    exact Nat.and_sub_one_eq_zero_iff_isPowerOfTwo n.succ_ne_zero
  have hlow : Nat.log 2 n < 12 := Nat.log_lt_of_lt_pow hpos.ne' hn
  by_cases h : n &&& (n + 1) = 0
  · obtain ⟨k, hk⟩ := hpower.mp h
    have hlog : Nat.log 2 (n + 1) = k := by rw [hk, Nat.log_pow (by decide)]
    have hkpos : 0 < k := by
      rcases Nat.eq_zero_or_pos k with rfl | hk'
      · omega
      · exact hk'
    obtain ⟨j, rfl⟩ := Nat.exists_eq_add_of_lt hkpos
    rw [Nat.zero_add] at hk hlog
    have hlog' : Nat.log 2 n = j := by
      apply Nat.log_eq_of_pow_le_of_lt_pow
      · have : 2 ^ j < 2 ^ (j + 1) := Nat.pow_lt_pow_right (by decide) j.lt_succ_self
        omega
      · omega
    rw [hlog, hlog']
    rw [hlog'] at hlow
    by_cases hlast : n < 4095
    · have hj : j + 1 < 12 := by
        by_contra hnot
        have : 2 ^ 12 ≤ 2 ^ (j + 1) := Nat.pow_le_pow_right (by decide) (by omega)
        omega
      rw [if_pos ⟨h, hlast⟩, min_eq_right (by omega), min_eq_right (by omega)]
    · have hfull : n + 1 = 2 ^ 12 := by omega
      have hj : j + 1 = 12 := Nat.pow_right_injective le_rfl (hk.symm.trans hfull)
      rw [if_neg fun h ↦ hlast h.2]
      omega
  · have hlog : Nat.log 2 (n + 1) = Nat.log 2 n := by
      apply Nat.log_eq_of_pow_le_of_lt_pow
      · exact (Nat.pow_log_le_self 2 hpos.ne').trans n.le_succ
      · have hle : n < 2 ^ (Nat.log 2 n + 1) := Nat.lt_pow_succ_log_self (by decide) n
        exact lt_of_le_of_ne hle fun heq ↦ h (hpower.mpr ⟨_, heq⟩)
    rw [if_neg fun hboth ↦ h hboth.1, hlog]

variable {b : ℕ} {bytes rest collected : List UInt8} {r r' : Dictionary} {value count : ℕ}
  {d d' : Decompressor} {l l' : Locals}

/-! ### The table and the dictionary -/

structure TableOf (b : ℕ) (r : Dictionary) (d : Decompressor) : Prop where
  codeSize : d.bcodeSize = b
  bits : d.ibitsToken = r.width b
  last : d.itokenLast + 1 = r.nextCode b
  room : r.nextCode b ≤ 4096
  length : d.rgtoken.length = ctokens
  roots : ∀ c < 2 ^ b, d.rgtoken[c]? = some (chToken (UInt8.ofNat c))
  free : ∀ j, 2 ^ b ≤ j → j < ctokens → (j < 2 ^ b + 2 ∨ r.nextCode b ≤ j) →
    d.rgtoken[j]? = some 0
  strings : ∀ k s, r.strings[k]? = some s →
    ∃ t, d.rgtoken[2 ^ b + 2 + k]? = some t ∧ Spells d.rgtoken t s
  lengths : ∀ s ∈ r.strings, s.length ≤ r.strings.length + 1

namespace TableOf

variable (h : TableOf b r d)
include h

theorem wClear_eq (hb : b ≤ 8) : d.wClear = 2 ^ b := by
  have hle : 2 ^ b ≤ 2 ^ 8 := Nat.pow_le_pow_right (by decide) hb
  rw [Decompressor.wClear, h.codeSize, Nat.mod_eq_of_lt (hle.trans_lt (by decide))]

theorem wEOD_eq (hb : b ≤ 8) : d.wEOD = 2 ^ b + 1 := by
  have hle : 2 ^ b ≤ 2 ^ 8 := Nat.pow_le_pow_right (by decide) hb
  rw [Decompressor.wEOD, h.codeSize, Nat.mod_eq_of_lt (by omega), Nat.add_comm]

theorem of_lookup_some {code : ℕ} {s : List UInt8} (hs : r.lookup b code = some s) :
    ∃ t, d.rgtoken[code]? = some t ∧ Spells d.rgtoken t s ∧ code < r.nextCode b ∧
      s.length ≤ r.strings.length + 1 := by
  rw [Dictionary.lookup] at hs
  split at hs
  case isTrue hroot =>
    obtain rfl := Option.some.inj hs
    refine ⟨_, h.roots code hroot, .single (iLen_chToken _) (ch_chToken _), ?_, ?_⟩
    · rw [Dictionary.nextCode]
      omega
    · rw [List.length_singleton]
      omega
  case isFalse hroot =>
    split at hs
    · cases hs
    case isFalse hcontrol =>
      obtain ⟨t, ht, hspells⟩ := h.strings _ _ hs
      rw [Nat.add_sub_of_le (Nat.le_of_not_lt hcontrol)] at ht
      have hlt := (List.getElem?_eq_some_iff.mp hs).1
      refine ⟨t, ht, hspells, ?_, h.lengths s (List.mem_of_getElem? hs)⟩
      rw [Dictionary.nextCode]
      omega

/-- A code without a string has an empty entry. -/
theorem of_lookup_none {code : ℕ} (hcode : code < ctokens) (hs : r.lookup b code = none) :
    d.rgtoken[code]? = some 0 ∧
      (code = 2 ^ b ∨ code = 2 ^ b + 1 ∨ r.nextCode b ≤ code) := by
  rw [Dictionary.lookup] at hs
  split at hs
  · cases hs
  case isFalse hroot =>
    split at hs
    case isTrue hcontrol => exact ⟨h.free code (by omega) hcode (.inl hcontrol), by omega⟩
    case isFalse hcontrol =>
      have hge := List.getElem?_eq_none_iff.mp hs
      have hnext : r.nextCode b ≤ code := by
        rw [Dictionary.nextCode]
        omega
      exact ⟨h.free code (by omega) hcode (.inr hnext), .inr (.inr hnext)⟩

end TableOf

/-! ### The last string -/

/-- The local variables hold the last string; where there is none, the previous token is empty, or
it is about to be cleared. -/
structure PrevOf (b : ℕ) (r : Dictionary) (value count : ℕ) (d : Decompressor) (l : Locals) :
    Prop where
  entry : d.rgtoken[l.iTokenPrev]? = some l.tokenPrev
  start : r.prev = none → r.strings = [] ∧
    (l.tokenPrev = 0 ∨ (r.width b ≤ count → value % 2 ^ r.width b = 2 ^ b))
  string : ∀ p, r.prev = some p → Spells d.rgtoken l.tokenPrev p ∧
    l.iTokenPrev < r.nextCode b ∧ p.head? = some l.chFirst ∧
      p.length ≤ r.strings.length + 1

theorem length_lt (hb : 2 ≤ b) (hroom : r.nextCode b ≤ 4096) {n : ℕ}
    (hn : n ≤ r.strings.length + 1) : n + 1 < ctokens := by
  have hle : 2 ^ 2 ≤ 2 ^ b := Nat.pow_le_pow_right (by decide) hb
  rw [Dictionary.nextCode] at hroom
  rw [ctokens]
  omega

/-- A code after another one: the string of the previous one with the first character of this one
is added, unless the table is full. -/
theorem addToken_eq (hb : 2 ≤ b) {p s : List UInt8} {iToken token value' count' : ℕ}
    (htable : TableOf b r d) (hprev : Spells d.rgtoken l.tokenPrev p)
    (hentry : d.rgtoken[l.iTokenPrev]? = some l.tokenPrev) (hindex : l.iTokenPrev < r.nextCode b)
    (hlength : p.length ≤ r.strings.length + 1) (hfirst : s.head? = some l.chFirst)
    (hs : s = p ++ [l.chFirst] ∧ iToken = r.nextCode b ∧ iToken < ctokens ∧
        token = nextToken l.iTokenPrev l.tokenPrev l.chFirst ∨
      d.rgtoken[iToken]? = some token ∧ Spells d.rgtoken token s ∧ iToken < r.nextCode b ∧
        s.length ≤ r.strings.length + 1) :
    ∃ d', d.addToken l iToken token =
        .again d' { l with iTokenPrev := iToken, tokenPrev := token } ∧
      TableOf b (r.add b (p ++ [l.chFirst]) s) d' ∧
      PrevOf b (r.add b (p ++ [l.chFirst]) s) value' count' d'
        { l with iTokenPrev := iToken, tokenPrev := token } ∧
      d'.pbIn = d.pbIn ∧ d'.buffer = d.buffer ∧ d'.pbOut = d.pbOut ∧ d'.cbOut = d.cbOut ∧
      d'.fEnded = d.fEnded ∧ d'.fError = d.fError ∧ d'.fNeedInput = d.fNeedInput := by
  have hp : iLen l.tokenPrev > 0 := by
    rw [hprev.iLen_eq]
    exact hprev.length_pos
  have hlong := length_lt hb htable.room hlength
  have hlast := htable.last
  rw [Decompressor.addToken]
  by_cases hfull : r.nextCode b < 4096
  · -- the string gets the next code
    have hlt : l.iTokenPrev < ctokens := hindex.trans hfull
    have hnext : Spells d.rgtoken (nextToken l.iTokenPrev l.tokenPrev l.chFirst)
        (p ++ [l.chFirst]) := hprev.next hentry hlt hlong l.chFirst
    have hfree : d.rgtoken[r.nextCode b]? = some 0 :=
      htable.free _ (by rw [Dictionary.nextCode]; omega) hfull (.inr le_rfl)
    have hadd : r.add b (p ++ [l.chFirst]) s = ⟨r.strings ++ [p ++ [l.chFirst]], some s⟩ := by
      rw [Dictionary.add, if_pos hfull]
    have hcode : (r.add b (p ++ [l.chFirst]) s).nextCode b = r.nextCode b + 1 := by
      rw [hadd, Dictionary.nextCode, Dictionary.nextCode, List.length_append,
        List.length_singleton]
      exact (Nat.add_assoc _ _ _).symm
    have hpos : 0 < r.nextCode b := Nat.zero_lt_of_lt hindex
    have hget : (d.rgtoken.set (r.nextCode b)
        (nextToken l.iTokenPrev l.tokenPrev l.chFirst))[r.nextCode b]? =
          some (nextToken l.iTokenPrev l.tokenPrev l.chFirst) := by
      rw [List.getElem?_set_self (by rw [htable.length]; exact hfull)]
    have hkeep : ∀ {j : ℕ}, j ≠ r.nextCode b → (d.rgtoken.set (r.nextCode b)
        (nextToken l.iTokenPrev l.tokenPrev l.chFirst))[j]? = d.rgtoken[j]? := fun hj ↦
      List.getElem?_set_ne hj.symm
    rw [if_pos ⟨by omega, hp⟩, hlast, if_neg (Nat.not_le.mpr hindex)]
    refine ⟨_, rfl, ?_, ?_, rfl, rfl, rfl, rfl, rfl, rfl, rfl⟩
    · exact {
        codeSize := htable.codeSize
        bits := by
          rw [Dictionary.width, hcode, width_succ hpos hfull]
          change (if _ then _ else _) = _
          rw [htable.bits]
          rfl
        last := hcode.symm
        room := hcode.trans_le hfull
        length := by
          change (List.set _ _ _).length = _
          rw [List.length_set, htable.length]
        roots := fun c hc ↦ by
          rw [hkeep (by rw [Dictionary.nextCode]; omega)]
          exact htable.roots c hc
        free := fun j hj hj' hwhere ↦ by
          rw [hcode] at hwhere
          have hne : j ≠ r.nextCode b := by
            rw [Dictionary.nextCode] at hwhere ⊢
            omega
          rw [hkeep hne]
          exact htable.free j hj hj' (hwhere.imp_right Nat.le_of_succ_le)
        strings := fun k u hu ↦ by
          rw [hadd] at hu
          rcases Nat.lt_trichotomy k r.strings.length with hk | hk | hk
          · rw [List.getElem?_append_left hk] at hu
            obtain ⟨t, ht, hspells⟩ := htable.strings k u hu
            refine ⟨t, ?_, hspells.set hfree _⟩
            rw [hkeep (by rw [Dictionary.nextCode]; omega), ht]
          · subst hk
            rw [List.getElem?_concat_length] at hu
            obtain rfl := Option.some.inj hu
            exact ⟨_, hget, hnext.set hfree _⟩
          · have hlen : (r.strings ++ [p ++ [l.chFirst]]).length ≤ k := by
              rw [List.length_append, List.length_singleton]
              exact hk
            rw [List.getElem?_eq_none hlen] at hu
            cases hu
        lengths := fun u hu ↦ by
          rw [hadd] at hu ⊢
          rw [List.length_append, List.length_singleton]
          rcases List.mem_append.mp hu with hu | hu
          · exact (htable.lengths u hu).trans (by omega)
          · rw [List.mem_singleton.mp hu, List.length_append, List.length_singleton]
            omega }
    · refine ⟨?_, fun hnone ↦ (by rw [hadd] at hnone; cases hnone), fun q hq ↦ ?_⟩
      · rcases hs with ⟨-, rfl, -, rfl⟩ | ⟨hget', -, hlt', -⟩
        · exact hget
        · rw [hkeep hlt'.ne, hget']
      · rw [hadd] at hq
        obtain rfl := Option.some.inj hq
        rw [hcode, hadd, List.length_append, List.length_singleton]
        rcases hs with ⟨rfl, rfl, -, rfl⟩ | ⟨-, hspells, hlt', hlen⟩
        · refine ⟨hnext.set hfree _, Nat.lt_succ_self _, hfirst, ?_⟩
          rw [List.length_append, List.length_singleton]
          omega
        · exact ⟨hspells.set hfree _, hlt'.trans (Nat.lt_succ_self _), hfirst,
            hlen.trans (by omega)⟩
  · -- the table is full, and every code has a string
    have hadd : r.add b (p ++ [l.chFirst]) s = ⟨r.strings, some s⟩ := by
      rw [Dictionary.add, if_neg hfull]
    have hmax : r.nextCode b = 4096 := le_antisymm htable.room (Nat.le_of_not_lt hfull)
    rw [if_neg fun h ↦ absurd h.1 (by omega), hadd]
    rcases hs with ⟨-, rfl, hlt, -⟩ | ⟨hget, hspells, hlt, hlen⟩
    · exact absurd hlt (by rw [hmax, ctokens]; exact Nat.lt_irrefl _)
    · refine ⟨d, rfl, ?_, ⟨hget, fun hnone ↦ (by cases hnone), fun q hq ↦ ?_⟩, rfl, rfl, rfl, rfl,
        rfl, rfl, rfl⟩
      · exact ⟨htable.codeSize, htable.bits, htable.last, htable.room, htable.length,
          htable.roots, htable.free, htable.strings, htable.lengths⟩
      · obtain rfl := Option.some.inj hq
        exact ⟨hspells, hlt, hfirst, hlen⟩

end MicroFramework.Graphics.Lzw
