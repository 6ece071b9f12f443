import MicroFramework.Text.IntegerParsing

/-!
# When integers are parsed exactly

The accumulator holds the number of the digits read so far, modulo `2 ^ 64`.  For the signed types
the check before each multiplication keeps it exact.  For the unsigned types it lets the numbers from
`2 ^ 64` to `2 ^ 64 + 3` pass, which come out as 0 to 3; and a sign with no digits behind it comes
out as 0.
-/

namespace MicroFramework.Text

open List Nat

/-! ## The accumulator -/

section Accumulator

variable {signed : Bool} {digits : List UInt16}

theorem numberFrom_append (start : ℕ) (front back : List UInt16) :
    numberFrom start (front ++ back) = numberFrom (numberFrom start front) back :=
  foldl_append

theorem le_numberFrom (start : ℕ) (digits : List UInt16) : start ≤ numberFrom start digits := by
  induction digits generalizing start with
  | nil => exact le_refl start
  | cons c digits ih =>
    calc
      start ≤ start * 10 + digit c := by omega
      _ ≤ numberFrom (start * 10 + digit c) digits := ih _

/-- Before each multiplication the accumulator is at most the guard. -/
def PassesGuard (signed : Bool) (digits : List UInt16) : Prop :=
  ∀ before c after, digits = before ++ c :: after →
    number before % 2 ^ 64 ≤ overflowGuard signed

/-- The loop succeeds on digits whose prefixes pass the guard, with their number modulo `2 ^ 64`. -/
theorem accumulate_ok_iff (start : ℕ) (r : ℕ) :
    accumulate signed (start % 2 ^ 64) digits = .ok r ↔
      (∀ c ∈ digits, IsDigit c) ∧
        (∀ before c after, digits = before ++ c :: after →
          numberFrom start before % 2 ^ 64 ≤ overflowGuard signed) ∧
        numberFrom start digits % 2 ^ 64 = r := by
  induction digits generalizing start with
  | nil =>
    rw [accumulate, Except.ok.injEq]
    constructor
    · intro h
      refine ⟨by simp, ?_, h⟩
      intro before c after hsplit
      simp at hsplit
    · exact fun h ↦ h.2.2
  | cons c digits ih =>
    have hstep : (start % 2 ^ 64 * 10 + digit c) % 2 ^ 64 = (start * 10 + digit c) % 2 ^ 64 := by
      rw [add_mod, mul_mod, mod_mod, ← mul_mod, ← add_mod]
    rw [accumulate]
    split
    · rename_i hdigit
      split
      · rename_i hguard
        constructor
        · intro h
          cases h
        · intro h
          have hle := h.2.1 [] c digits rfl
          exact absurd hle (not_le.mpr hguard)
      · rename_i hguard
        rw [hstep, ih]
        constructor
        · intro h
          refine ⟨forall_mem_cons.mpr ⟨hdigit, h.1⟩, ?_, h.2.2⟩
          intro before c' after hsplit
          cases before with
          | nil => exact not_lt.mp hguard
          | cons b before =>
            obtain ⟨rfl, hrest⟩ := List.cons.inj hsplit
            exact h.2.1 before c' after hrest
        · intro h
          refine ⟨(forall_mem_cons.mp h.1).2, ?_, h.2.2⟩
          intro before c' after hsplit
          exact h.2.1 (c :: before) c' after (congrArg (c :: ·) hsplit)
    · rename_i hdigit
      constructor
      · intro h
        cases h
      · intro h
        exact absurd (forall_mem_cons.mp h.1).1 hdigit

theorem passesGuard_of_lt (h : number digits < 10 * (overflowGuard signed + 1)) :
    PassesGuard signed digits := by
  intro before c after hsplit
  have hten : number before * 10 ≤ number digits := by
    calc
      number before * 10 ≤ number before * 10 + digit c := le_add_right _ _
      _ ≤ numberFrom (number before * 10 + digit c) after := le_numberFrom _ _
      _ = number digits := by
        rw [hsplit]
        exact (numberFrom_append 0 before (c :: after)).symm
  have hmod := mod_le (number before) (2 ^ 64)
  omega

/-- For the signed types the guard keeps the accumulator exact. -/
theorem number_le_of_passesGuard (hdigits : ∀ c ∈ digits, IsDigit c) (h : PassesGuard true digits) :
    number digits ≤ 2 ^ 63 + 1 := by
  induction digits using List.reverseRecOn with
  | nil => decide
  | append_singleton front c ih =>
    have hfront : number front ≤ 2 ^ 63 + 1 := by
      apply ih (fun d hd ↦ hdigits d (mem_append_left _ hd))
      intro before d after hsplit
      apply h before d (after ++ [c])
      rw [hsplit, append_assoc, cons_append]
    have hguard : number front % 2 ^ 64 ≤ 0x0CCCCCCCCCCCCCCC := h front c [] rfl
    have hdigit : digit c ≤ 9 := by
      have hc := (hdigits c (by simp)).2
      have hle : c.toNat ≤ 57 := hc
      unfold digit
      omega
    have hnumber : number (front ++ [c]) = number front * 10 + digit c := by
      rw [number, numberFrom_append]
      rfl
    omega

end Accumulator

/-! ## The conclusion -/

variable {z B : ℤ}

theorem long_of_lt (hlow : -2 ^ 63 ≤ z) (hhigh : z < 2 ^ 63) : long z = z := by
  unfold long
  apply Int.bmod_eq_of_le <;> omega

theorem long_of_ge (hlow : 2 ^ 63 ≤ z) (hhigh : z < 2 ^ 64) : long z = z - 2 ^ 64 := by
  have hmod : z % (2 ^ 64 : ℕ) = z := Int.emod_eq_of_lt (by omega) (by omega)
  unfold long Int.bmod
  rw [hmod, if_neg (by omega)]
  rfl

variable {r : ℕ}

/-- With bounds of a signed type the conclusion gives the number with its sign, if it is in them. -/
theorem conclude_signed (hB : 1 < B) (hmax : B ≤ 2 ^ 63) (isNeg : Bool)
    (hr : r ≤ 2 ^ 63 + 1) (n : ℤ) :
    conclude true isNeg (-B) (B - 1) r = .ok n ↔
      (if isNeg then -(r : ℤ) else r) = n ∧ -B ≤ n ∧ n < B := by
  unfold conclude
  rw [if_neg (by simp)]
  cases isNeg with
  | false =>
    simp only [Bool.false_eq_true, if_false, false_and, true_and]
    by_cases hlow : r < 2 ^ 63
    · rw [long_of_lt (z := r) (by omega) (by omega), if_neg (by omega)]
      split
      · constructor
        · intro h
          cases h
        · omega
      · rw [Except.ok.injEq]
        omega
    · rw [long_of_ge (z := r) (by omega) (by omega), if_pos (by omega)]
      constructor
      · intro h
        cases h
      · omega
  | true =>
    simp only [if_true, true_and, Bool.true_eq_false, false_and, if_false]
    have hres : long (-long r) = if r = 2 ^ 63 + 1 then 2 ^ 63 - 1 else -(r : ℤ) := by
      by_cases hlow : r < 2 ^ 63
      · rw [long_of_lt (z := r) (by omega) (by omega), long_of_lt (by omega) (by omega),
          if_neg (by omega)]
      · rw [long_of_ge (z := r) (by omega) (by omega)]
        by_cases hmin : r = 2 ^ 63
        · rw [long_of_ge (by omega) (by omega), if_neg (by omega)]
          omega
        · rw [long_of_lt (by omega) (by omega), if_pos (by omega)]
          omega
    rw [hres]
    by_cases hover : r = 2 ^ 63 + 1
    · rw [if_pos hover, if_pos (by omega)]
      constructor
      · intro h
        cases h
      · omega
    · rw [if_neg hover, if_neg (by omega)]
      split
      · constructor
        · intro h
          cases h
        · omega
      · rw [Except.ok.injEq]
        omega

/-- With the bound of an unsigned type of at most 32 bits. -/
theorem conclude_unsigned (hB : 1 < B) (hmax : B ≤ 2 ^ 32) (isNeg : Bool)
    (hr : r < 2 ^ 64) (n : ℤ) :
    conclude false isNeg 0 (B - 1) r = .ok n ↔
      (if isNeg then -(r : ℤ) else r) = n ∧ 0 ≤ n ∧ n < B := by
  unfold conclude
  cases isNeg with
  | false =>
    rw [if_neg (by simp)]
    simp only [Bool.false_eq_true, if_false, false_and, true_and]
    by_cases hlow : r < 2 ^ 63
    · rw [long_of_lt (z := r) (by omega) (by omega), if_neg (by omega)]
      split
      · constructor
        · intro h
          cases h
        · omega
      · rw [Except.ok.injEq]
        omega
    · rw [long_of_ge (z := r) (by omega) (by omega), if_pos (by omega)]
      constructor
      · intro h
        cases h
      · omega
  | true =>
    by_cases hzero : r = 0
    · subst hzero
      have hres : long (-long (0 : ℕ)) = 0 := rfl
      simp only [ne_eq, not_true_eq_false, and_false, if_false, if_true, hres, lt_irrefl,
        Bool.true_eq_false, false_or]
      rw [if_neg (by omega), Except.ok.injEq]
      omega
    · rw [if_pos (by simp [hzero])]
      simp only [if_true]
      constructor
      · intro h
        cases h
      · omega

/-- `UInt64` passes 0 for no bound, and reads the 64 bits as unsigned. -/
theorem conclude_unbounded (isNeg : Bool) (hr : r < 2 ^ 64) (n : ℤ) :
    (conclude false isNeg 0 0 r).map (fun res ↦ res % 2 ^ 64) = .ok n ↔
      (if isNeg then -(r : ℤ) else r) = n ∧ 0 ≤ n ∧ n < 2 ^ 64 := by
  unfold conclude
  cases isNeg with
  | false =>
    have hmod : long r % 2 ^ 64 = r := by
      by_cases hlow : r < 2 ^ 63
      · rw [long_of_lt (z := r) (by omega) (by omega)]
        omega
      · rw [long_of_ge (z := r) (by omega) (by omega)]
        omega
    simp only [Bool.false_eq_true, if_false, false_and, ne_eq, not_true_eq_false, and_false]
    rw [Except.map, hmod, Except.ok.injEq]
    omega
  | true =>
    by_cases hzero : r = 0
    · subst hzero
      simp [long, Except.map]
      omega
    · rw [if_pos (by simp [hzero])]
      simp only [if_true]
      constructor
      · intro h
        cases h
      · omega

namespace IntegerType

variable (T : IntegerType)

/-- What the conversion to the type makes of the accumulator. -/
def finish (isNeg : Bool) (r : ℕ) : Except ParseFailure ℤ :=
  match T with
  | sbyte => (conclude true isNeg (-128) 127 r).map fun res ↦ res.bmod (2 ^ 8)
  | byte => (conclude false isNeg 0 255 r).map fun res ↦ res % 2 ^ 8
  | int16 => (conclude true isNeg (-32768) 32767 r).map fun res ↦ res.bmod (2 ^ 16)
  | uint16 => (conclude false isNeg 0 65535 r).map fun res ↦ res % 2 ^ 16
  | int32 => (conclude true isNeg (-2147483648) 2147483647 r).map fun res ↦ res.bmod (2 ^ 32)
  | uint32 => (conclude false isNeg 0 4294967295 r).map fun res ↦ res % 2 ^ 32
  | int64 => conclude true isNeg (-9223372036854775808) 9223372036854775807 r
  | uint64 => (conclude false isNeg 0 0 r).map fun res ↦ res % 2 ^ 64

theorem convert_some (value : List UInt16) :
    T.convert (some value) =
      if trim value = [] then .error .indexOutOfRange
      else
        match accumulate T.signed 0 (splitSign (trim value)).2 with
        | .error failure => .error failure
        | .ok r => T.finish (splitSign (trim value)).1 r := by
  by_cases hempty : trim value = []
  · cases T <;>
      simp [convert, toSByte, toByte, toInt16, toUInt16, Text.toInt32, toUInt32, Text.toInt64,
        toUInt64, toInt64Within, hempty, Except.map]
  · cases T <;>
      simp only [convert, toSByte, toByte, toInt16, toUInt16, Text.toInt32, toUInt32, Text.toInt64,
        toUInt64, toInt64Within, signed, finish, hempty, if_false] <;>
      cases accumulate _ 0 (splitSign (trim value)).2 <;>
      rfl

/-- A cast that changes nothing in the range of a conversion may be left out. -/
theorem map_ok_iff {x : Except ParseFailure ℤ} {f : ℤ → ℤ} {Q P : ℤ → Prop} (hf : ∀ m, P m → f m = m)
    (hx : ∀ m, x = .ok m ↔ Q m ∧ P m) (n : ℤ) : x.map f = .ok n ↔ Q n ∧ P n := by
  rw [← hx n]
  cases x with
  | error failure =>
    constructor <;>
    · intro h
      cases h
  | ok m =>
    have hm : f m = m := hf m ((hx m).mp rfl).2
    rw [Except.map, hm]

/-- The conversion gives the number in the accumulator with its sign, if it is one of the type. -/
theorem finish_ok_iff (isNeg : Bool) {r : ℕ} (hr : r < 2 ^ 64) (hsigned : T.signed → r ≤ 2 ^ 63 + 1)
    (n : ℤ) :
    T.finish isNeg r = .ok n ↔ (if isNeg then -(r : ℤ) else r) = n ∧ T.InRange n := by
  cases T with
  | sbyte =>
    refine map_ok_iff (P := fun m ↦ -128 ≤ m ∧ m < 128) ?_
      (conclude_signed (B := 128) (by decide) (by decide) isNeg (hsigned rfl)) n
    intro m hm
    apply Int.bmod_eq_of_le <;> omega
  | int16 =>
    refine map_ok_iff (P := fun m ↦ -32768 ≤ m ∧ m < 32768) ?_
      (conclude_signed (B := 32768) (by decide) (by decide) isNeg (hsigned rfl)) n
    intro m hm
    apply Int.bmod_eq_of_le <;> omega
  | int32 =>
    refine map_ok_iff (P := fun m ↦ -2147483648 ≤ m ∧ m < 2147483648) ?_
      (conclude_signed (B := 2147483648) (by decide) (by decide) isNeg (hsigned rfl)) n
    intro m hm
    apply Int.bmod_eq_of_le <;> omega
  | int64 => exact conclude_signed (B := 2 ^ 63) (by decide) (by decide) isNeg (hsigned rfl) n
  | byte =>
    refine map_ok_iff (P := fun m ↦ 0 ≤ m ∧ m < 256) ?_
      (conclude_unsigned (B := 256) (by decide) (by decide) isNeg hr) n
    intro m hm
    omega
  | uint16 =>
    refine map_ok_iff (P := fun m ↦ 0 ≤ m ∧ m < 65536) ?_
      (conclude_unsigned (B := 65536) (by decide) (by decide) isNeg hr) n
    intro m hm
    omega
  | uint32 =>
    refine map_ok_iff (P := fun m ↦ 0 ≤ m ∧ m < 4294967296) ?_
      (conclude_unsigned (B := 4294967296) (by decide) (by decide) isNeg hr) n
    intro m hm
    omega
  | uint64 => exact conclude_unbounded isNeg hr n

end IntegerType

/-! ## The exact condition -/

/-- What a string of digits with its sign stands for in the accumulator. -/
def signedRemainder (isNeg : Bool) (digits : List UInt16) : ℤ :=
  if isNeg then -(number digits % 2 ^ 64 : ℕ) else (number digits % 2 ^ 64 : ℕ)

/-- A successful conversion. -/
theorem convert_ok_iff (T : IntegerType) (value : List UInt16) (n : ℤ) :
    T.convert (some value) = .ok n ↔
      trim value ≠ [] ∧ (∀ c ∈ (splitSign (trim value)).2, IsDigit c) ∧
        PassesGuard T.signed (splitSign (trim value)).2 ∧
        signedRemainder (splitSign (trim value)).1 (splitSign (trim value)).2 = n ∧ T.InRange n := by
  have hloop := fun r ↦ @accumulate_ok_iff T.signed (splitSign (trim value)).2 0 r
  rw [zero_mod] at hloop
  rw [T.convert_some]
  by_cases hempty : trim value = []
  · simp [hempty]
  · rw [if_neg hempty]
    cases haccumulate : accumulate T.signed 0 (splitSign (trim value)).2 with
    | error failure =>
      constructor
      · intro h
        cases h
      · intro h
        have hok := (hloop _).mpr ⟨h.2.1, h.2.2.1, rfl⟩
        rw [haccumulate] at hok
        cases hok
    | ok r =>
      obtain ⟨hdigits, hguard, hr⟩ := (hloop r).mp haccumulate
      have hsigned : T.signed → r ≤ 2 ^ 63 + 1 := by
        intro h
        rw [h] at hguard
        rw [← hr]
        exact (mod_le _ _).trans (number_le_of_passesGuard hdigits hguard)
      have hlt : r < 2 ^ 64 := hr ▸ mod_lt _ (by decide)
      have hremainder : signedRemainder (splitSign (trim value)).1 (splitSign (trim value)).2 =
          if (splitSign (trim value)).1 then -(r : ℤ) else r := by
        rw [← hr]
        rfl
      simp only [T.finish_ok_iff _ hlt hsigned n, hremainder]
      constructor
      · exact fun h ↦ ⟨hempty, hdigits, hguard, h⟩
      · exact fun h ↦ h.2.2.2

/-- The string is no sign alone; and if the type is unsigned and its digits denote `2 ^ 64` or more, a
prefix of them exceeds the guard modulo `2 ^ 64`, or what they all leave modulo `2 ^ 64` is not in the
range of the type. -/
def Parsable (T : IntegerType) (value : List UInt16) : Prop :=
  (trim value ≠ [] → (splitSign (trim value)).2 ≠ []) ∧
    (T.signed = false → (∀ c ∈ (splitSign (trim value)).2, IsDigit c) →
      number (splitSign (trim value)).2 < 2 ^ 64 ∨ ¬ PassesGuard false (splitSign (trim value)).2 ∨
        ¬ T.InRange (signedRemainder (splitSign (trim value)).1 (splitSign (trim value)).2))

variable {isNeg : Bool}

theorem signedRemainder_of_lt {digits : List UInt16} (h : number digits < 2 ^ 64) :
    signedRemainder isNeg digits = signedNumber isNeg digits := by
  rw [signedRemainder, signedNumber, mod_eq_of_lt h]

/-- A number of the type is below `2 ^ 64`, and passes the guard. -/
theorem bounds_of_inRange {T : IntegerType} {digits : List UInt16}
    (h : T.InRange (signedNumber isNeg digits)) :
    number digits < 2 ^ 64 ∧ PassesGuard T.signed digits := by
  have hbits : (2 : ℤ) ^ T.bits ≤ 2 ^ 64 ∧ (2 : ℤ) ^ (T.bits - 1) ≤ 2 ^ 63 := by cases T <;> decide
  have hbound : number digits < if T.signed then 2 ^ 63 + 1 else 2 ^ 64 := by
    unfold IntegerType.InRange signedNumber at h
    split at h <;> split at h <;> simp only [*, if_true, if_false, Bool.false_eq_true] <;> omega
  constructor
  · split at hbound <;> omega
  · apply passesGuard_of_lt
    unfold overflowGuard
    split at hbound <;> simp only [*, if_true, if_false, Bool.false_eq_true] <;> omega

/-- A string is parsed exactly if and only if it is no sign alone and, for an unsigned type, its number
does not come round to one of the type unnoticed. -/
theorem parsesExactly_iff (T : IntegerType) (value : List UInt16) :
    ParsesExactly T value ↔ Parsable T value := by
  constructor
  · intro h
    constructor
    · intro hnonempty hnil
      have hzero : T.InRange 0 := by cases T <;> decide
      have hok : T.convert (some value) = .ok 0 := by
        rw [convert_ok_iff, hnil]
        refine ⟨hnonempty, by simp, ?_, ?_, hzero⟩
        · intro before c after hsplit
          simp at hsplit
        · unfold signedRemainder number numberFrom
          split <;> rfl
      exact ((h 0).mp hok).1.1 hnil
    · intro hsigned hdigits
      by_contra hnot
      rw [not_or, not_or, not_not, not_not, not_lt] at hnot
      have hempty : trim value ≠ [] := by
        intro hempty
        have hnumber : number (splitSign (trim value)).2 = 0 := by
          rw [hempty]
          rfl
        omega
      have hok := (convert_ok_iff T value _).mpr
        ⟨hempty, hdigits, hsigned ▸ hnot.2.1, rfl, hnot.2.2⟩
      obtain ⟨⟨_, _, hnumber⟩, hrange⟩ := (h _).mp hok
      rw [← hnumber] at hrange
      exact absurd (bounds_of_inRange hrange).1 (not_lt.mpr hnot.1)
  · intro h n
    rw [convert_ok_iff]
    constructor
    · rintro ⟨hempty, hdigits, hguard, hn, hrange⟩
      have hlt : number (splitSign (trim value)).2 < 2 ^ 64 := by
        cases hsigned : T.signed with
        | true =>
          rw [hsigned] at hguard
          exact (number_le_of_passesGuard hdigits hguard).trans_lt (by decide)
        | false =>
          rw [hsigned] at hguard
          rcases h.2 hsigned hdigits with hlt | hnot | hnot
          · exact hlt
          · exact absurd hguard hnot
          · exact absurd (hn ▸ hrange) hnot
      rw [signedRemainder_of_lt hlt] at hn
      exact ⟨⟨h.1 hempty, hdigits, hn⟩, hrange⟩
    · rintro ⟨⟨hnonempty, hdigits, hn⟩, hrange⟩
      obtain ⟨hlt, hguard⟩ := bounds_of_inRange (hn ▸ hrange)
      refine ⟨?_, hdigits, hguard, ?_, hrange⟩
      · intro hempty
        rw [hempty] at hnonempty
        exact hnonempty rfl
      · rw [signedRemainder_of_lt hlt, hn]

/-- `Convert.ToByte("18446744073709551616")` gives 0. -/
theorem toByte_comes_round : ¬ ∀ T value, ParsesExactly T value := by
  intro h
  have hbyte := h .byte
    [49, 56, 52, 52, 54, 55, 52, 52, 48, 55, 51, 55, 48, 57, 53, 53, 49, 54, 49, 54] 0
  have hnot : ¬ Denotes
      [49, 56, 52, 52, 54, 55, 52, 52, 48, 55, 51, 55, 48, 57, 53, 53, 49, 54, 49, 54] 0 := by
    intro hdenotes
    exact absurd hdenotes.2.2 (by decide)
  exact hnot (hbyte.mp (by decide)).1

end MicroFramework.Text
