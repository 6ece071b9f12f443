import MicroFramework.Arithmetic.Cli

/-!
# Arithmetic of words

What the `Numeric` functions compute once the tags have chosen the width and the sign, at every
width, and the exact operands on which it is what the CLI computes.
-/

namespace MicroFramework.Arithmetic

open Library.SignedWords Cli

variable {w : ℕ} {x y : BitVec w}

/-- The result of an instruction on words is the one the CLI gives. -/
inductive Agrees : Except Cli.Exception (BitVec w) → Except Failure (BitVec w) → Prop
  | value (x : BitVec w) : Agrees (.ok x) (.ok x)
  | divideByZero : Agrees (.error .divideByZero) (.error (.fault .divideByZero))
  | arithmetic (hr : HResult) : Agrees (.error .arithmetic) (.error (.fault hr))

@[simp]
theorem agrees_ok_iff {x y : BitVec w} : Agrees (.ok x) (.ok y) ↔ x = y := by
  constructor
  · rintro ⟨⟩
    rfl
  · rintro rfl
    exact .value x

@[simp]
theorem not_agrees_native (outcome : Except Cli.Exception (BitVec w)) :
    ¬Agrees outcome (.error .nativeOperator) := by
  rintro ⟨⟩

@[simp]
theorem not_agrees_error_ok (exception : Cli.Exception) (x : BitVec w) :
    ¬Agrees (.error exception) (.ok x) := by
  rintro ⟨⟩

/-! ## Arithmetic -/

/-- An arithmetic instruction on words, given whether the left operand has a signed tag. -/
def ArithmeticOpcode.onWords (op : ArithmeticOpcode) (signed : Bool) (x y : BitVec w) :
    Except Failure (BitVec w) :=
  match op with
  | .add => .ok (x + y)
  | .sub => .ok (x - y)
  | .mul => .ok (x * y)
  | .div => if y = 0#w then .error (.fault .divideByZero) else nativeDiv x y
  | .divUn => if y = 0#w then .error (.fault .divideByZero) else nativeDivUn x y
  | .rem =>
    if y = 0#w then .error (.fault .divideByZero)
    else if signed then nativeRem x y else nativeRemUn x y
  | .remUn => if y = 0#w then .error (.fault .divideByZero) else nativeRemUn x y

/-- The minimum and minus one, whose quotient no word of the width can hold. -/
def Overflows (x y : BitVec w) : Prop := x = BitVec.intMin w ∧ y = -1#w

instance (x y : BitVec w) : Decidable (Overflows x y) :=
  inferInstanceAs (Decidable (_ ∧ _))

/-- The operands on which an arithmetic instruction follows the CLI: no division or remainder of the
minimum by minus one and, for a remainder under an unsigned tag, operands whose sign makes no
difference. -/
def ArithmeticOpcode.FollowsOn (op : ArithmeticOpcode) (signed : Bool) (x y : BitVec w) : Prop :=
  match op with
  | .div => ¬Overflows x y
  | .rem => if signed then ¬Overflows x y else y = 0#w ∨ RemainderIgnoresSign x y
  | _ => True

theorem toInt_eq_zero_iff : y.toInt = 0 ↔ y = 0#w := by rw [← BitVec.toInt_inj, BitVec.toInt_zero]

theorem toNat_eq_zero_iff : y.toNat = 0 ↔ y = 0#w := by
  rw [← BitVec.toNat_inj, BitVec.toNat_ofNat, Nat.zero_mod]

theorem toInt_eq_neg_one_iff (hw : 1 < w) : y.toInt = -1 ↔ y = -1#w := by
  have hone : (-1#w).toInt = -1 := by
    rw [BitVec.neg_one_eq_allOnes, BitVec.toInt_allOnes]
    simp [show 0 < w by omega]
  rw [← BitVec.toInt_inj, hone]

theorem not_overflows_zero (hw : 1 < w) : ¬Overflows x 0#w := by
  rintro ⟨-, hone⟩
  have := (toInt_eq_neg_one_iff hw).mpr hone
  simp at this

/-- The overflowing operands are none on which the sign makes no difference. -/
theorem not_remainderIgnoresSign_of_overflows (hw : 1 < w) (h : Overflows x y) :
    ¬RemainderIgnoresSign x y := by
  obtain ⟨rfl, rfl⟩ := h
  have hmin : (BitVec.intMin w).msb = true := by
    rw [BitVec.msb_intMin]
    simp [show 0 < w by omega]
  have hone : (-1#w).msb = true := by rw [BitVec.neg_one_eq_allOnes, BitVec.msb_allOnes (by omega)]
  intro hsame
  simp only [RemainderIgnoresSign, hmin, hone, if_true] at hsame
  have hval := congrArg BitVec.toInt hsame
  rw [(toInt_eq_neg_one_iff hw).mpr rfl, BitVec.toInt_intMin_of_pos (by omega)] at hval
  have hpow : 2 ≤ 2 ^ (w - 1) := by
    calc
      2 = 2 ^ 1 := by norm_num
      _ ≤ 2 ^ (w - 1) := Nat.pow_le_pow_right (by decide) (by omega)
  have : (2 : ℤ) ≤ 2 ^ (w - 1) := by exact_mod_cast hpow
  omega

/-- The shape of a signed division or remainder: the same result on both sides, an exception for
zero on both sides, and for the overflowing operands an exception against a native operator. -/
theorem agrees_signed_iff (hw : 1 < w) (result : BitVec w) :
    Agrees
      (if y = 0#w then .error .divideByZero
        else if Overflows x y then .error .arithmetic else .ok result)
      (if y = 0#w then .error (.fault .divideByZero)
        else if y = 0#w ∨ Overflows x y then .error .nativeOperator else .ok result) ↔
      ¬Overflows x y := by
  by_cases hzero : y = 0#w
  · subst hzero
    simp only [if_true]
    exact ⟨fun _ ↦ not_overflows_zero hw, fun _ ↦ .divideByZero⟩
  · by_cases hmin : Overflows x y
    · simp [hzero, hmin]
    · simp [hzero, hmin]

/-- An arithmetic instruction on words follows the CLI exactly on these operands. -/
theorem ArithmeticOpcode.agrees_iff (op : ArithmeticOpcode) (signed : Bool) (hw : 1 < w) :
    Agrees (arithmetic op x y) (op.onWords signed x y) ↔ op.FollowsOn signed x y := by
  cases op with
  | add => simp [arithmetic, onWords, FollowsOn, ofInt_add]
  | sub => simp [arithmetic, onWords, FollowsOn, ofInt_sub]
  | mul => simp [arithmetic, onWords, FollowsOn, ofInt_mul]
  | div =>
    simp only [arithmetic, onWords, FollowsOn, toInt_eq_zero_iff, toInt_eq_neg_one_iff hw,
      nativeDiv, ofInt_tdiv]
    exact agrees_signed_iff hw _
  | divUn =>
    simp only [arithmetic, onWords, FollowsOn, toNat_eq_zero_iff, nativeDivUn, ofNat_div]
    by_cases hzero : y = 0#w
    · simp [hzero, Agrees.divideByZero]
    · simp [hzero]
  | rem =>
    simp only [arithmetic, onWords, FollowsOn, toInt_eq_zero_iff, toInt_eq_neg_one_iff hw,
      nativeRem, nativeRemUn, ofInt_tmod]
    cases signed with
    | true => exact agrees_signed_iff hw _
    | false =>
      by_cases hzero : y = 0#w
      · simp [hzero, Agrees.divideByZero]
      · simp only [hzero, if_false, Bool.false_eq_true, false_or]
        change Agrees (if Overflows x y then _ else _) _ ↔ _
        by_cases hmin : Overflows x y
        · simp [hmin, not_remainderIgnoresSign_of_overflows hw hmin]
        · rw [if_neg hmin, agrees_ok_iff, eq_comm]
          exact umod_eq_srem_iff hzero
  | remUn =>
    simp only [arithmetic, onWords, FollowsOn, toNat_eq_zero_iff, nativeRemUn, ofNat_mod]
    by_cases hzero : y = 0#w
    · simp [hzero, Agrees.divideByZero]
    · simp [hzero]

/-! ## Shifts -/

def ShiftOpcode.onWords (op : ShiftOpcode) (signed : Bool) (x : BitVec w) (count : ℕ) : BitVec w :=
  match op with
  | .shl => x <<< count
  | .shr => if signed then x.sshiftRight count else x >>> count
  | .shrUn => x >>> count

/-- The operands on which a shift follows the CLI: a right shift under an unsigned tag needs a clear
sign bit or a zero count. -/
def ShiftOpcode.FollowsOn (op : ShiftOpcode) (signed : Bool) (x : BitVec w) (count : ℕ) : Prop :=
  match op with
  | .shr => signed = true ∨ x.msb = false ∨ count = 0
  | _ => True

theorem ShiftOpcode.eq_iff (op : ShiftOpcode) (signed : Bool) {count : ℕ} (hcount : count < w) :
    shift op x count = op.onWords signed x count ↔ op.FollowsOn signed x count := by
  cases op with
  | shl => simp [shift, onWords, FollowsOn, ofInt_mul_two_pow]
  | shr =>
    simp only [shift, onWords, FollowsOn, ofInt_div_two_pow]
    cases signed with
    | true => simp
    | false =>
      rw [eq_comm]
      simpa using ushiftRight_eq_sshiftRight_iff count hcount
  | shrUn => simp [shift, onWords, FollowsOn, ofNat_div_two_pow]

/-!
## Conversions of words

`Convert_Internal` on the slots that hold an integer: it extends to 64 bits by the tags of the
source and the target and truncates to the target, and it is the CLI's conversion unless an unsigned
tag hides the sign of a word that `conv.i8` widens.
-/

variable {w : ℕ}

/-! ## Slots -/

namespace HeapBlock

def signed (block : HeapBlock) : Bool := (dataTypeLookup block.dataType).signed

variable {block : HeapBlock}

theorem holds_int32_iff {x : BitVec 32} :
    block.Holds (.int32 x) ↔ (block.dataType = .i4 ∨ block.dataType = .u4) ∧ block.u4 = x := by
  constructor
  · intro h
    cases h with
    | int32 htag => exact ⟨htag, rfl⟩
  · rintro ⟨htag, rfl⟩
    exact .int32 htag

theorem holds_int64_iff {x : BitVec 64} :
    block.Holds (.int64 x) ↔ (block.dataType = .i8 ∨ block.dataType = .u8) ∧ block.u8 = x := by
  constructor
  · intro h
    cases h with
    | int64 htag => exact ⟨htag, rfl⟩
  · rintro ⟨htag, rfl⟩
    exact .int64 htag

/-- A slot holds one integer only. -/
theorem Holds.unique {value value' : Cli.Value} (h : block.Holds value)
    (h' : block.Holds value') : value = value' := by
  cases h with
  | int32 htag =>
    cases h' with
    | int32 => rfl
    | int64 htag' => rcases htag with htag | htag <;> rw [htag] at htag' <;> simp at htag'
  | int64 htag =>
    cases h' with
    | int32 htag' => rcases htag with htag | htag <;> rw [htag] at htag' <;> simp at htag'
    | int64 => rfl

/-! ## Extension -/

theorem extend_u8_of_int32 (htag : block.dataType = .i4 ∨ block.dataType = .u4) (et : DataType) :
    (block.extend et).u8 =
      if block.signed && (dataTypeLookup et).signed then block.u4.signExtend 64
      else block.u4.setWidth 64 := by
  have hzero := shiftLeft_ushiftRight (show 32 ≤ 64 by decide) block.u8
  have hsign := shiftLeft_sshiftRight (show 0 < 32 by decide) (show 32 ≤ 64 by decide) block.u8
  rw [← u4_eq_setWidth] at hzero hsign
  rw [extend, signed]
  rcases htag with htag | htag
  · rw [htag]
    cases hsigned : (dataTypeLookup et).signed
    · exact (setU8_u8 _ _).trans hzero
    · exact (setU8_u8 _ _).trans hsign
  · rw [htag]
    exact (setU8_u8 _ _).trans hzero

theorem extend_of_int64 (htag : block.dataType = .i8 ∨ block.dataType = .u8) (et : DataType) :
    block.extend et = block := by
  rcases htag with htag | htag <;> rw [extend, htag]

end HeapBlock

/-! ## Conversion of words -/

def ConvOpcode.onWords (op : ConvOpcode) (x : BitVec w) : Cli.Value :=
  match op with
  | .i1 => .int32 ((x.setWidth 8).signExtend 32)
  | .i2 => .int32 ((x.setWidth 16).signExtend 32)
  | .u1 => .int32 ((x.setWidth 8).setWidth 32)
  | .u2 => .int32 ((x.setWidth 16).setWidth 32)
  | .i4 | .i | .u4 | .u => .int32 (x.setWidth 32)
  | .i8 => .int64 (x.signExtend 64)
  | .u8 => .int64 (x.setWidth 64)

variable {n v : ℕ}

theorem ofInt_toInt_of_le (hn : n ≤ w) (x : BitVec w) : BitVec.ofInt n x.toInt = x.setWidth n := by
  rw [← BitVec.signExtend_eq_setWidth_of_le x hn]
  rfl

theorem ofNat_toNat_mod (x : BitVec w) :
    BitVec.ofNat v (x.toNat % 2 ^ n) = (x.setWidth n).setWidth v := by
  apply BitVec.eq_of_toNat_eq
  rw [BitVec.toNat_ofNat, BitVec.toNat_setWidth, BitVec.toNat_setWidth]

theorem ofNat_toNat (v : ℕ) (x : BitVec w) : BitVec.ofNat v x.toNat = x.setWidth v := by
  apply BitVec.eq_of_toNat_eq
  rw [BitVec.toNat_ofNat, BitVec.toNat_setWidth]

theorem convert_eq_onWords (hw : 32 ≤ w) (op : ConvOpcode) (x : BitVec w) :
    Cli.convert op x = op.onWords x := by
  cases op with
  | i1 | i2 =>
    rw [Cli.convert, ofInt_toInt_of_le (show _ ≤ w by omega)]
    rfl
  | u1 | u2 => rw [Cli.convert, ofNat_toNat_mod, ConvOpcode.onWords]
  | i4 | i => rw [Cli.convert, ofInt_toInt_of_le hw, ConvOpcode.onWords]
  | u4 | u | u8 => rw [Cli.convert, ofNat_toNat, ConvOpcode.onWords]
  | i8 => rfl

theorem setWidth_signExtend_of_le (hn : n ≤ w) (hv : w ≤ v) (x : BitVec w) :
    (x.signExtend v).setWidth n = x.setWidth n := by
  apply BitVec.eq_of_getLsbD_eq
  intro i hi
  rw [BitVec.getLsbD_setWidth, BitVec.getLsbD_signExtend, BitVec.getLsbD_setWidth]
  simp [show i < v by omega, show i < w by omega]

theorem setWidth_setWidth_of_ge (hv : w ≤ v) (x : BitVec w) :
    (x.setWidth v).setWidth n = x.setWidth n := by
  apply BitVec.eq_of_toNat_eq
  have hpow : 2 ^ w ≤ 2 ^ v := Nat.pow_le_pow_right (by decide) hv
  rw [BitVec.toNat_setWidth, BitVec.toNat_setWidth, BitVec.toNat_setWidth,
    Nat.mod_eq_of_lt (show x.toNat < 2 ^ v by have := x.isLt; omega)]

/-- Widening by the sign first changes no conversion but the one to an unsigned 64-bit integer. -/
theorem onWords_signExtend (op : ConvOpcode) (hop : op ≠ .u8) (x : BitVec 32) :
    op.onWords (x.signExtend 64) = op.onWords x := by
  cases op with
  | u8 => exact absurd rfl hop
  | i8 => simp [ConvOpcode.onWords]
  | i1 | u1 => rw [ConvOpcode.onWords, setWidth_signExtend_of_le (by decide) (by decide)]; rfl
  | i2 | u2 => rw [ConvOpcode.onWords, setWidth_signExtend_of_le (by decide) (by decide)]; rfl
  | i4 | i | u4 | u =>
    rw [ConvOpcode.onWords, setWidth_signExtend_of_le (by decide) (by decide)]
    rfl

/-- Widening with zeros first changes no conversion but the one to a signed 64-bit integer. -/
theorem onWords_setWidth (op : ConvOpcode) (hop : op ≠ .i8) (x : BitVec 32) :
    op.onWords (x.setWidth 64) = op.onWords x := by
  cases op with
  | i8 => exact absurd rfl hop
  | u8 => simp [ConvOpcode.onWords]
  | i1 | i2 | u1 | u2 | i4 | i | u4 | u =>
    rw [ConvOpcode.onWords, setWidth_setWidth_of_ge (show 32 ≤ 64 by decide)]
    rfl

/-! ## Conversion of slots -/

namespace HeapBlock

theorem u1_eq_setWidth (block : HeapBlock) : block.u1 = block.u8.setWidth 8 := by
  show block.u4.setWidth 8 = _
  rw [u4_eq_setWidth, BitVec.setWidth_setWidth_of_le _ (by decide)]

theorem u2_eq_setWidth (block : HeapBlock) : block.u2 = block.u8.setWidth 16 := by
  show block.u4.setWidth 16 = _
  rw [u4_eq_setWidth, BitVec.setWidth_setWidth_of_le _ (by decide)]

/-- Truncation and promotion hold the conversion of what the extension left. -/
theorem convertInternal_holds (block : HeapBlock) (op : ConvOpcode) :
    (block.convertInternal op.dataType).Holds (op.onWords (block.extend op.dataType).u8) := by
  cases op with
  | i1 | u1 =>
    refine holds_int32_iff.mpr ⟨.inl rfl, ?_⟩
    rw [← u1_eq_setWidth]
    rfl
  | i2 | u2 =>
    refine holds_int32_iff.mpr ⟨.inl rfl, ?_⟩
    rw [← u2_eq_setWidth]
    rfl
  | i4 | i =>
    refine holds_int32_iff.mpr ⟨.inl rfl, ?_⟩
    rw [← u4_eq_setWidth]
    rfl
  | u4 | u =>
    refine holds_int32_iff.mpr ⟨.inr rfl, ?_⟩
    rw [← u4_eq_setWidth]
    rfl
  | i8 =>
    refine holds_int64_iff.mpr ⟨.inl rfl, ?_⟩
    rw [BitVec.signExtend_eq]
    rfl
  | u8 =>
    refine holds_int64_iff.mpr ⟨.inr rfl, ?_⟩
    rw [BitVec.setWidth_eq]
    rfl

/-- What was extended by the tags converts as the slot's own integer, unless an unsigned tag hides
a set sign bit from `conv.i8`. -/
theorem onWords_extend_iff {block : HeapBlock}
    (htag : block.dataType = .i4 ∨ block.dataType = .u4) (op : ConvOpcode) :
    op.onWords (block.extend op.dataType).u8 = op.onWords block.u4 ↔
      (op = .i8 → block.signed = false → block.u4.msb = false) := by
  rw [extend_u8_of_int32 htag]
  by_cases hi8 : op = .i8
  · subst hi8
    cases hsigned : block.signed with
    | true => simp [dataTypeLookup, ConvOpcode.dataType, onWords_signExtend]
    | false =>
      simp only [Bool.false_and, Bool.false_eq_true, if_false, ConvOpcode.onWords,
        Cli.Value.int64.injEq, BitVec.signExtend_eq, true_imp_iff]
      exact setWidth_eq_signExtend_iff (by decide)
  · simp only [hi8, false_imp_iff, iff_true]
    split
    · rename_i hsigned
      apply onWords_signExtend
      rintro rfl
      simp [dataTypeLookup, ConvOpcode.dataType] at hsigned
    · exact onWords_setWidth op hi8 block.u4

/-- A conversion holds the CLI's result unless an unsigned tag hides a set sign bit from
`conv.i8`. -/
theorem convertInternal_holds_iff {block : HeapBlock} {value : Cli.Value}
    (hvalue : block.Holds value) (op : ConvOpcode) :
    (block.convertInternal op.dataType).Holds (Cli.conv op value) ↔
      (op = .i8 → block.dataType = .u4 → block.u4.msb = false) := by
  have hholds := convertInternal_holds block op
  have hiff : (block.convertInternal op.dataType).Holds (Cli.conv op value) ↔
      op.onWords (block.extend op.dataType).u8 = Cli.conv op value :=
    ⟨hholds.unique, fun heq ↦ heq ▸ hholds⟩
  rw [hiff]
  cases hvalue with
  | int32 htag =>
    rw [Cli.conv, convert_eq_onWords (by decide), onWords_extend_iff htag]
    rcases htag with htag | htag <;> simp [signed, htag, dataTypeLookup]
  | int64 htag =>
    rw [Cli.conv, convert_eq_onWords (by decide), extend_of_int64 htag]
    rcases htag with htag | htag <;> simp [htag]

end HeapBlock

end MicroFramework.Arithmetic
