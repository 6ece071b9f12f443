import MicroFramework.Arithmetic.Words

/-!
# The interpreter follows the CLI

Every integer instruction against the CLI: on every stack whose slots hold the CLI's integers, the
exact tags and operands on which the interpreter does what the CLI says, and the programs all of
whose steps meet that condition.
-/

namespace MicroFramework.Arithmetic

open Option Cli

/-! ## Arithmetic on slots -/

namespace HeapBlock

/-- The two tags of each width. -/
def Narrow (block : HeapBlock) : Prop := block.dataType = .i4 ∨ block.dataType = .u4

def Wide (block : HeapBlock) : Prop := block.dataType = .i8 ∨ block.dataType = .u8

instance (block : HeapBlock) : Decidable block.Wide :=
  inferInstanceAs (Decidable (_ ∨ _))

variable {left right block : HeapBlock}

theorem not_wide_of_narrow (htag : block.Narrow) : ¬block.Wide := by
  rcases htag with htag | htag <;> simp [Wide, htag]

theorem isZero_of_narrow (htag : block.Narrow) : block.isZero = (block.u4 == 0) := by
  rcases htag with htag | htag <;> rw [isZero, htag]

theorem isZero_of_wide (htag : block.Wide) : block.isZero = (block.u8 == 0) := by
  rcases htag with htag | htag <;> rw [isZero, htag]

theorem numericSwitch_of_narrow (htag : left.Narrow)
    (operation : Bool → {w : ℕ} → (HeapBlock → BitVec w) → Except Failure (BitVec w)) :
    left.numericSwitch operation = (operation left.signed u4).map left.setU4 := by
  rcases htag with htag | htag <;> rw [numericSwitch, signed, htag] <;> rfl

theorem numericSwitch_of_wide (htag : left.Wide)
    (operation : Bool → {w : ℕ} → (HeapBlock → BitVec w) → Except Failure (BitVec w)) :
    left.numericSwitch operation = (operation left.signed u8).map left.setU8 := by
  rcases htag with htag | htag <;> rw [numericSwitch, signed, htag] <;> rfl

end HeapBlock

open HeapBlock

section Switch

variable {left right : HeapBlock} {w : ℕ} {load : HeapBlock → BitVec w}
  {store : BitVec w → HeapBlock}

/-- Once the switch has chosen a width, an arithmetic instruction is its operation on words. -/
theorem ArithmeticOpcode.numeric_eq_onWords (op : ArithmeticOpcode)
    (hswitch : ∀ operation : Bool → {w : ℕ} → (HeapBlock → BitVec w) → Except Failure (BitVec w),
      left.numericSwitch operation = (operation left.signed load).map store)
    (hzero : right.isZero = (load right == 0#w)) :
    op.numeric left right = (op.onWords left.signed (load left) (load right)).map store := by
  cases op with
  | add | sub | mul =>
    rw [numeric]
    refine (hswitch _).trans ?_
    rfl
  | div | divUn | rem | remUn =>
    simp only [numeric, numericDiv, numericDivUn, numericRem, numericRemUn, hzero, beq_iff_eq,
      onWords]
    by_cases hright : load right = 0#w
    · rw [if_pos hright, if_pos hright]
      rfl
    · rw [if_neg hright, if_neg hright, hswitch]

/-- A shift by a count below the width is its operation on words. -/
theorem ShiftOpcode.numeric_eq_onWords (op : ShiftOpcode)
    (hswitch : ∀ operation : Bool → {w : ℕ} → (HeapBlock → BitVec w) → Except Failure (BitVec w),
      left.numericSwitch operation = (operation left.signed load).map store)
    (hcount : right.u4.toNat < w) :
    op.numeric left right = .ok (store (op.onWords left.signed (load left) right.u4.toNat)) := by
  have hwidth : ¬w ≤ right.u4.toNat := by omega
  cases op with
  | shl | shrUn =>
    rw [numeric]
    refine (hswitch _).trans ?_
    simp only [nativeShift, if_neg hwidth]
    rfl
  | shr =>
    rw [numeric]
    refine (hswitch _).trans ?_
    simp only [nativeShift, if_neg hwidth, onWords]
    cases left.signed <;> rfl

end Switch

/-! ## The condition -/

/-- The condition of an arithmetic instruction on its operands, read at the width of the left
tag. -/
def ArithmeticOpcode.FollowsCli (op : ArithmeticOpcode) (value1 value2 : HeapBlock) : Prop :=
  if value1.Wide then
    op.FollowsOn value1.signed value1.u8 value2.u8
  else
    op.FollowsOn value1.signed value1.u4 value2.u4

def ShiftOpcode.FollowsCli (op : ShiftOpcode) (value count : HeapBlock) : Prop :=
  if value.Wide then
    op.FollowsOn value.signed value.u8 count.u4.toNat
  else
    op.FollowsOn value.signed value.u4 count.u4.toNat

def Opcode.FollowsCli (op : Opcode) (stack : List HeapBlock) : Prop :=
  match op, stack with
  | .arithmetic op, value2 :: value1 :: _ => op.FollowsCli value1 value2
  | .shift op, count :: value :: _ => op.FollowsCli value count
  | .conv .i8, value :: _ => value.dataType = .u4 → value.u4.msb = false
  | _, _ => True

/-! ## Results on the stack -/

section Stack

variable {blocks : List HeapBlock} {values : List Cli.Value} {taken : Option Bool}

@[simp]
theorem conforms_ok_iff {taken' : Option Bool} :
    Conforms (.ok ⟨values, taken⟩) (.ok ⟨blocks, taken'⟩) ↔
      List.Forall₂ Holds blocks values ∧ taken = taken' := by
  constructor
  · intro h
    cases h with
    | value hstack => exact ⟨hstack, rfl⟩
  · rintro ⟨hstack, rfl⟩
    exact .value hstack

/-- A word result pushed on the stack conforms exactly when the words agree. -/
theorem conforms_push_iff {w : ℕ} {spec : Except Cli.Exception (BitVec w)}
    {result : Except Failure (BitVec w)} {value : BitVec w → Cli.Value}
    {store : BitVec w → HeapBlock} (hstore : ∀ x y, (store y).Holds (value x) ↔ x = y)
    (hrest : List.Forall₂ Holds blocks values) :
    Conforms ((spec.map value).map fun v ↦ ⟨v :: values, none⟩)
        ((result.map store).map fun v ↦ ⟨v :: blocks, none⟩) ↔
      Agrees spec result := by
  cases spec with
  | ok x =>
    cases result with
    | ok y => simp [Except.map, hstore, hrest]
    | error failure => constructor <;> intro h <;> cases h
  | error exception =>
    cases result with
    | ok y => constructor <;> intro h <;> cases h
    | error failure => constructor <;> intro h <;> cases h <;> constructor

end Stack

theorem holds_setU4_iff {block : HeapBlock} (htag : block.Narrow) (x y : BitVec 32) :
    (block.setU4 y).Holds (.int32 x) ↔ x = y := by
  rw [holds_int32_iff]
  exact ⟨fun h ↦ h.2.symm, fun h ↦ ⟨htag, h.symm⟩⟩

theorem holds_setU8_iff {block : HeapBlock} (htag : block.Wide) (x y : BitVec 64) :
    (block.setU8 y).Holds (.int64 x) ↔ x = y := by
  rw [holds_int64_iff, setU8_u8]
  exact ⟨fun h ↦ h.2.symm, fun h ↦ ⟨htag, h.symm⟩⟩

/-! ## Comparison -/

section Compare

theorem compareNumbers_pos_iff {left right : ℤ} : 0 < compareNumbers left right ↔ right < left := by
  unfold compareNumbers
  split
  · simpa using ‹left > right›
  · split <;> simp <;> omega

theorem compareNumbers_neg_iff {left right : ℤ} : compareNumbers left right < 0 ↔ left < right := by
  unfold compareNumbers
  split
  · simp
    omega
  · split
    · simpa using ‹left < right›
    · simp
      omega

theorem compareNumbers_eq_zero_iff {left right : ℤ} :
    compareNumbers left right = 0 ↔ left = right := by
  have hpos := @compareNumbers_pos_iff left right
  have hneg := @compareNumbers_neg_iff left right
  omega

variable {left right : HeapBlock}

theorem compareValues_of_narrow (hleft : left.Narrow) (hright : right.Narrow) (fSigned : Bool) :
    left.compareValues right fSigned =
      compareNumbers (reading fSigned left.u4) (reading fSigned right.u4) := by
  rcases hleft with hleft | hleft <;> rcases hright with hright | hright <;>
    simp [compareValues, hleft, hright, dataTypeLookup, compareValuesNumeric]

theorem compareValues_of_wide (hleft : left.Wide) (hright : right.Wide) (fSigned : Bool) :
    left.compareValues right fSigned =
      compareNumbers (reading fSigned left.u8) (reading fSigned right.u8) := by
  rcases hleft with hleft | hleft <;> rcases hright with hright | hright <;>
    simp [compareValues, hleft, hright, dataTypeLookup, compareValuesNumeric]

variable {w : ℕ} {x y : BitVec w}

section

variable (hcompare : ∀ fSigned, left.compareValues right fSigned =
    compareNumbers (reading fSigned x) (reading fSigned y))

include hcompare

/-- A comparison of two readings is the CLI's. -/
theorem holds_eq_compare (op : CompareOpcode) : op.holds left right = compare op x y := by
  cases op <;> rw [CompareOpcode.holds, Cli.compare, hcompare, Bool.eq_iff_iff] <;>
    simp [compareNumbers_eq_zero_iff, compareNumbers_pos_iff, compareNumbers_neg_iff, reading,
      BitVec.toInt_inj]

theorem taken_eq_branch (op : BranchOpcode) : op.taken left right = branch op x y := by
  have hge : ∀ a b : ℤ, 0 ≤ compareNumbers a b ↔ b ≤ a := fun a b ↦ by
    rw [← not_lt, compareNumbers_neg_iff, not_lt]
  have hle : ∀ a b : ℤ, compareNumbers a b ≤ 0 ↔ a ≤ b := fun a b ↦ by
    rw [← not_lt, compareNumbers_pos_iff, not_lt]
  cases op <;> rw [BranchOpcode.taken, branch, hcompare, Bool.eq_iff_iff] <;>
    simp [compareNumbers_eq_zero_iff, compareNumbers_pos_iff, compareNumbers_neg_iff, reading,
      BitVec.toInt_inj, hge, hle, BitVec.toNat_inj]

end

end Compare

/-! ## One instruction -/

section Execute

variable {left right : HeapBlock} {blocks : List HeapBlock} {values : List Cli.Value}
  {value1 value2 : Cli.Value}

theorem arithmetic_conforms_iff (op : ArithmeticOpcode) (hleft : left.Holds value1)
    (hright : right.Holds value2) (hrest : List.Forall₂ Holds blocks values)
    {spec : Except Cli.Exception Cli.Value} (hspec : binary op value1 value2 = some spec) :
    Conforms (spec.map fun v ↦ ⟨v :: values, none⟩)
        ((op.numeric left right).map fun v ↦ ⟨v :: blocks, none⟩) ↔
      op.FollowsCli left right := by
  cases hleft with
  | int32 hleft =>
    cases hright with
    | int32 hright =>
      obtain rfl : (arithmetic op left.u4 right.u4).map .int32 = spec := by
        simpa [binary] using hspec
      rw [op.numeric_eq_onWords (numericSwitch_of_narrow hleft) (isZero_of_narrow hright),
        conforms_push_iff (holds_setU4_iff hleft) hrest, op.agrees_iff _ (by decide),
        ArithmeticOpcode.FollowsCli, if_neg (not_wide_of_narrow hleft)]
    | int64 => simp [binary] at hspec
  | int64 hleft =>
    cases hright with
    | int32 => simp [binary] at hspec
    | int64 hright =>
      obtain rfl : (arithmetic op left.u8 right.u8).map .int64 = spec := by
        simpa [binary] using hspec
      rw [op.numeric_eq_onWords (numericSwitch_of_wide hleft) (isZero_of_wide hright),
        conforms_push_iff (holds_setU8_iff hleft) hrest, op.agrees_iff _ (by decide),
        ArithmeticOpcode.FollowsCli, if_pos (show left.Wide from hleft)]

theorem shift_conforms_iff (op : ShiftOpcode) (hleft : left.Holds value1)
    (hright : right.Holds value2) (hrest : List.Forall₂ Holds blocks values)
    {spec : Cli.Value} (hspec : shiftBy op value1 value2 = some spec) :
    Conforms (.ok ⟨spec :: values, none⟩)
        ((op.numeric left right).map fun v ↦ ⟨v :: blocks, none⟩) ↔
      op.FollowsCli left right := by
  cases hleft with
  | int32 hleft =>
    cases hright with
    | int32 hright =>
      obtain ⟨hcount, rfl⟩ : right.u4.toNat < 32 ∧
          Cli.Value.int32 (shift op left.u4 right.u4.toNat) = spec := by
        simpa [shiftBy] using hspec
      rw [op.numeric_eq_onWords (numericSwitch_of_narrow hleft) hcount, ShiftOpcode.FollowsCli,
        if_neg (not_wide_of_narrow hleft), ← op.eq_iff _ hcount]
      simp [Except.map, holds_setU4_iff hleft, hrest]
    | int64 => simp [shiftBy] at hspec
  | int64 hleft =>
    cases hright with
    | int32 hright =>
      obtain ⟨hcount, rfl⟩ : right.u4.toNat < 64 ∧
          Cli.Value.int64 (shift op left.u8 right.u4.toNat) = spec := by
        simpa [shiftBy] using hspec
      rw [op.numeric_eq_onWords (numericSwitch_of_wide hleft) hcount, ShiftOpcode.FollowsCli,
        if_pos (show left.Wide from hleft), ← op.eq_iff _ hcount]
      simp [Except.map, holds_setU8_iff hleft, hrest]
    | int64 => simp [shiftBy] at hspec

/-- The three-way comparison reads the two integers at their common width. -/
theorem test_eq_some {relation : {w : ℕ} → BitVec w → BitVec w → Bool} {holds : Bool}
    (hleft : left.Holds value1) (hright : right.Holds value2)
    (hspec : test relation value1 value2 = some holds) :
    ∃ (w : ℕ) (x y : BitVec w), holds = relation x y ∧ ∀ fSigned,
      left.compareValues right fSigned = compareNumbers (reading fSigned x) (reading fSigned y) := by
  cases hleft with
  | int32 hleft =>
    cases hright with
    | int32 hright =>
      refine ⟨32, left.u4, right.u4, ?_, compareValues_of_narrow hleft hright⟩
      simpa [test, eq_comm] using hspec
    | int64 => simp [test] at hspec
  | int64 hleft =>
    cases hright with
    | int32 => simp [test] at hspec
    | int64 hright =>
      refine ⟨64, left.u8, right.u8, ?_, compareValues_of_wide hleft hright⟩
      simpa [test, eq_comm] using hspec

theorem neg_holds (hleft : left.Holds value1) :
    ∃ result, left.numericNeg = .ok result ∧ result.Holds (neg value1) := by
  cases hleft with
  | int32 htag =>
    refine ⟨left.setU4 (-left.u4), numericSwitch_of_narrow htag _, ?_⟩
    rw [neg, holds_setU4_iff htag, Library.SignedWords.ofInt_neg]
  | int64 htag =>
    refine ⟨left.setU8 (-left.u8), numericSwitch_of_wide htag _, ?_⟩
    rw [neg, holds_setU8_iff htag, Library.SignedWords.ofInt_neg]

end Execute

/-- On a stack of integers an instruction does what the CLI says exactly under its condition. -/
theorem execute_conforms_iff (op : Opcode) {values : List Cli.Value} {blocks : List HeapBlock}
    (hstack : List.Forall₂ HeapBlock.Holds blocks values)
    {outcome : Except Cli.Exception (Cli.Outcome Cli.Value)}
    (hspec : Cli.execute op values = some outcome) :
    (∃ result, execute op blocks = some result ∧ Conforms outcome result) ↔
      op.FollowsCli blocks := by
  cases op with
  | arithmetic op =>
    rcases hstack with - | ⟨hright, - | ⟨hleft, hrest⟩⟩
    · simp [Cli.execute] at hspec
    · simp [Cli.execute] at hspec
    · obtain ⟨spec, hbinary, rfl⟩ := map_eq_some_iff.mp hspec
      rw [execute]
      simpa [Opcode.FollowsCli] using arithmetic_conforms_iff op hleft hright hrest hbinary
  | shift op =>
    rcases hstack with - | ⟨hright, - | ⟨hleft, hrest⟩⟩
    · simp [Cli.execute] at hspec
    · simp [Cli.execute] at hspec
    · obtain ⟨spec, hshift, rfl⟩ := map_eq_some_iff.mp hspec
      rw [execute]
      simpa [Opcode.FollowsCli] using shift_conforms_iff op hleft hright hrest hshift
  | neg =>
    cases hstack with
    | nil => simp [Cli.execute] at hspec
    | cons hvalue hrest =>
      obtain rfl := some.inj hspec
      obtain ⟨result, hneg, hholds⟩ := neg_holds hvalue
      rw [execute, hneg]
      simp [Opcode.FollowsCli, Except.map, hholds, hrest]
  | compare op =>
    rcases hstack with - | ⟨hright, - | ⟨hleft, hrest⟩⟩
    · simp [Cli.execute] at hspec
    · simp [Cli.execute] at hspec
    · obtain ⟨holds, htest, rfl⟩ := map_eq_some_iff.mp hspec
      obtain ⟨w, x, y, rfl, hcompare⟩ := test_eq_some hleft hright htest
      rw [execute, holds_eq_compare hcompare]
      simp [Opcode.FollowsCli, hrest, holds_int32_iff]
  | branch op =>
    rcases hstack with - | ⟨hright, - | ⟨hleft, hrest⟩⟩
    · simp [Cli.execute] at hspec
    · simp [Cli.execute] at hspec
    · obtain ⟨taken, htest, rfl⟩ := map_eq_some_iff.mp hspec
      obtain ⟨w, x, y, rfl, hcompare⟩ := test_eq_some hleft hright htest
      rw [execute, taken_eq_branch hcompare]
      simp [Opcode.FollowsCli, hrest]
  | conv op =>
    cases hstack with
    | nil => simp [Cli.execute] at hspec
    | cons hvalue hrest =>
      obtain rfl := some.inj hspec
      have hiff := convertInternal_holds_iff hvalue op
      rw [execute]
      simp only [Option.some.injEq, exists_eq_left', conforms_ok_iff, List.forall₂_cons, hiff, hrest]
      cases op <;> simp [Opcode.FollowsCli]

/-- The instruction, its tags and its operands at the head of the list of cases that fail: an
unsigned tag makes `rem` unsigned, and minus one modulo two is one instead of minus one. -/
theorem rem_departs_from_cli :
    Cli.execute (.arithmetic .rem) [.int32 2, .int32 0xFFFFFFFF] =
        some (.ok ⟨[.int32 0xFFFFFFFF], none⟩) ∧
      List.Forall₂ HeapBlock.Holds [⟨.u4, 2, 0⟩, ⟨.u4, 0xFFFFFFFF, 0⟩]
        [.int32 2, .int32 0xFFFFFFFF] ∧
      ¬∃ result,
        execute (.arithmetic .rem) [⟨.u4, 2, 0⟩, ⟨.u4, 0xFFFFFFFF, 0⟩] = some result ∧
          Conforms (.ok ⟨[.int32 0xFFFFFFFF], none⟩) result := by
  refine ⟨rfl, ?_, ?_⟩
  · exact .cons (.int32 (.inr rfl)) (.cons (.int32 (.inr rfl)) .nil)
  · rintro ⟨result, hresult, hconforms⟩
    have hone : execute (.arithmetic .rem) [⟨.u4, 2, 0⟩, ⟨.u4, 0xFFFFFFFF, 0⟩] =
        some (.ok ⟨[⟨.u4, 1, 0⟩], none⟩) := rfl
    rw [hone] at hresult
    obtain rfl := some.inj hresult
    rw [conforms_ok_iff, List.forall₂_cons, holds_int32_iff] at hconforms
    exact absurd hconforms.1.1.2 (by decide)

/-- A signed remainder through the theorem: minus five modulo three is minus two. -/
theorem rem_follows_cli :
    ∃ result, execute (.arithmetic .rem) [⟨.i4, 3, 7⟩, ⟨.i4, 0xFFFFFFFB, 9⟩] = some result ∧
      Conforms (.ok ⟨[.int32 0xFFFFFFFE], none⟩) result := by
  have hstack : List.Forall₂ HeapBlock.Holds [⟨.i4, 3, 7⟩, ⟨.i4, 0xFFFFFFFB, 9⟩]
      [.int32 3, .int32 0xFFFFFFFB] :=
    .cons (.int32 (.inl rfl)) (.cons (.int32 (.inl rfl)) .nil)
  exact (execute_conforms_iff (.arithmetic .rem) hstack rfl).mpr (by
    show ¬Overflows (0xFFFFFFFB : BitVec 32) 3
    decide)

/-! ## Programs -/

/-- A sequence of instructions, up to the first that fails. -/
def run : List Opcode → List HeapBlock → Option (Except Failure (Cli.Outcome HeapBlock))
  | [], stack => some (.ok ⟨stack, none⟩)
  | op :: program, stack =>
    match execute op stack with
    | some (.ok outcome) => run program outcome.stack
    | result => result

/-- The same sequence as the CLI gives it a meaning. -/
def Cli.run : List Opcode → List Cli.Value → Option (Except Cli.Exception (Cli.Outcome Cli.Value))
  | [], stack => some (.ok ⟨stack, none⟩)
  | op :: program, stack =>
    match execute op stack with
    | some (.ok outcome) => run program outcome.stack
    | result => result

/-- Every instruction of the sequence meets its condition where it is executed. -/
def FollowsAll : List Opcode → List HeapBlock → Prop
  | [], _ => True
  | op :: program, stack =>
    op.FollowsCli stack ∧ ∀ outcome, execute op stack = some (.ok outcome) →
      FollowsAll program outcome.stack

/-- A sequence all of whose instructions meet their condition computes what the CLI says, whatever
the upper halves of its 32-bit slots hold on the way. -/
theorem run_conforms (program : List Opcode) {values : List Cli.Value} {blocks : List HeapBlock}
    (hstack : List.Forall₂ HeapBlock.Holds blocks values) (hfollows : FollowsAll program blocks)
    {outcome : Except Cli.Exception (Cli.Outcome Cli.Value)}
    (hspec : Cli.run program values = some outcome) :
    ∃ result, run program blocks = some result ∧ Conforms outcome result := by
  induction program generalizing values blocks with
  | nil =>
    obtain rfl := some.inj hspec
    exact ⟨_, rfl, .value hstack⟩
  | cons op program ih =>
    obtain ⟨hop, hrest⟩ := hfollows
    rw [Cli.run] at hspec
    rw [run]
    cases hstep : Cli.execute op values with
    | none =>
      rw [hstep] at hspec
      cases hspec
    | some spec =>
      obtain ⟨result, hexecute, hconforms⟩ := (execute_conforms_iff op hstack hstep).mpr hop
      rw [hstep] at hspec
      cases hconforms with
      | value hstack' =>
        rw [hexecute]
        exact ih hstack' (hrest _ hexecute) hspec
      | divideByZero =>
        obtain rfl := some.inj hspec
        exact ⟨_, by rw [hexecute], .divideByZero⟩
      | arithmetic hr =>
        obtain rfl := some.inj hspec
        exact ⟨_, by rw [hexecute], .arithmetic hr⟩

end MicroFramework.Arithmetic
