import MicroFramework.Library.Bits

/-!
# The metadata of a block

`WL_SectorMetadata`: a block refers to the block that replaces it through two fields, in which the
index stands inverted.  Flash memory can only clear bits, so a field can be written again with an
index that has further bits set; 0 marks a field that is used up.
-/

namespace MicroFramework.WearLeveling

open Bits Nat

/-- `WL_SectorMetadata`, without its checksum. -/
structure SectorMetadata where
  blockOffset0 : UInt16
  blockOffset1 : UInt16
  ownerBlock : UInt16
  mappedSectorOffset : UInt16
  linkedSectorOffset : UInt16
  sectorFlags : UInt8
  blockFlags : UInt8

def freeLinkIndex : UInt16 := 0xFFFF

def deadLinkIndex : UInt16 := 0x0000

def blockFlagMask : UInt8 := 0x3F

def erased : SectorMetadata :=
  ⟨freeLinkIndex, freeLinkIndex, freeLinkIndex, freeLinkIndex, freeLinkIndex, 0xFF, 0xFF⟩

namespace SectorMetadata

variable (metadata : SectorMetadata)

def setBlockMapOffset (map : UInt32) : SectorMetadata :=
  if 0xFFFF &&& ~~~metadata.blockOffset0.toUInt32 &&& ~~~map = 0 then
    { metadata with blockOffset0 := (~~~map).toUInt16 }
  else { metadata with blockOffset0 := 0, blockOffset1 := (~~~map).toUInt16 }

def getBlockMapOffset : UInt16 :=
  if metadata.blockOffset0 ≠ deadLinkIndex then ~~~metadata.blockOffset0 else ~~~metadata.blockOffset1

def isBlockFree : Bool := blockFlagMask = metadata.blockFlags &&& blockFlagMask

def storedIndex (second : Bool) : UInt16 :=
  if second then ~~~metadata.blockOffset1 else ~~~metadata.blockOffset0

end SectorMetadata

/-! ## Inclusion of bits -/

def Covers (m f : UInt16) : Prop := f ||| m = m

instance (m f : UInt16) : Decidable (Covers m f) := inferInstanceAs (Decidable (_ = _))

/-- No bit goes from 0 to 1. -/
structure ClearsBits (old new : SectorMetadata) : Prop where
  blockOffset0 : Covers old.blockOffset0 new.blockOffset0
  blockOffset1 : Covers old.blockOffset1 new.blockOffset1

section Covers

variable {m f w : UInt16}

theorem covers_iff_testBit : Covers m f ↔ ∀ i, f.toNat.testBit i = true → m.toNat.testBit i = true := by
  rw [Covers, ← UInt16.toNat_inj, UInt16.toNat_or]
  constructor
  · intro h i hi
    rw [← h, testBit_or, hi, Bool.true_or]
  · intro h
    apply eq_of_testBit_eq
    intro i
    rw [testBit_or]
    cases hf : f.toNat.testBit i with
    | false => exact Bool.false_or _
    | true => rw [h i hf, Bool.true_or]

theorem covers_refl (m : UInt16) : Covers m m := UInt16.or_self

theorem covers_zero (m : UInt16) : Covers m 0 := UInt16.zero_or

theorem covers_or_left (i f : UInt16) : Covers (i ||| f) f := by
  rw [covers_iff_testBit]
  intro j hj
  rw [UInt16.toNat_or, testBit_or, hj, Bool.or_true]

theorem testBit_not (w : UInt16) {i : ℕ} (hi : i < 16) :
    (~~~w).toNat.testBit i = !w.toNat.testBit i := by
  have h := @BitVec.getLsbD_not 16 i w.toBitVec
  rwa [decide_eq_true hi, Bool.true_and] at h

theorem testBit_large (w : UInt16) {i : ℕ} (hi : ¬ i < 16) : w.toNat.testBit i = false :=
  testBit_lt_two_pow (w.toNat_lt.trans_le (Nat.pow_le_pow_right (by decide) (not_lt.mp hi)))

/-- What is left of the complement of a field is included where the field is. -/
theorem covers_complement (h : Covers m (~~~w)) : Covers w (~~~m) := by
  rw [covers_iff_testBit] at h ⊢
  intro i hi
  by_cases hsmall : i < 16
  · rw [testBit_not m hsmall] at hi
    cases hw : w.toNat.testBit i with
    | true => rfl
    | false =>
      have hm := h i (by rw [testBit_not w hsmall, hw]; rfl)
      rw [hm] at hi
      exact hi
  · rw [testBit_large _ hsmall] at hi
    cases hi

/-- A strict superset has more bits. -/
theorem weight_lt_of_covers (h : Covers m f) (hne : m ≠ f) :
    weight 16 f.toNat < weight 16 m.toNat := by
  apply weight_lt_of_ssubset fun i _ ↦ covers_iff_testBit.mp h i
  by_contra hsame
  push Not at hsame
  apply hne
  apply UInt16.toNat_inj.mp
  apply eq_of_testBit_eq
  intro i
  by_cases hi : i < 16
  · exact (hsame i hi).symm
  · rw [testBit_large _ hi, testBit_large _ hi]

/-- Only the index with all bits set covers the index of a field that is used up. -/
theorem covers_dead : Covers m (~~~(0 : UInt16)) ↔ m = 0xFFFF := by
  have hones : ~~~(0 : UInt16) = 0xFFFF := rfl
  rw [hones]
  constructor
  · intro h
    have hle : (0xFFFF : UInt16).toNat ≤ m.toNat := by
      rw [← h, UInt16.toNat_or]
      exact left_le_or
    exact UInt16.toNat_inj.mp (le_antisymm (le_of_lt_succ m.toNat_lt) hle)
  · rintro rfl
    exact covers_refl _

end Covers

/-! ## Mapping a block -/

section Mapping

variable {metadata : SectorMetadata} {m : UInt16}

theorem testBit_not32 (w : UInt32) {i : ℕ} (hi : i < 32) :
    (~~~w).toNat.testBit i = !w.toNat.testBit i := by
  have h := @BitVec.getLsbD_not 32 i w.toBitVec
  rwa [decide_eq_true hi, Bool.true_and] at h

theorem clearTest_iff (w m : UInt16) :
    0xFFFF &&& ~~~w.toUInt32 &&& ~~~m.toUInt32 = 0 ↔ Covers m (~~~w) := by
  have hbit (i : ℕ) (hi : i < 16) :
      (0xFFFF &&& ~~~w.toUInt32 &&& ~~~m.toUInt32).toNat.testBit i =
        (!w.toNat.testBit i && !m.toNat.testBit i) := by
    rw [UInt32.toNat_and, UInt32.toNat_and, testBit_and, testBit_and,
      testBit_not32 _ (by omega), testBit_not32 _ (by omega), UInt16.toNat_toUInt32,
      UInt16.toNat_toUInt32]
    change ((2 ^ 16 - 1).testBit i && _ && _) = _
    rw [testBit_two_pow_sub_one, decide_eq_true hi, Bool.true_and]
  rw [covers_iff_testBit]
  constructor
  · intro hzero i hi
    by_cases hsmall : i < 16
    · have := hbit i hsmall
      rw [hzero, UInt32.toNat_zero, zero_testBit] at this
      rw [testBit_not w hsmall] at hi
      rw [hi, Bool.true_and] at this
      simpa using this.symm
    · rw [testBit_large _ hsmall] at hi
      cases hi
  · intro h
    apply UInt32.toNat_inj.mp
    apply eq_of_testBit_eq
    intro i
    rw [UInt32.toNat_zero, zero_testBit]
    by_cases hsmall : i < 16
    · rw [hbit i hsmall]
      cases hw : w.toNat.testBit i with
      | true => rfl
      | false => rw [h i (by rw [testBit_not w hsmall, hw]; rfl), Bool.not_true, Bool.and_false]
    · rw [UInt32.toNat_and, UInt32.toNat_and, testBit_and, testBit_and]
      change ((2 ^ 16 - 1).testBit i && _ && _) = _
      rw [testBit_two_pow_sub_one, decide_eq_false hsmall, Bool.false_and, Bool.false_and]

theorem setBlockMapOffset_eq (metadata : SectorMetadata) (m : UInt16) :
    metadata.setBlockMapOffset m.toUInt32 =
      if Covers m (metadata.storedIndex false) then { metadata with blockOffset0 := ~~~m }
      else { metadata with blockOffset0 := 0, blockOffset1 := ~~~m } := by
  have hindex : (~~~m.toUInt32).toUInt16 = ~~~m := by
    rw [UInt32.toUInt16_not, UInt16.toUInt16_toUInt32]
  rw [SectorMetadata.setBlockMapOffset, hindex]
  exact if_congr (clearTest_iff _ _) rfl rfl

/-- Where the index covers a stored one it can be stored. -/
theorem setBlockMapOffset_spec
    (hcovers : Covers m (metadata.storedIndex false) ∨ Covers m (metadata.storedIndex true))
    (hm : m ≠ 0xFFFF) :
    ClearsBits metadata (metadata.setBlockMapOffset m.toUInt32) ∧
      (metadata.setBlockMapOffset m.toUInt32).getBlockMapOffset = m := by
  have hinverse : ~~~(~~~m) = m := UInt16.not_not
  rw [setBlockMapOffset_eq]
  split_ifs with hfirst
  · have hlive : ~~~m ≠ deadLinkIndex := by
      intro hdead
      apply hm
      rw [← hinverse, hdead]
      rfl
    constructor
    · exact ⟨covers_complement hfirst, covers_refl _⟩
    · rw [SectorMetadata.getBlockMapOffset, if_pos hlive, hinverse]
  · have hsecond := hcovers.resolve_left hfirst
    constructor
    · exact ⟨covers_zero _, covers_complement hsecond⟩
    · rw [SectorMetadata.getBlockMapOffset, if_neg (fun h ↦ h rfl), hinverse]

theorem covers_of_clearsBits (h : ClearsBits metadata (metadata.setBlockMapOffset m.toUInt32)) :
    Covers m (metadata.storedIndex false) ∨ Covers m (metadata.storedIndex true) := by
  rw [setBlockMapOffset_eq] at h
  split_ifs at h with hfirst
  · exact Or.inl hfirst
  · exact Or.inr (covers_complement h.blockOffset1)

end Mapping

end MicroFramework.WearLeveling
