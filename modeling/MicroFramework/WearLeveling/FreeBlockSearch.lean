import MicroFramework.WearLeveling.BlockMap

/-!
# The search for a free block

`GetNextFreeBlock` looks for a free block whose index has all the bits of the index stored in the
virtual block and the fewest others, first for the field in use and then for the second field.
-/

namespace MicroFramework.WearLeveling

open Bits Nat Option UInt32

/-- The device under the driver: its one region is made of whole blocks, and it has metadata only
for addresses in the region. -/
structure Device where
  start : UInt32
  size : UInt32
  bytesPerBlock : UInt32
  getSectorMetadata : UInt32 → Option SectorMetadata
  bytesPerBlock_pos : 0 < bytesPerBlock.toNat
  whole : bytesPerBlock.toNat ∣ size.toNat
  blockCount_pos : 0 < size.toNat / bytesPerBlock.toNat
  blockCount_le : size.toNat / bytesPerBlock.toNat ≤ 65535
  range : start.toNat + size.toNat ≤ 2 ^ 32
  inside : ∀ address metadata, getSectorMetadata address = some metadata →
    start.toNat ≤ address.toNat ∧ address.toNat < start.toNat + size.toNat

/-! ## The driver -/

/-- The loop of `InitializeDevice` that shifts the block index mask; without blocks it has no
end. -/
def shiftMask (mask blockCount : UInt32) : Option UInt32 :=
  if mask ≥ blockCount then
    if mask = 0 then none else shiftMask (mask >>> 1) blockCount
  else some mask
termination_by mask.toNat
decreasing_by
  rename_i hne
  have hpos : mask.toNat ≠ 0 := fun h ↦ hne (UInt32.toNat_inj.mp h)
  rw [UInt32.toNat_shiftRight, shiftRight_eq_div_pow]
  exact div_lt_self (pos_of_ne_zero hpos) (by decide)

def bitsSet16 (x : UInt16) : UInt16 :=
  let x := ((x &&& 0xaaaa) >>> 1) + (x &&& 0x5555)
  let x := ((x &&& 0xcccc) >>> 2) + (x &&& 0x3333)
  let x := ((x &&& 0xF0F0) >>> 4) + (x &&& 0x0F0F)
  ((x &&& 0xFF00) >>> 8) + (x &&& 0x00FF)

namespace Device

variable (d : Device)

def blockCount : UInt32 := d.size / d.bytesPerBlock

def blockIndexMask : Option UInt32 := shiftMask 0x80000000 d.blockCount

/-- `phySectAddr` -/
def address (index : UInt16) : UInt32 := d.start + index.toUInt32 * d.bytesPerBlock

def isFreeAt (address : UInt32) : Bool :=
  match d.getSectorMetadata address with
  | some metadata => metadata.isBlockFree
  | none => false

/-- The loop of `GetNextFreeBlock` over the indexes from `i` down. -/
def tryIndexes (cur : UInt16) (maxBits : ℕ) : ℕ → Option UInt32
  | 0 => none
  | i + 1 =>
    let index := UInt16.ofNat (i + 1) ||| cur
    if (bitsSet16 index).toNat = maxBits ∧ d.isFreeAt (d.address index) then
      some (d.address index)
    else tryIndexes cur maxBits i

/-- The loop of `GetNextFreeBlock` over the number of bits. -/
def searchRound (maxValue : ℕ) (cur : UInt16) (maxBits : ℕ) : Option UInt32 :=
  match d.tryIndexes cur maxBits (maxValue - 1) with
  | some address => some address
  | none =>
    if 2 ^ (maxBits + 1) > maxValue then none else searchRound maxValue cur (maxBits + 1)
termination_by maxValue - maxBits
decreasing_by
  have := @Nat.lt_two_pow_self (maxBits + 1)
  omega

/-- `maxValue` is a word of 16 bits. -/
def maxValue (mask : UInt32) : UInt16 := (mask <<< 1).toUInt16

def virtBlockAddress (virtAddress : UInt32) : UInt32 :=
  d.bytesPerBlock * (virtAddress / d.bytesPerBlock)

def getNextFreeBlock (mask virtAddress : UInt32) : Option UInt32 := do
  let metaVirt ← d.getSectorMetadata (d.virtBlockAddress virtAddress)
  let maxValue := (maxValue mask).toNat
  let first := metaVirt.getBlockMapOffset
  match d.searchRound maxValue first ((bitsSet16 first).toNat + 1) with
  | some address => some address
  | none =>
    let second := ~~~metaVirt.blockOffset1
    d.searchRound maxValue second ((bitsSet16 second).toNat + 1)

/-- `phyNewBlockIndex`, with which `ReplaceBlock` calls `SetBlockMapOffset`. -/
def newBlockIndex (phyNewBlockAddress : UInt32) : UInt32 :=
  (phyNewBlockAddress - d.start) / d.bytesPerBlock

/-! ## What the search is for -/

def IsFree (m : ℕ) : Prop := m < d.blockCount.toNat ∧ d.isFreeAt (d.address (UInt16.ofNat m))

/-- A free block whose index, other than 0, is a strict superset of a stored index. -/
def FreeSuperset (metaVirt : SectorMetadata) : Prop :=
  ∃ m : UInt16, m ≠ 0 ∧ d.IsFree m.toNat ∧
    ∃ second, Covers m (metaVirt.storedIndex second) ∧ m ≠ metaVirt.storedIndex second

/-- The block found is free, its index can be stored in the virtual block by clearing bits and is
then the one that the virtual block refers to; and where no block is found, none could be stored. -/
structure FindsFree (mask virtAddress : UInt32) (metaVirt : SectorMetadata) : Prop where
  sound : ∀ found, d.getNextFreeBlock mask virtAddress = some found →
    ∃ m : UInt16, d.newBlockIndex found = m.toUInt32 ∧ found = d.address m ∧ d.IsFree m.toNat ∧
      ClearsBits metaVirt (metaVirt.setBlockMapOffset m.toUInt32) ∧
      (metaVirt.setBlockMapOffset m.toUInt32).getBlockMapOffset = m
  complete : d.getNextFreeBlock mask virtAddress = none → ¬ d.FreeSuperset metaVirt

/-- The block at this address can be stored in the virtual block: its index has all the bits of a
stored index. -/
def Storable (metaVirt : SectorMetadata) (address : UInt32) : Prop :=
  ∃ m : UInt16, address = d.address m ∧ m.toNat < d.blockCount.toNat ∧
    (Covers m (metaVirt.storedIndex false) ∨ Covers m (metaVirt.storedIndex true))

/-! ## The order of the search -/

/-- The number of bits of the index that is tried for `i`. -/
def bitsAt (cur : UInt16) (i : ℕ) : ℕ := (bitsSet16 (UInt16.ofNat i ||| cur)).toNat

/-- In a round that begins with this number of bits the search stops at `i`, unless it stopped
before. -/
structure Tries (maxValue : ℕ) (cur : UInt16) (maxBits i : ℕ) : Prop where
  pos : 0 < i
  lt : i < maxValue
  minBits : maxBits ≤ bitsAt cur i
  counted : bitsAt cur i = maxBits ∨ 2 ^ bitsAt cur i ≤ maxValue
  free : d.isFreeAt (d.address (UInt16.ofNat i ||| cur)) = true

/-- Within a round `i'` comes before `i`: fewer bits first, then the larger one. -/
def Before (cur : UInt16) (i' i : ℕ) : Prop :=
  bitsAt cur i' < bitsAt cur i ∨ bitsAt cur i' = bitsAt cur i ∧ i < i'

def roundIndex (metaVirt : SectorMetadata) : Bool → UInt16
  | false => metaVirt.getBlockMapOffset
  | true => metaVirt.storedIndex true

/-- The search stops at `i` in this round, unless it stopped before. -/
def TriesIn (mask : UInt32) (metaVirt : SectorMetadata) (round2 : Bool) : ℕ → Prop :=
  d.Tries (maxValue mask).toNat (roundIndex metaVirt round2)
    ((bitsSet16 (roundIndex metaVirt round2)).toNat + 1)

def triedAddress (metaVirt : SectorMetadata) (round2 : Bool) (i : ℕ) : UInt32 :=
  d.address (UInt16.ofNat i ||| roundIndex metaVirt round2)

def StopsBefore (mask : UInt32) (metaVirt : SectorMetadata) (round2 : Bool) (i : ℕ) : Prop :=
  (∃ i', d.TriesIn mask metaVirt round2 i' ∧ Before (roundIndex metaVirt round2) i' i) ∨
    (round2 = true ∧ ∃ i', d.TriesIn mask metaVirt false i')

end Device

/-! ## Counting bits -/

/-- The sums of neighbouring fields of a byte. -/
def foldFields (low high : ℕ) (s x : ℕ) : ℕ := ((x &&& high) >>> s) + (x &&& low)

/-- Two bytes are folded side by side. -/
theorem foldFields_split {low high s a b : ℕ} (hlow : low < 256) (hhigh : high < 256)
    (hb : b < 256) (hdvd : 2 ^ s ∣ a &&& high) :
    foldFields (256 * low + low) (256 * high + high) s (256 * a + b) =
      256 * foldFields low high s a + foldFields low high s b := by
  have hand (mask : ℕ) (hmask : mask < 256) :
      (256 * a + b) &&& (256 * mask + mask) = 256 * (a &&& mask) + (b &&& mask) := by
    have hdiv := @Nat.and_div_two_pow (256 * a + b) (256 * mask + mask) 8
    have hmod := @Nat.and_mod_two_pow (256 * a + b) (256 * mask + mask) 8
    rw [show (256 * a + b) / 2 ^ 8 = a by omega,
      show (256 * mask + mask) / 2 ^ 8 = mask by omega] at hdiv
    rw [show (256 * a + b) % 2 ^ 8 = b by omega,
      show (256 * mask + mask) % 2 ^ 8 = mask by omega] at hmod
    omega
  obtain ⟨q, hq⟩ := hdvd
  have hshift : (256 * (2 ^ s * q) + (b &&& high)) / 2 ^ s = 256 * q + (b &&& high) / 2 ^ s := by
    rw [show 256 * (2 ^ s * q) = 2 ^ s * (256 * q) by ring, Nat.mul_add_div (Nat.two_pow_pos s)]
  have hfold : foldFields low high s a = q + (a &&& low) := by
    rw [foldFields, hq, shiftRight_eq_div_pow, Nat.mul_div_cancel_left _ (Nat.two_pow_pos s)]
  calc foldFields (256 * low + low) (256 * high + high) s (256 * a + b)
      = 256 * q + (b &&& high) / 2 ^ s + (256 * (a &&& low) + (b &&& low)) := by
        rw [foldFields, hand low hlow, hand high hhigh, hq, shiftRight_eq_div_pow, hshift]
    _ = 256 * (q + (a &&& low)) + ((b &&& high) / 2 ^ s + (b &&& low)) := by ring
    _ = 256 * foldFields low high s a + foldFields low high s b := by
        rw [hfold, foldFields, shiftRight_eq_div_pow]

theorem byte_folds : ∀ a < 256, 2 ^ 1 ∣ a &&& 0xaa ∧
    2 ^ 2 ∣ foldFields 0x55 0xaa 1 a &&& 0xcc ∧
    2 ^ 4 ∣ foldFields 0x33 0xcc 2 (foldFields 0x55 0xaa 1 a) &&& 0xF0 ∧
    foldFields 0x55 0xaa 1 a < 256 ∧
    foldFields 0x33 0xcc 2 (foldFields 0x55 0xaa 1 a) < 256 ∧
    foldFields 0x0F 0xF0 4 (foldFields 0x33 0xcc 2 (foldFields 0x55 0xaa 1 a)) = weight 8 a := by
  decide +kernel

theorem toNat_fold (x low high shift : UInt16)
    (hlt : foldFields low.toNat high.toNat (shift.toNat % 16) x.toNat < 2 ^ 16) :
    (((x &&& high) >>> shift) + (x &&& low)).toNat =
      foldFields low.toNat high.toNat (shift.toNat % 16) x.toNat := by
  rw [UInt16.toNat_add, UInt16.toNat_shiftRight, UInt16.toNat_and, UInt16.toNat_and]
  exact mod_eq_of_lt hlt

theorem foldFields_bytes {a b : ℕ} (ha : a < 256) (hb : b < 256) :
    foldFields 0x00FF 0xFF00 8 (256 * a + b) = a + b := by
  have hhigh : (256 * a + b) &&& 0xFF00 = 256 * a := by
    have hdiv := @Nat.and_div_two_pow (256 * a + b) 0xFF00 8
    have hmod := @Nat.and_mod_two_pow (256 * a + b) 0xFF00 8
    rw [show (256 * a + b) / 2 ^ 8 = a by omega, show 0xFF00 / 2 ^ 8 = 2 ^ 8 - 1 by decide,
      and_two_pow_sub_one_eq_mod, mod_eq_of_lt ha] at hdiv
    rw [show 0xFF00 % 2 ^ 8 = 0 by decide, and_zero] at hmod
    omega
  have hlow : (256 * a + b) &&& 0x00FF = b := by
    change (256 * a + b) &&& (2 ^ 8 - 1) = b
    rw [and_two_pow_sub_one_eq_mod]
    omega
  rw [foldFields, hhigh, hlow, Nat.shiftRight_eq_div_pow, Nat.mul_div_cancel_left _ (by decide)]

theorem toNat_bitsSet16 (x : UInt16) : (bitsSet16 x).toNat = weight 16 x.toNat := by
  dsimp only [bitsSet16]
  have hx := x.toNat_lt
  obtain ⟨a, b, ha, hb, hab⟩ : ∃ a b, a < 256 ∧ b < 256 ∧ x.toNat = 256 * a + b :=
    ⟨x.toNat / 256, x.toNat % 256, by omega, by omega, by omega⟩
  obtain ⟨ha₁, ha₂, ha₄, hlta₁, hlta₂, hweighta⟩ := byte_folds a ha
  obtain ⟨-, -, -, hltb₁, hltb₂, hweightb⟩ := byte_folds b hb
  have hweight (c : ℕ) : weight 8 c ≤ 8 := List.count_le_length.trans_eq (length_bitsOf 8 c)
  have h₁ : (((x &&& 0xaaaa) >>> 1) + (x &&& 0x5555)).toNat =
      256 * foldFields 0x55 0xaa 1 a + foldFields 0x55 0xaa 1 b := by
    have hsplit := @foldFields_split 0x55 0xaa 1 a b (by decide) (by decide) hb ha₁
    rw [← hsplit, ← hab]
    exact toNat_fold x 0x5555 0xaaaa 1 (by rw [hab]; exact hsplit.trans_lt (by omega))
  generalize ((x &&& 0xaaaa) >>> 1) + (x &&& 0x5555) = x₁ at h₁ ⊢
  have h₂ : (((x₁ &&& 0xcccc) >>> 2) + (x₁ &&& 0x3333)).toNat =
      256 * foldFields 0x33 0xcc 2 (foldFields 0x55 0xaa 1 a) +
        foldFields 0x33 0xcc 2 (foldFields 0x55 0xaa 1 b) := by
    have hsplit := @foldFields_split 0x33 0xcc 2 _ _ (by decide) (by decide) hltb₁ ha₂
    rw [← hsplit, ← h₁]
    exact toNat_fold x₁ 0x3333 0xcccc 2 (by rw [h₁]; exact hsplit.trans_lt (by omega))
  generalize ((x₁ &&& 0xcccc) >>> 2) + (x₁ &&& 0x3333) = x₂ at h₂ ⊢
  have h₄ : (((x₂ &&& 0xF0F0) >>> 4) + (x₂ &&& 0x0F0F)).toNat = 256 * weight 8 a + weight 8 b := by
    have hsplit := @foldFields_split 0x0F 0xF0 4 _ _ (by decide) (by decide) hltb₂ ha₄
    rw [← hweighta, ← hweightb, ← hsplit, ← h₂]
    apply toNat_fold x₂ 0x0F0F 0xF0F0 4
    have := hweight a
    have := hweight b
    rw [h₂]
    exact hsplit.trans_lt (by omega)
  generalize ((x₂ &&& 0xF0F0) >>> 4) + (x₂ &&& 0x0F0F) = x₄ at h₄ ⊢
  have hbytes := @foldFields_bytes (weight 8 a) (weight 8 b) ((hweight a).trans_lt (by decide))
    ((hweight b).trans_lt (by decide))
  calc
    (((x₄ &&& 0xFF00) >>> 8) + (x₄ &&& 0x00FF)).toNat = foldFields 0x00FF 0xFF00 8 x₄.toNat := by
      apply toNat_fold x₄ 0x00FF 0xFF00 8
      rw [h₄]
      have := hweight a
      have := hweight b
      exact hbytes.trans_lt (by omega)
    _ = weight 8 a + weight 8 b := by rw [h₄, hbytes]
    _ = weight 8 (x.toNat / 2 ^ 8) + weight 8 x.toNat := by
      rw [← weight_mod 8 x.toNat, hab, show (256 * a + b) / 2 ^ 8 = a by omega,
        show (256 * a + b) % 2 ^ 8 = b by omega]
    _ = weight 16 x.toNat := (weight_add 8 8 x.toNat).symm

/-! ## The mask -/

/-- The mask is the highest power of two below the number of blocks. -/
theorem shiftMask_spec {e : ℕ} {mask blockCount : UInt32} (hmask : mask.toNat = 2 ^ e)
    (htwo : 2 ≤ blockCount.toNat) (hle : blockCount.toNat ≤ 2 ^ (e + 1)) :
    ∃ k mask', shiftMask mask blockCount = some mask' ∧ mask'.toNat = 2 ^ k ∧ k ≤ e ∧
      2 ^ k < blockCount.toNat ∧ blockCount.toNat ≤ 2 ^ (k + 1) := by
  induction e generalizing mask with
  | zero =>
    rw [shiftMask, if_neg]
    · exact ⟨0, mask, rfl, hmask, le_rfl, by omega, hle⟩
    · intro hge
      have := le_iff_toNat_le.mp hge
      omega
  | succ e ih =>
    rw [shiftMask]
    split_ifs with hge hzero
    · rw [hzero, UInt32.toNat_zero] at hmask
      exact absurd hmask.symm (Nat.two_pow_pos _).ne'
    · have hhalf : (mask >>> 1).toNat = 2 ^ e := by
        rw [UInt32.toNat_shiftRight, hmask, shiftRight_eq_div_pow, pow_succ]
        exact Nat.mul_div_cancel _ (by decide)
      have hge' := le_iff_toNat_le.mp hge
      obtain ⟨k, mask', hrun, hmask', hk, hlow, hhigh⟩ := ih hhalf (hge'.trans_eq hmask)
      exact ⟨k, mask', hrun, hmask', hk.trans e.le_succ, hlow, hhigh⟩
    · have hlt := not_le.mp fun hle ↦ hge (le_iff_toNat_le.mpr hle)
      exact ⟨e + 1, mask, rfl, hmask, le_rfl, hmask ▸ hlt, hle⟩

theorem shiftMask_one {e : ℕ} {mask : UInt32} (hmask : mask.toNat = 2 ^ e) :
    shiftMask mask 1 = some 0 := by
  induction e generalizing mask with
  | zero =>
    obtain rfl : mask = 1 := UInt32.toNat_inj.mp hmask
    rw [shiftMask, if_pos (by decide), if_neg (by decide), shiftMask, if_neg (by decide)]
    rfl
  | succ e ih =>
    have hhalf : (mask >>> 1).toNat = 2 ^ e := by
      rw [UInt32.toNat_shiftRight, hmask, shiftRight_eq_div_pow, pow_succ]
      exact Nat.mul_div_cancel _ (by decide)
    rw [shiftMask, if_pos, if_neg, ih hhalf]
    · intro hzero
      rw [hzero, UInt32.toNat_zero] at hmask
      exact absurd hmask.symm (Nat.two_pow_pos _).ne'
    · rw [ge_iff_le, le_iff_toNat_le, hmask]
      exact Nat.two_pow_pos _

theorem toNat_maxValue {k : ℕ} {mask : UInt32} (hk : k < 16) (hmask : mask.toNat = 2 ^ k) :
    (Device.maxValue mask).toNat = 2 ^ (k + 1) % 2 ^ 16 := by
  have hlt : 2 ^ (k + 1) < 2 ^ 32 := Nat.pow_lt_pow_right (by decide) (by omega)
  rw [Device.maxValue, toNat_toUInt16, UInt32.toNat_shiftLeft, hmask, shiftLeft_eq]
  change 2 ^ k * 2 % 2 ^ 32 % 2 ^ 16 = _
  rw [← pow_succ, mod_eq_of_lt hlt]

/-! ## The loops -/

namespace Device

variable {d : Device} {cur : UInt16} {mask virtAddress : UInt32} {metaVirt : SectorMetadata}

variable {found : UInt32} {maxBits : ℕ}

theorem tryIndexes_some {n : ℕ} (h : d.tryIndexes cur maxBits n = some found) :
    ∃ i, 0 < i ∧ i ≤ n ∧ found = d.address (UInt16.ofNat i ||| cur) ∧ d.isFreeAt found = true ∧
      bitsAt cur i = maxBits ∧ ∀ i', i < i' → i' ≤ n → bitsAt cur i' = maxBits →
        d.isFreeAt (d.address (UInt16.ofNat i' ||| cur)) = false := by
  induction n with
  | zero => cases h
  | succ n ih =>
    rw [tryIndexes] at h
    split_ifs at h with hhit
    · cases h
      exact ⟨n + 1, n.succ_pos, le_rfl, rfl, hhit.2, hhit.1, fun i' hlt hle ↦ by omega⟩
    · obtain ⟨i, hpos, hi, hfound, hfree, hbits, hbefore⟩ := ih h
      refine ⟨i, hpos, hi.trans n.le_succ, hfound, hfree, hbits, ?_⟩
      intro i' hlt hle hbits'
      rcases le_succ_iff.mp hle with hle | rfl
      · exact hbefore i' hlt hle hbits'
      · rw [not_and] at hhit
        exact Bool.eq_false_of_not_eq_true (hhit hbits')

theorem tryIndexes_none {n i : ℕ} (h : d.tryIndexes cur maxBits n = none) (hpos : 0 < i)
    (hi : i ≤ n) (hbits : bitsAt cur i = maxBits) :
    d.isFreeAt (d.address (UInt16.ofNat i ||| cur)) = false := by
  induction n with
  | zero => omega
  | succ n ih =>
    rw [tryIndexes] at h
    split_ifs at h with hhit
    rcases le_succ_iff.mp hi with hi | rfl
    · exact ih h hi
    · rw [not_and] at hhit
      exact Bool.eq_false_of_not_eq_true (hhit hbits)

/-- Where nothing is found for a number of bits, the round goes on with more. -/
theorem Tries.next {maxValue i : ℕ} (h : d.Tries maxValue cur maxBits i)
    (htry : d.tryIndexes cur maxBits (maxValue - 1) = none) :
    d.Tries maxValue cur (maxBits + 1) i := by
  have hne : bitsAt cur i ≠ maxBits := by
    intro hbits
    have hlt := h.lt
    have hfree := tryIndexes_none htry h.pos (by omega) hbits
    rw [h.free] at hfree
    cases hfree
  exact ⟨h.pos, h.lt, succ_le_of_lt (h.minBits.lt_of_ne' hne),
    Or.inr (h.counted.resolve_left hne), h.free⟩

/-- What a round finds is tried in it, and nothing before. -/
theorem searchRound_some {maxValue : ℕ} (h : d.searchRound maxValue cur maxBits = some found) :
    ∃ i, d.Tries maxValue cur maxBits i ∧ found = d.address (UInt16.ofNat i ||| cur) ∧
      ∀ i', d.Tries maxValue cur maxBits i' → ¬ Before cur i' i := by
  induction maxBits using searchRound.induct d maxValue cur with
  | case1 maxBits address htry =>
    rw [searchRound, htry] at h
    cases h
    obtain ⟨i, hpos, hi, rfl, hfree, hbits, hbefore⟩ := tryIndexes_some htry
    refine ⟨i, ⟨hpos, by omega, hbits.ge, Or.inl hbits, hfree⟩, rfl, ?_⟩
    rintro i' htries (hfewer | ⟨hsame, hlt⟩)
    · have := htries.minBits
      omega
    · have hi' := htries.lt
      have hnot := hbefore i' hlt (by omega) (hsame.trans hbits)
      rw [htries.free] at hnot
      cases hnot
  | case2 maxBits htry hlast =>
    rw [searchRound, htry] at h
    dsimp only at h
    rw [if_pos hlast] at h
    cases h
  | case3 maxBits htry hmore ih =>
    rw [searchRound, htry] at h
    dsimp only at h
    rw [if_neg hmore] at h
    obtain ⟨i, htries, hfound, hbefore⟩ := ih h
    refine ⟨i, ⟨htries.pos, htries.lt, (le_succ _).trans htries.minBits, ?_, htries.free⟩, hfound,
      fun i' htries' ↦ hbefore i' (htries'.next htry)⟩
    rcases htries.counted with hbits | hcounted
    · exact Or.inr (by rw [hbits]; exact not_lt.mp hmore)
    · exact Or.inr hcounted

/-- A round that finds nothing has tried each number of bits that the indexes can have. -/
theorem searchRound_none {maxValue i : ℕ} (h : d.searchRound maxValue cur maxBits = none) :
    ¬ d.Tries maxValue cur maxBits i := by
  induction maxBits using searchRound.induct d maxValue cur with
  | case1 maxBits address htry =>
    rw [searchRound, htry] at h
    cases h
  | case2 maxBits htry hlast =>
    intro htries
    have hmore := htries.next htry
    have hmin := Nat.pow_le_pow_right (n := 2) (by decide) hmore.minBits
    rcases hmore.counted with hbits | hcounted
    · rcases htries.counted with hfirst | hcounted
      · omega
      · omega
    · omega
  | case3 maxBits htry hmore ih =>
    rw [searchRound, htry] at h
    dsimp only at h
    rw [if_neg hmore] at h
    exact fun htries ↦ ih h (htries.next htry)

theorem searchRound_zero : d.searchRound 0 cur maxBits = none := by
  rw [searchRound]
  exact if_pos (Nat.two_pow_pos _)

/-! ## The search -/

section

variable (hvirt : d.getSectorMetadata (d.virtBlockAddress virtAddress) = some metaVirt)

include hvirt

/-- What the search finds is tried, and it does not stop before. -/
theorem getNextFreeBlock_some (h : d.getNextFreeBlock mask virtAddress = some found) :
    ∃ round2 i, d.TriesIn mask metaVirt round2 i ∧ found = d.triedAddress metaVirt round2 i ∧
      ¬ d.StopsBefore mask metaVirt round2 i := by
  unfold getNextFreeBlock at h
  simp only [hvirt, bind_eq_bind, bind_some] at h
  split at h
  · next hfirst =>
    cases h
    obtain ⟨i, htries, hfound, hbefore⟩ := searchRound_some hfirst
    refine ⟨false, i, htries, hfound, ?_⟩
    rintro (⟨i', htries', hbefore'⟩ | ⟨hround, -⟩)
    · exact hbefore i' htries' hbefore'
    · cases hround
  · next hfirst =>
    obtain ⟨i, htries, hfound, hbefore⟩ := searchRound_some h
    refine ⟨true, i, htries, hfound, ?_⟩
    rintro (⟨i', htries', hbefore'⟩ | ⟨-, i', htries'⟩)
    · exact hbefore i' htries' hbefore'
    · exact searchRound_none hfirst htries'

theorem getNextFreeBlock_none (h : d.getNextFreeBlock mask virtAddress = none) {round2 : Bool}
    {i : ℕ} : ¬ d.TriesIn mask metaVirt round2 i := by
  unfold getNextFreeBlock at h
  simp only [hvirt, bind_eq_bind, bind_some] at h
  split at h
  · cases h
  · next hfirst =>
    cases round2 with
    | false => exact searchRound_none hfirst
    | true => exact searchRound_none h

end

theorem roundIndex_eq (metadata : SectorMetadata) (round2 : Bool) :
    roundIndex metadata round2 = metadata.storedIndex false ∨
      roundIndex metadata round2 = metadata.storedIndex true := by
  cases round2 with
  | false =>
    rw [roundIndex, SectorMetadata.getBlockMapOffset]
    split_ifs
    · exact Or.inl rfl
    · exact Or.inr rfl
  | true => exact Or.inr rfl

/-- Of a stored index that has strict supersets, the search tries the supersets. -/
theorem storedIndex_tried {second : Bool} {m : UInt16}
    (hcovers : Covers m (metaVirt.storedIndex second)) (hne : m ≠ metaVirt.storedIndex second) :
    ∃ round2, roundIndex metaVirt round2 = metaVirt.storedIndex second := by
  cases second with
  | true => exact ⟨true, rfl⟩
  | false =>
    refine ⟨false, ?_⟩
    by_cases hdead : metaVirt.blockOffset0 = 0
    · have hstored : metaVirt.storedIndex false = ~~~(0 : UInt16) := by
        rw [← hdead]
        rfl
      rw [hstored] at hcovers hne
      exact absurd (covers_dead.mp hcovers) hne
    · exact if_pos hdead

theorem toNat_blockCount : d.blockCount.toNat = d.size.toNat / d.bytesPerBlock.toNat :=
  UInt32.toNat_div _ _

theorem toNat_address (index : UInt16) : (d.address index).toNat =
    (d.start.toNat + index.toNat * d.bytesPerBlock.toNat) % 2 ^ 32 := by
  rw [address, UInt32.toNat_add, UInt32.toNat_mul, UInt16.toNat_toUInt32, add_mod_mod]

theorem newBlockIndex_address {m : UInt16} (hlt : m.toNat < d.blockCount.toNat) :
    d.newBlockIndex (d.address m) = m.toUInt32 := by
  have hpos := d.bytesPerBlock_pos
  have hrange := d.range
  have haddress := d.toNat_address m
  rw [toNat_blockCount, Nat.lt_div_iff_mul_lt' d.whole, Nat.mul_comm] at hlt
  rw [mod_eq_of_lt (by omega)] at haddress
  have hoffset : (d.address m - d.start).toNat = m.toNat * d.bytesPerBlock.toNat := by
    rw [UInt32.toNat_sub_of_le _ _ (le_iff_toNat_le.mpr (by omega))]
    omega
  apply UInt32.toNat_inj.mp
  rw [newBlockIndex, UInt32.toNat_div, hoffset, UInt16.toNat_toUInt32, Nat.mul_div_cancel _ hpos]

/-- An address with metadata that an index gives without wrapping is that of its block. -/
theorem lt_blockCount_of_free {c : UInt16} (hfree : d.isFreeAt (d.address c) = true)
    (hlt : c.toNat * d.bytesPerBlock.toNat < 2 ^ 32) : c.toNat < d.blockCount.toNat := by
  have haddress := d.toNat_address c
  obtain ⟨metadata, hmetadata⟩ : ∃ metadata, d.getSectorMetadata (d.address c) = some metadata := by
    apply ne_none_iff_exists'.mp
    intro hnone
    rw [isFreeAt, hnone] at hfree
    cases hfree
  obtain ⟨hlow, hhigh⟩ := d.inside _ _ hmetadata
  have hrange := d.range
  rw [toNat_blockCount, Nat.lt_div_iff_mul_lt' d.whole, Nat.mul_comm]
  omega

/-- A tried index that stays in the address space can be stored. -/
theorem storable_of_lt {round2 : Bool} {i : ℕ} (htries : d.TriesIn mask metaVirt round2 i)
    (hlt : (UInt16.ofNat i ||| roundIndex metaVirt round2).toNat * d.bytesPerBlock.toNat < 2 ^ 32) :
    d.Storable metaVirt (d.triedAddress metaVirt round2 i) := by
  have hcovers := covers_or_left (UInt16.ofNat i) (roundIndex metaVirt round2)
  refine ⟨_, rfl, lt_blockCount_of_free htries.free hlt, ?_⟩
  rcases roundIndex_eq metaVirt round2 with hround | hround
  · rw [hround] at hcovers ⊢
    exact Or.inl hcovers
  · rw [hround] at hcovers ⊢
    exact Or.inr hcovers

theorem eq_of_not_stopsBefore {round round' : Bool} {i i' : ℕ}
    (htries : d.TriesIn mask metaVirt round i) (hfirst : ¬ d.StopsBefore mask metaVirt round i)
    (htries' : d.TriesIn mask metaVirt round' i')
    (hfirst' : ¬ d.StopsBefore mask metaVirt round' i') : round = round' ∧ i = i' := by
  have hround : round = round' := by
    cases round with
    | false =>
      cases round' with
      | false => rfl
      | true => exact absurd (Or.inr ⟨rfl, i, htries⟩) hfirst'
    | true =>
      cases round' with
      | false => exact absurd (Or.inr ⟨rfl, i', htries'⟩) hfirst
      | true => rfl
  subst hround
  refine ⟨rfl, ?_⟩
  by_contra hne
  have hnot : ¬ Before (roundIndex metaVirt round) i' i := fun h ↦ hfirst (Or.inl ⟨i', htries', h⟩)
  have hnot' : ¬ Before (roundIndex metaVirt round) i i' := fun h ↦ hfirst' (Or.inl ⟨i, htries, h⟩)
  rw [Before] at hnot hnot'
  omega

/-- The mask that `InitializeDevice` leaves gives a power of two at least the number of blocks, and
0 where that does not fit in a word. -/
theorem blockIndexMask_spec (hmask : d.blockIndexMask = some mask) :
    (d.blockCount.toNat ≤ 1 ∧ (maxValue mask).toNat = 0) ∨
      (d.blockCount.toNat ≤ 0x8000 ∧ d.blockCount.toNat ≤ (maxValue mask).toNat ∧
        ∃ k, (maxValue mask).toNat = 2 ^ k) ∨
      (0x8000 < d.blockCount.toNat ∧ (maxValue mask).toNat = 0) := by
  have hpos : 0 < d.blockCount.toNat := by rw [toNat_blockCount]; exact d.blockCount_pos
  have hle : d.blockCount.toNat ≤ 65535 := by rw [toNat_blockCount]; exact d.blockCount_le
  have hstart : (0x80000000 : UInt32).toNat = 2 ^ 31 := rfl
  unfold blockIndexMask at hmask
  by_cases hone : d.blockCount.toNat = 1
  · left
    obtain hone' : d.blockCount = 1 := UInt32.toNat_inj.mp hone
    rw [hone', shiftMask_one hstart] at hmask
    cases hmask
    exact ⟨hone.le, rfl⟩
  · right
    obtain ⟨k, mask', hrun, hmask', -, hlow, hhigh⟩ :=
      @shiftMask_spec 31 _ d.blockCount hstart (by omega) (by omega)
    rw [hrun] at hmask
    cases hmask
    have hk : k < 16 := by
      by_contra hge
      have := Nat.pow_le_pow_right (n := 2) (by decide) (not_lt.mp hge)
      omega
    have hvalue := toNat_maxValue hk hmask'
    by_cases hlast : k = 15
    · right
      subst hlast
      exact ⟨hlow, hvalue⟩
    · left
      have hk' : k + 1 ≤ 15 := by omega
      have hword : 2 ^ (k + 1) ≤ 2 ^ 15 := Nat.pow_le_pow_right (by decide) hk'
      rw [mod_eq_of_lt (hword.trans_lt (by decide))] at hvalue
      exact ⟨hhigh.trans hword, hhigh.trans_eq hvalue.symm, k + 1, hvalue⟩

theorem blockIndexMask_isSome (d : Device) : ∃ mask, d.blockIndexMask = some mask := by
  have hpos : 0 < d.blockCount.toNat := by rw [toNat_blockCount]; exact d.blockCount_pos
  have hle : d.blockCount.toNat ≤ 65535 := by rw [toNat_blockCount]; exact d.blockCount_le
  have hstart : (0x80000000 : UInt32).toNat = 2 ^ 31 := rfl
  by_cases hone : d.blockCount.toNat = 1
  · obtain hone' : d.blockCount = 1 := UInt32.toNat_inj.mp hone
    exact ⟨0, by rw [blockIndexMask, hone', shiftMask_one hstart]⟩
  · obtain ⟨k, mask, hrun, -⟩ := @shiftMask_spec 31 _ d.blockCount hstart (by omega) (by omega)
    exact ⟨mask, hrun⟩

section

variable (hvirt : d.getSectorMetadata (d.virtBlockAddress virtAddress) = some metaVirt)

include hvirt

/-- What the search finds is as it should be just where it can be stored. -/
theorem found_iff_storable (h : d.getNextFreeBlock mask virtAddress = some found) :
    (∃ m : UInt16, d.newBlockIndex found = m.toUInt32 ∧ found = d.address m ∧ d.IsFree m.toNat ∧
      ClearsBits metaVirt (metaVirt.setBlockMapOffset m.toUInt32) ∧
      (metaVirt.setBlockMapOffset m.toUInt32).getBlockMapOffset = m) ↔
      d.Storable metaVirt found := by
  constructor
  · rintro ⟨m, -, hfound, hfree, hclears, -⟩
    exact ⟨m, hfound, hfree.1, covers_of_clearsBits hclears⟩
  · rintro ⟨m, hfound, hlt, hcovers⟩
    obtain ⟨round2, i, htries, haddress, -⟩ := getNextFreeBlock_some hvirt h
    have hfree : d.isFreeAt found = true := haddress ▸ htries.free
    have hm : m ≠ 0xFFFF := by
      rintro rfl
      have hle : d.blockCount.toNat ≤ 65535 := by rw [toNat_blockCount]; exact d.blockCount_le
      exact absurd hlt (not_lt.mpr hle)
    refine ⟨m, ?_, hfound, ⟨hlt, ?_⟩, setBlockMapOffset_spec hcovers hm⟩
    · rw [hfound, newBlockIndex_address hlt]
    · rwa [UInt16.ofNat_toNat, ← hfound]

/-- Where the bound of the search is not 0, the search finds nothing only if there is nothing. -/
theorem getNextFreeBlock_complete
    (hmask : d.blockIndexMask = some mask) (hcount : d.blockCount.toNat ≤ 0x8000)
    (h : d.getNextFreeBlock mask virtAddress = none) : ¬ d.FreeSuperset metaVirt := by
  rintro ⟨m, hne, ⟨hm, hfree⟩, second, hcovers, hstrict⟩
  have hpos : 0 < m.toNat := pos_of_ne_zero fun hzero ↦ hne (UInt16.toNat_inj.mp hzero)
  rcases blockIndexMask_spec hmask with ⟨hone, -⟩ | ⟨-, hle, k, hk⟩ | ⟨hlarge, -⟩
  · omega
  · obtain ⟨round2, hround⟩ := storedIndex_tried hcovers hstrict
    apply getNextFreeBlock_none hvirt h
    have hindex : UInt16.ofNat m.toNat ||| roundIndex metaVirt round2 = m := by
      rw [hround, UInt16.ofNat_toNat, UInt16.or_comm]
      exact hcovers
    have hbits : bitsAt (roundIndex metaVirt round2) m.toNat = weight 16 m.toNat := by
      rw [bitsAt, hindex, toNat_bitsSet16]
    have hmin := weight_lt_of_covers hcovers hstrict
    have hmax : weight 16 m.toNat ≤ k := weight_le 16 (by omega)
    refine @Tries.mk d _ _ _ m.toNat hpos (by omega) ?_ (Or.inr ?_) ?_
    · rw [hbits, hround, toNat_bitsSet16]
      exact hmin
    · rw [hbits, hk]
      exact Nat.pow_le_pow_right (by decide) hmax
    · rw [hindex]
      rwa [UInt16.ofNat_toNat] at hfree
  · omega

end

/-- On a device of more blocks than the bound of the search can count, nothing is found. -/
theorem getNextFreeBlock_large (hmask : d.blockIndexMask = some mask)
    (hcount : 0x8000 < d.blockCount.toNat) : d.getNextFreeBlock mask virtAddress = none := by
  have hzero : (maxValue mask).toNat = 0 := by
    rcases blockIndexMask_spec hmask with ⟨hone, -⟩ | ⟨hle, -⟩ | ⟨-, hzero⟩
    · omega
    · omega
    · exact hzero
  unfold getNextFreeBlock
  cases d.getSectorMetadata (d.virtBlockAddress virtAddress) with
  | none => rfl
  | some metaVirt => simp only [bind_eq_bind, bind_some, hzero, searchRound_zero]

end Device

/-! ## Devices of erased blocks -/

def erasedDevice (blocks : ℕ) (hpos : 0 < blocks) (hle : blocks ≤ 65535) : Device where
  start := 0
  size := UInt32.ofNat (blocks * 65536)
  bytesPerBlock := 65536
  getSectorMetadata address :=
    if address.toNat < blocks * 65536 then some erased else none
  bytesPerBlock_pos := by decide
  whole := by
    rw [toNat_ofNat', mod_eq_of_lt (by omega)]
    exact dvd_mul_left _ _
  blockCount_pos := by
    rw [toNat_ofNat', mod_eq_of_lt (by omega)]
    exact (Nat.mul_div_cancel blocks (by decide : 0 < 65536)).symm ▸ hpos
  blockCount_le := by
    rw [toNat_ofNat', mod_eq_of_lt (by omega)]
    exact (Nat.mul_div_cancel blocks (by decide : 0 < 65536)).symm ▸ hle
  range := by
    rw [toNat_ofNat', mod_eq_of_lt (by omega)]
    change 0 + blocks * 65536 ≤ 2 ^ 32
    omega
  inside address metadata h := by
    rw [toNat_ofNat', mod_eq_of_lt (by omega)]
    split_ifs at h with hlt
    exact ⟨zero_le _, by rwa [UInt32.toNat_zero, zero_add]⟩

section Erased

variable {blocks : ℕ} (hpos : 0 < blocks) (hle : blocks ≤ 65535)

theorem erasedDevice_metadata {address : UInt32} (h : address.toNat < blocks * 65536) :
    (erasedDevice blocks hpos hle).getSectorMetadata address = some erased :=
  if_pos h

theorem erasedDevice_blockCount : (erasedDevice blocks hpos hle).blockCount.toNat = blocks := by
  rw [Device.toNat_blockCount]
  change (UInt32.ofNat (blocks * 65536)).toNat / 65536 = blocks
  rw [toNat_ofNat', Nat.mod_eq_of_lt (by omega), Nat.mul_div_cancel _ (by decide)]

theorem erasedDevice_storable {mask : UInt32} {metadata : SectorMetadata} {round2 : Bool} {i : ℕ}
    (htries : (erasedDevice blocks hpos hle).TriesIn mask metadata round2 i) :
    (erasedDevice blocks hpos hle).Storable metadata
      ((erasedDevice blocks hpos hle).triedAddress metadata round2 i) := by
  have hindex := (UInt16.ofNat i ||| Device.roundIndex metadata round2).toNat_lt
  apply Device.storable_of_lt htries
  change _ * 65536 < 2 ^ 32
  omega

end Erased

end MicroFramework.WearLeveling
