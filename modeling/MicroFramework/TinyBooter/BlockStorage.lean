import MicroFramework.Library.ByteMemory

/-!
# Block storage

The block devices of a board by their physical addresses: devices of regions of blocks of one size,
whose ranges of blocks have a use.  The bytes they hold are kept with a mark on those that were
written by request and have been neither verified nor erased since.
-/

namespace MicroFramework.TinyBooter

open Library Nat List

/-! ## Geometry -/

structure BlockRange where
  rangeType : UInt32
  startBlock : ℕ
  endBlock : ℕ
  deriving DecidableEq, Repr

namespace BlockRange

def USAGE_MASK : UInt32 := 0x000000FF

def BLOCKTYPE_CONFIG : UInt32 := 0x40014030

def BLOCKTYPE_CODE : UInt32 := 0xC0001020

def BLOCKTYPE_DEPLOYMENT : UInt32 := 0x40002050

def isConfig (range : BlockRange) : Bool := range.rangeType &&& BLOCKTYPE_CONFIG = BLOCKTYPE_CONFIG

def getBlockUsage (range : BlockRange) : UInt32 := range.rangeType &&& USAGE_MASK

def getBlockCount (range : BlockRange) : ℕ := range.endBlock - range.startBlock + 1

def Has (range : BlockRange) (blockIndex : ℕ) : Prop :=
  range.startBlock ≤ blockIndex ∧ blockIndex ≤ range.endBlock

instance (range : BlockRange) : DecidablePred range.Has :=
  fun _ ↦ inferInstanceAs (Decidable (_ ∧ _))

end BlockRange

def BlockUsage.CONFIG : UInt32 := 0x0030

/-- The ranges follow each other from the block `first` up to the end of the region. -/
def Tiles (first : ℕ) : List BlockRange → ℕ → Prop
  | [], numBlocks => first = numBlocks
  | range :: ranges, numBlocks =>
    range.startBlock = first ∧ first ≤ range.endBlock ∧ Tiles (range.endBlock + 1) ranges numBlocks

instance (first : ℕ) (ranges : List BlockRange) (numBlocks : ℕ) :
    Decidable (Tiles first ranges numBlocks) := by
  induction ranges generalizing first with
  | nil => exact inferInstanceAs (Decidable (_ = _))
  | cons range ranges ih =>
    have := ih (range.endBlock + 1)
    exact inferInstanceAs (Decidable (_ ∧ _ ∧ _))

/-- A region of blocks of one size below the top of the address space, with its ranges. -/
structure BlockRegionInfo where
  start : ℕ
  numBlocks : ℕ
  bytesPerBlock : ℕ
  blockRanges : List BlockRange
  pos : 0 < bytesPerBlock
  bound : start + numBlocks * bytesPerBlock < 2 ^ 32
  tiles : Tiles 0 blockRanges numBlocks

namespace BlockRegionInfo

def endAddress (region : BlockRegionInfo) : ℕ :=
  region.start + region.numBlocks * region.bytesPerBlock

def blockAddress (region : BlockRegionInfo) (blockIndex : ℕ) : ℕ :=
  region.start + blockIndex * region.bytesPerBlock

@[irreducible] def offsetFromBlock (region : BlockRegionInfo) (address : ℕ) : ℕ :=
  (address + 2 ^ 32 - region.start) % 2 ^ 32 % region.bytesPerBlock

@[irreducible] def blockIndexFromAddress (region : BlockRegionInfo) (address : ℕ) : ℕ :=
  (address + 2 ^ 32 - region.start) % 2 ^ 32 / region.bytesPerBlock

def contains (region : BlockRegionInfo) (address : ℕ) : Bool :=
  region.start ≤ address ∧ address < region.endAddress

/-- The index of the first range that ends behind the address, given where the ranges before it end. -/
def findRange (region : BlockRegionInfo) (address endRangeAddr : ℕ) : List BlockRange → Option ℕ
  | [] => none
  | range :: ranges =>
    let endRangeAddr := endRangeAddr + region.bytesPerBlock * range.getBlockCount
    if address < endRangeAddr then some 0
    else (region.findRange address endRangeAddr ranges).map (· + 1)

end BlockRegionInfo

/-- A device: its regions are listed by ascending address. -/
structure BlockDeviceInfo where
  supportsXIP : Bool
  regions : List BlockRegionInfo
  ascending : regions.Pairwise fun region later ↦ region.endAddress ≤ later.start

namespace BlockDeviceInfo

def findRegion (address : ℕ) : List BlockRegionInfo → Option (ℕ × ℕ)
  | [] => none
  | region :: regions =>
    let rangeIndex :=
      if region.contains address then region.findRange address region.start region.blockRanges
      else none
    match rangeIndex with
    | some iRange => some (0, iRange)
    | none => (findRegion address regions).map fun (iRegion, iRange) ↦ (iRegion + 1, iRange)

/-- The indices of the region and of the range that have the address. -/
def findRegionFromAddress (device : BlockDeviceInfo) (address : ℕ) : Option (ℕ × ℕ) :=
  findRegion address device.regions

def Holds (device : BlockDeviceInfo) (address : ℕ) : Prop :=
  ∃ region ∈ device.regions, region.contains address

def Unprotected (device : BlockDeviceInfo) (address : ℕ) : Prop :=
  ∃ region ∈ device.regions, region.contains address ∧ ∃ range ∈ region.blockRanges,
    range.Has (region.blockIndexFromAddress address) ∧ range.isConfig = false

instance (device : BlockDeviceInfo) : DecidablePred device.Unprotected :=
  fun address ↦ inferInstanceAs (Decidable (∃ region ∈ device.regions, region.contains address ∧
    ∃ range ∈ region.blockRanges,
      range.Has (region.blockIndexFromAddress address) ∧ range.isConfig = false))

end BlockDeviceInfo

/-- The first device with the address, its place in the list and the address of the block. -/
def findDeviceForPhysicalAddress (devices : List BlockDeviceInfo) (address : ℕ) :
    Option (ℕ × BlockDeviceInfo × ℕ) :=
  match devices with
  | [] => none
  | device :: devices =>
    match device.regions.find? (·.contains address) with
    | some region =>
      some (0, device, (address - region.start) / region.bytesPerBlock * region.bytesPerBlock +
        region.start)
    | none => (findDeviceForPhysicalAddress devices address).map fun (i, found) ↦ (i + 1, found)

/-! ## Contents -/

/-- What block storage holds, and which bytes were written by request and have been neither verified
nor erased since. -/
structure Storage where
  bytes : Memory
  unverified : ℕ → Bool

namespace Storage

def eraseBlock (device : BlockDeviceInfo) (address : ℕ) (storage : Storage) : Storage × Bool :=
  match device.regions.find? (·.contains address) with
  | none => (storage, false)
  | some region =>
    let first := region.blockAddress (region.blockIndexFromAddress address)
    (⟨fun a ↦ if first ≤ a ∧ a < first + region.bytesPerBlock then 0xFF else storage.bytes a,
      fun a ↦ if first ≤ a ∧ a < first + region.bytesPerBlock then false
        else storage.unverified a⟩, true)

/-- Programming clears bits; it fails at the first byte in which a bit would have to be set. -/
def write (address : ℕ) : List UInt8 → Storage → Storage × Bool
  | [], storage => (storage, true)
  | byte :: rest, storage =>
    if byte &&& ~~~storage.bytes address ≠ 0 then (storage, false)
    else write (address + 1) rest
      { storage with bytes := Function.update storage.bytes address byte }

def isBlockErased (blockStart blockLength : ℕ) (storage : Storage) : Bool :=
  (load storage.bytes blockStart blockLength).all (· = 0xFF)

/-- The bytes count as written by request. -/
def mark (written : ℕ → Prop) [DecidablePred written] (storage : Storage) : Storage :=
  { storage with unverified := fun a ↦ written a || storage.unverified a }

theorem unverified_mark {written : ℕ → Prop} [DecidablePred written] {a : ℕ} {storage : Storage}
    (h : (storage.mark written).unverified a = true) :
    written a ∨ storage.unverified a = true := by
  rcases Bool.or_eq_true_iff.mp h with hnew | hold
  · exact .inl (of_decide_eq_true hnew)
  · exact .inr hold

/-- The bytes from `address` on were part of a verified range. -/
def verify (address length : ℕ) (storage : Storage) : Storage :=
  { storage with
    unverified := fun a ↦ !decide (address ≤ a ∧ a < address + length) && storage.unverified a }

/-- Nothing was marked. -/
structure Shrinks (storage storage' : Storage) : Prop where
  marked : ∀ a, storage'.unverified a = true → storage.unverified a = true

end Storage

/-! ## Where an address is -/

variable {region region' : BlockRegionInfo} {range range' : BlockRange} {ranges : List BlockRange}
  {first numBlocks a blockIndex iRange : ℕ} {device : BlockDeviceInfo}

section

variable (h : Tiles first ranges numBlocks)

include h

theorem Tiles.has (hrange : ranges[iRange]? = some range)
    (hend : blockIndex = range.endBlock + 1) (hlt : blockIndex < numBlocks) :
    ∃ range', ranges[iRange + 1]? = some range' ∧ range'.Has blockIndex := by
  induction ranges generalizing first iRange with
  | nil => simp at hrange
  | cons head ranges ih =>
    obtain ⟨-, -, hrest⟩ := h
    cases iRange with
    | succ iRange => exact ih hrest hrange
    | zero =>
      obtain rfl : head = range := by simpa using hrange
      cases ranges with
      | nil =>
        have hall : head.endBlock + 1 = numBlocks := hrest
        omega
      | cons next ranges =>
        obtain ⟨hstart, hle, -⟩ := hrest
        exact ⟨next, rfl, by omega, by omega⟩

theorem Tiles.le_start (hmem : range ∈ ranges) :
    first ≤ range.startBlock ∧ range.endBlock < numBlocks ∧ range.startBlock ≤ range.endBlock := by
  have hlast : ∀ {ranges first}, Tiles first ranges numBlocks → first ≤ numBlocks := by
    intro ranges
    induction ranges with
    | nil =>
      intro first h
      exact le_of_eq h
    | cons head ranges ih =>
      rintro first ⟨-, hle, hrest⟩
      exact hle.trans ((le_succ _).trans (ih hrest))
  induction ranges generalizing first with
  | nil => cases hmem
  | cons head ranges ih =>
    obtain ⟨hstart, hle, hrest⟩ := h
    rcases mem_cons.mp hmem with rfl | hmem
    · have := hlast hrest
      exact ⟨hstart.ge, by omega, by omega⟩
    · have := ih hrest hmem
      exact ⟨by omega, this.2.1, this.2.2⟩

theorem Tiles.unique (hmem : range ∈ ranges)
    (hmem' : range' ∈ ranges) (hhas : range.Has blockIndex) (hhas' : range'.Has blockIndex) :
    range = range' := by
  induction ranges generalizing first with
  | nil => cases hmem
  | cons head ranges ih =>
    obtain ⟨hstart, hle, hrest⟩ := h
    have hapart : ∀ later ∈ ranges, head.Has blockIndex → ¬later.Has blockIndex := by
      intro later hlater hhead hhas
      have hfirst := (hrest.le_start hlater).1
      have hbefore := hhead.2
      have hbehind := hhas.1
      omega
    rcases mem_cons.mp hmem with heq | hin <;> rcases mem_cons.mp hmem' with heq' | hin'
    · exact heq.trans heq'.symm
    · exact absurd hhas' (hapart range' hin' (heq ▸ hhas))
    · exact absurd hhas (hapart range hin (heq' ▸ hhas'))
    · exact ih hrest hin hin'

end

namespace BlockRegionInfo

theorem contains_iff : region.contains a = true ↔ region.start ≤ a ∧ a < region.endAddress := by
  simp [contains]

theorem blockAddress_succ (region : BlockRegionInfo) (blockIndex : ℕ) :
    region.blockAddress (blockIndex + 1) = region.blockAddress blockIndex + region.bytesPerBlock := by
  rw [blockAddress, blockAddress, Nat.add_mul]
  omega

theorem blockAddress_numBlocks (region : BlockRegionInfo) :
    region.blockAddress region.numBlocks = region.endAddress := rfl

theorem blockAddress_mono (region : BlockRegionInfo) {i j : ℕ} (h : i ≤ j) :
    region.blockAddress i ≤ region.blockAddress j :=
  Nat.add_le_add_left (mul_le_mul_right _ h) _

/-- The distance from the start of the region, which is below it when it does not wrap. -/
theorem distance (h : region.start ≤ a) (hbound : a < 2 ^ 32) :
    (a + 2 ^ 32 - region.start) % 2 ^ 32 = a - region.start := by
  have hshift : a + 2 ^ 32 - region.start = a - region.start + 2 ^ 32 := by omega
  rw [hshift, add_mod_right, mod_eq_of_lt (by omega)]

theorem lt_of_contains (h : region.contains a = true) : a < 2 ^ 32 :=
  (contains_iff.mp h).2.trans region.bound

/-- An address lies behind the start of its block by its offset. -/
theorem address_eq (h : region.contains a = true) :
    region.blockAddress (region.blockIndexFromAddress a) + region.offsetFromBlock a = a := by
  have hstart := (contains_iff.mp h).1
  rw [blockAddress, blockIndexFromAddress, offsetFromBlock, distance hstart (lt_of_contains h)]
  have := div_add_mod' (a - region.start) region.bytesPerBlock
  omega

theorem offset_lt (region : BlockRegionInfo) (a : ℕ) :
    region.offsetFromBlock a < region.bytesPerBlock := by
  rw [offsetFromBlock]
  exact mod_lt _ region.pos

theorem blockIndex_eq (hle : region.blockAddress blockIndex ≤ a)
    (hlt : a < region.blockAddress (blockIndex + 1)) (hbound : a < 2 ^ 32) :
    region.blockIndexFromAddress a = blockIndex := by
  have hstart : region.start ≤ a := (le_add_right _ _).trans hle
  rw [blockIndexFromAddress, distance hstart hbound]
  apply Nat.div_eq_of_lt_le
  · rw [blockAddress] at hle
    omega
  · rw [blockAddress] at hlt
    omega

/-- Only addresses of the region have a block index below its number of blocks. -/
theorem contains_of_blockIndex_lt (hbound : a < 2 ^ 32)
    (h : region.blockIndexFromAddress a < region.numBlocks) : region.contains a = true := by
  rw [blockIndexFromAddress] at h
  have hlt := (div_lt_iff_lt_mul region.pos).mp h
  have hend := region.bound
  by_cases hstart : region.start ≤ a
  · rw [distance hstart hbound] at hlt
    exact contains_iff.mpr ⟨hstart, by rw [endAddress]; omega⟩
  · have hsmall : a + 2 ^ 32 - region.start < 2 ^ 32 := by omega
    rw [mod_eq_of_lt hsmall] at hlt
    omega

theorem blockIndex_lt (h : region.contains a = true) :
    region.blockIndexFromAddress a < region.numBlocks := by
  have hmem := contains_iff.mp h
  rw [blockIndexFromAddress, distance hmem.1 (lt_of_contains h), div_lt_iff_lt_mul region.pos]
  have := hmem.2
  rw [endAddress] at this
  omega

theorem contains_of_block (hblock : blockIndex < region.numBlocks)
    (hle : region.blockAddress blockIndex ≤ a)
    (hlt : a < region.blockAddress blockIndex + region.bytesPerBlock) :
    region.contains a = true := by
  have hend := region.blockAddress_mono (succ_le_of_lt hblock)
  rw [region.blockAddress_numBlocks, succ_eq_add_one, region.blockAddress_succ] at hend
  exact contains_iff.mpr ⟨(le_add_right _ _).trans hle, hlt.trans_le hend⟩

theorem blockIndex_of_block (hblock : blockIndex < region.numBlocks)
    (hle : region.blockAddress blockIndex ≤ a)
    (hlt : a < region.blockAddress blockIndex + region.bytesPerBlock) :
    region.blockIndexFromAddress a = blockIndex := by
  have hin := lt_of_contains (contains_of_block hblock hle hlt)
  exact blockIndex_eq hle (by rwa [region.blockAddress_succ]) hin

end BlockRegionInfo

namespace BlockDeviceInfo

/-- An address is in one region only. -/
theorem region_unique (hmem : region ∈ device.regions) (hmem' : region' ∈ device.regions)
    (h : region.contains a = true) (h' : region'.contains a = true) : region = region' := by
  by_contra hne
  have hin := BlockRegionInfo.contains_iff.mp h
  have hin' := BlockRegionInfo.contains_iff.mp h'
  have happart : region.endAddress ≤ region'.start ∨ region'.endAddress ≤ region.start := by
    apply List.Pairwise.forall_of_forall_of_flip
      (R := fun r r' ↦ r ≠ r' → r.endAddress ≤ r'.start ∨ r'.endAddress ≤ r.start) _ _ _ hmem hmem' hne
    · intro r _ hself
      exact absurd rfl hself
    · exact device.ascending.imp fun hle _ ↦ .inl hle
    · exact device.ascending.imp fun hle _ ↦ .inr hle
  omega

/-- The region of an address is the one that is found for it. -/
theorem find_region (hmem : region ∈ device.regions) (h : region.contains a = true) :
    device.regions.find? (·.contains a) = some region := by
  cases hfind : device.regions.find? (·.contains a) with
  | none => exact absurd h (find?_eq_none.mp hfind region hmem)
  | some other =>
    have hother : other.contains a = true :=
      @List.find?_some _ (fun r : BlockRegionInfo ↦ r.contains a) _ _ hfind
    rw [region_unique (mem_of_find?_eq_some hfind) hmem hother h]

end BlockDeviceInfo

end MicroFramework.TinyBooter
