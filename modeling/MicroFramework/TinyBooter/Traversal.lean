import MicroFramework.TinyBooter.BlockStorage

/-!
# The blocks an access visits

The two nested loops over regions and blocks by which every access walks from an address over a number
of bytes, as the list of the pieces of blocks it visits, and which bytes these pieces have.
-/

namespace MicroFramework.TinyBooter

open BlockRegionInfo List Nat Option BlockDeviceInfo

/-- What one turn of the inner loop works on. -/
structure Piece where
  region : BlockRegionInfo
  range : BlockRange
  blockIndex : ℕ
  accessPhyAddress : ℕ
  numOfBytes : ℕ

def Piece.Has (piece : Piece) (a : ℕ) : Prop :=
  piece.accessPhyAddress ≤ a ∧ a < piece.accessPhyAddress + piece.numOfBytes

instance (piece : Piece) : DecidablePred piece.Has :=
  fun _ ↦ inferInstanceAs (Decidable (_ ∧ _))

/-- A length of 32 bits read with a sign. -/
def nonPositive (accessLenInBytes : ℕ) : Prop := accessLenInBytes = 0 ∨ 2 ^ 31 ≤ accessLenInBytes

instance (accessLenInBytes : ℕ) : Decidable (nonPositive accessLenInBytes) :=
  inferInstanceAs (Decidable (_ ∨ _))

/-- The inner loop with so many blocks of the region to go: the pieces, and the address and length
that are left unless the access is done. -/
def blockLoop (region : BlockRegionInfo) :
    ℕ → (blockIndex iRange accessMaxLength accessPhyAddress accessLenInBytes : ℕ) →
      List Piece × Option (ℕ × ℕ)
  | 0, _, _, _, accessPhyAddress, accessLenInBytes =>
    ([], some (accessPhyAddress, accessLenInBytes))
  | blocks + 1, blockIndex, iRange, accessMaxLength, accessPhyAddress, accessLenInBytes =>
    let numOfBytes := min accessMaxLength accessLenInBytes
    let behind := (region.blockRanges[iRange]?).any fun range ↦ range.endBlock < blockIndex
    let iRange := if behind then iRange + 1 else iRange
    match region.blockRanges[iRange]? with
    | none => ([], some (accessPhyAddress, accessLenInBytes)) -- ASSERT(FALSE)
    | some range =>
      let piece := ⟨region, range, blockIndex, accessPhyAddress, numOfBytes⟩
      let left := accessLenInBytes - numOfBytes
      if nonPositive left then ([piece], none)
      else
        let (pieces, exit) := blockLoop region blocks (blockIndex + 1) iRange region.bytesPerBlock
          (accessPhyAddress + numOfBytes) left
        (piece :: pieces, exit)

def regionLoop : List BlockRegionInfo →
    (iRange blockOffset accessPhyAddress accessLenInBytes : ℕ) → List Piece
  | [], _, _, _, _ => []
  | region :: regions, iRange, blockOffset, accessPhyAddress, accessLenInBytes =>
    let blockIndex := region.blockIndexFromAddress accessPhyAddress
    let result := blockLoop region (region.numBlocks - blockIndex) blockIndex iRange
      (region.bytesPerBlock - blockOffset) accessPhyAddress accessLenInBytes
    result.1 ++ result.2.elim [] fun (accessPhyAddress, accessLenInBytes) ↦
      regionLoop regions 0 0 accessPhyAddress accessLenInBytes

/-- The pieces an access to the device visits, unless the address is in none of its ranges. -/
def BlockDeviceInfo.pieces (device : BlockDeviceInfo) (location lengthInBytes : ℕ) :
    Option (List Piece) :=
  match device.findRegionFromAddress location with
  | none => none
  | some (iRegion, iRange) =>
    match device.regions[iRegion]? with
    | none => none
    | some region => some (regionLoop (device.regions.drop iRegion) iRange
        (region.offsetFromBlock location) location lengthInBytes)

/-! ## What one region contributes -/

variable {region : BlockRegionInfo} {piece : Piece}
  {blocks blockIndex iRange accessMaxLength accessPhyAddress accessLenInBytes a : ℕ}

/-- The inner loop is at the block: the address is in it, with the maximal length up to its end, and
the range is that of the block or the one before it. -/
structure AtBlock (region : BlockRegionInfo)
    (blocks blockIndex iRange accessMaxLength accessPhyAddress : ℕ) : Prop where
  togo : blockIndex + blocks = region.numBlocks
  range : ∃ range, region.blockRanges[iRange]? = some range ∧
    (range.Has blockIndex ∨ blockIndex = range.endBlock + 1)
  start : region.blockAddress blockIndex ≤ accessPhyAddress
  stop : accessPhyAddress + accessMaxLength = region.blockAddress (blockIndex + 1)
  pos : 0 < accessMaxLength

structure Piece.Fits (piece : Piece) (region : BlockRegionInfo) (first last : ℕ) : Prop where
  same : piece.region = region
  mem : piece.range ∈ region.blockRanges
  has : piece.range.Has piece.blockIndex
  start : region.blockAddress piece.blockIndex ≤ piece.accessPhyAddress
  stop : piece.accessPhyAddress + piece.numOfBytes ≤ region.blockAddress (piece.blockIndex + 1)
  block : piece.blockIndex < region.numBlocks
  first : first ≤ piece.accessPhyAddress
  last : piece.accessPhyAddress + piece.numOfBytes ≤ last

namespace AtBlock

/-- One turn: the range is found, and the loop goes on at the next block unless it is done. -/
theorem turn (h : AtBlock region (blocks + 1) blockIndex iRange accessMaxLength accessPhyAddress) :
    ∃ range iRange', range ∈ region.blockRanges ∧ range.Has blockIndex ∧
      AtBlock region blocks (blockIndex + 1) iRange' region.bytesPerBlock
        (accessPhyAddress + accessMaxLength) ∧
      ∀ accessLenInBytes,
        blockLoop region (blocks + 1) blockIndex iRange accessMaxLength accessPhyAddress
          accessLenInBytes =
        let piece := ⟨region, range, blockIndex, accessPhyAddress,
          min accessMaxLength accessLenInBytes⟩
        let next := blockLoop region blocks (blockIndex + 1) iRange' region.bytesPerBlock
          (accessPhyAddress + accessMaxLength) (accessLenInBytes - accessMaxLength)
        if nonPositive (accessLenInBytes - accessMaxLength) then ([piece], none)
        else (piece :: next.1, next.2) := by
  obtain ⟨before, hbefore, hwhere⟩ := h.range
  have hlt : blockIndex < region.numBlocks := by
    have := h.togo
    omega
  have hfound : ∃ range iRange', region.blockRanges[iRange']? = some range ∧
      range.Has blockIndex ∧ (if (region.blockRanges[iRange]?).any
        fun range ↦ range.endBlock < blockIndex then iRange + 1 else iRange) = iRange' := by
    rw [hbefore]
    rcases hwhere with hhas | hend
    · refine ⟨before, iRange, hbefore, hhas, if_neg ?_⟩
      have := hhas.2
      simpa using this
    · obtain ⟨range, hrange, hhas⟩ := region.tiles.has hbefore hend hlt
      refine ⟨range, iRange + 1, hrange, hhas, if_pos ?_⟩
      simp [hend]
  obtain ⟨range, iRange', hrange, hhas, hindex⟩ := hfound
  refine ⟨range, iRange', mem_of_getElem? hrange, hhas, ⟨?_, ⟨range, hrange, ?_⟩, ?_, ?_,
    region.pos⟩, ?_⟩
  · have := h.togo
    omega
  · have := hhas.1
    have := hhas.2
    unfold BlockRange.Has
    omega
  · exact h.stop.ge
  · rw [h.stop, ← region.blockAddress_succ]
  · intro accessLenInBytes
    have hleft : accessLenInBytes - min accessMaxLength accessLenInBytes =
        accessLenInBytes - accessMaxLength := by
      omega
    simp only [blockLoop, hindex, hrange, hleft]
    split
    · rfl
    · rename_i hgo
      have hfull : min accessMaxLength accessLenInBytes = accessMaxLength := by
        unfold nonPositive at hgo
        omega
      rw [hfull]

section

variable (h : AtBlock region blocks blockIndex iRange accessMaxLength accessPhyAddress)

include h

section

variable (hin : 0 < blocks ∨ accessPhyAddress = region.blockAddress blockIndex)

include hin

/-- The pieces of one region, and where the loop leaves it. -/
theorem fits (accessLenInBytes : ℕ) :
    let result := blockLoop region blocks blockIndex iRange accessMaxLength accessPhyAddress
      accessLenInBytes
    (∀ piece ∈ result.1,
      piece.Fits region accessPhyAddress (accessPhyAddress + accessLenInBytes)) ∧
    ∀ address left, result.2 = some (address, left) → address = region.endAddress ∧
      address + left = accessPhyAddress + accessLenInBytes := by
  induction blocks generalizing blockIndex iRange accessMaxLength accessPhyAddress
    accessLenInBytes with
  | zero =>
    have htogo := h.togo
    have haddress : accessPhyAddress = region.endAddress := by
      rcases hin with hpos | heq
      · cases hpos
      · rw [heq, ← region.blockAddress_numBlocks, ← htogo, Nat.add_zero]
    simp [blockLoop, haddress]
  | succ blocks ih =>
    obtain ⟨range, iRange', hmem, hhas, hnext, hturn⟩ := h.turn
    have htogo := h.togo
    have hstop := h.stop
    have hpiece : ∀ n, n = min accessMaxLength accessLenInBytes →
        Piece.Fits ⟨region, range, blockIndex, accessPhyAddress, n⟩ region accessPhyAddress
          (accessPhyAddress + accessLenInBytes) := by
      intro n hn
      exact ⟨rfl, hmem, hhas, h.start, by dsimp only; omega, by dsimp only; omega, le_rfl,
        by dsimp only; omega⟩
    have hrest := ih hnext (.inr hstop) (accessLenInBytes - accessMaxLength)
    dsimp only at hrest ⊢
    rw [hturn]
    dsimp only
    split
    · refine ⟨?_, by simp⟩
      intro piece hmem'
      rw [mem_singleton.mp hmem']
      exact hpiece _ rfl
    · rename_i hgo
      have hlong : accessMaxLength < accessLenInBytes := by
        unfold nonPositive at hgo
        omega
      have hsum : accessPhyAddress + accessMaxLength + (accessLenInBytes - accessMaxLength) =
          accessPhyAddress + accessLenInBytes := by
        omega
      rw [hsum] at hrest
      refine ⟨?_, hrest.2⟩
      intro piece hmem'
      rcases mem_cons.mp hmem' with rfl | hlater
      · exact hpiece _ rfl
      · have hfits := hrest.1 piece hlater
        exact { hfits with first := (le_add_right _ _).trans hfits.first }

/-- An access of a positive length visits every byte of it in the region and goes on behind it. -/
theorem covers (hsmall : accessLenInBytes < 2 ^ 31) :
    let result := blockLoop region blocks blockIndex iRange accessMaxLength accessPhyAddress
      accessLenInBytes
    (∀ a, accessPhyAddress ≤ a → a < accessPhyAddress + accessLenInBytes → a < region.endAddress →
      ∃ piece ∈ result.1, piece.Has a) ∧
    (region.endAddress < accessPhyAddress + accessLenInBytes →
      result.2 = some (region.endAddress,
        accessPhyAddress + accessLenInBytes - region.endAddress)) := by
  induction blocks generalizing blockIndex iRange accessMaxLength accessPhyAddress
    accessLenInBytes with
  | zero =>
    have htogo := h.togo
    have haddress : accessPhyAddress = region.endAddress := by
      rcases hin with hpos | heq
      · cases hpos
      · rw [heq, ← region.blockAddress_numBlocks, ← htogo, Nat.add_zero]
    refine ⟨fun a hle _ hlt ↦ ?_, fun _ ↦ ?_⟩
    · omega
    · simp [blockLoop, haddress]
  | succ blocks ih =>
    obtain ⟨range, iRange', hmem, hhas, hnext, hturn⟩ := h.turn
    have hstop := h.stop
    have hrest := @ih (blockIndex + 1) iRange' region.bytesPerBlock
      (accessPhyAddress + accessMaxLength) (accessLenInBytes - accessMaxLength) hnext (.inr hstop)
      (by omega)
    have hbehind : region.blockAddress (blockIndex + 1) ≤ region.endAddress := by
      rw [← region.blockAddress_numBlocks]
      apply region.blockAddress_mono
      have := h.togo
      omega
    dsimp only at hrest ⊢
    rw [hturn]
    dsimp only
    split
    · rename_i hdone
      have hshort : accessLenInBytes ≤ accessMaxLength := by
        unfold nonPositive at hdone
        omega
      refine ⟨fun a hle hlt _ ↦ ⟨_, mem_singleton_self _, hle, ?_⟩, fun hlong ↦ ?_⟩
      · dsimp only
        omega
      · omega
    · rename_i hgo
      have hlong : accessMaxLength < accessLenInBytes := by
        unfold nonPositive at hgo
        omega
      have hsum : accessPhyAddress + accessMaxLength + (accessLenInBytes - accessMaxLength) =
          accessPhyAddress + accessLenInBytes := by
        omega
      rw [hsum] at hrest
      refine ⟨fun a hle hlt hend ↦ ?_, hrest.2⟩
      by_cases hfirst : a < accessPhyAddress + accessMaxLength
      · refine ⟨_, mem_cons_self, hle, ?_⟩
        dsimp only
        omega
      · obtain ⟨piece, hlater, hhas⟩ := hrest.1 a (by omega) hlt hend
        exact ⟨piece, mem_cons_of_mem _ hlater, hhas⟩

end

end

theorem enter (hcontains : region.contains accessPhyAddress = true)
    (hrange : ∃ range, region.blockRanges[iRange]? = some range ∧
      range.Has (region.blockIndexFromAddress accessPhyAddress)) :
    AtBlock region (region.numBlocks - region.blockIndexFromAddress accessPhyAddress)
      (region.blockIndexFromAddress accessPhyAddress) iRange
      (region.bytesPerBlock - region.offsetFromBlock accessPhyAddress) accessPhyAddress where
  togo := by
    have := region.blockIndex_lt hcontains
    omega
  range := by
    obtain ⟨range, hindex, hhas⟩ := hrange
    exact ⟨range, hindex, .inl hhas⟩
  start := by
    have := region.address_eq hcontains
    omega
  stop := by
    have := region.address_eq hcontains
    have := region.offset_lt accessPhyAddress
    rw [region.blockAddress_succ]
    omega
  pos := by
    have := region.offset_lt accessPhyAddress
    omega

end AtBlock

/-! ## What the regions of a device contribute -/

variable {regions : List BlockRegionInfo} {device : BlockDeviceInfo} {pieces : List Piece}
  {location lengthInBytes : ℕ}

def InRegions (regions : List BlockRegionInfo) (a : ℕ) : Prop :=
  ∃ region ∈ regions, region.contains a = true

def Piece.Reached (piece : Piece) (regions : List BlockRegionInfo) (first last : ℕ) : Prop :=
  (∃ region ∈ regions, piece.Fits region first last) ∧
    ∀ a, first ≤ a → a < piece.accessPhyAddress + piece.numOfBytes → InRegions regions a

variable {first last endRangeAddr : ℕ}

theorem Piece.Fits.le_end (h : piece.Fits region first last) :
    piece.accessPhyAddress + piece.numOfBytes ≤ region.endAddress := by
  rw [← region.blockAddress_numBlocks]
  exact h.stop.trans (region.blockAddress_mono h.block)

theorem Piece.Fits.reached (h : piece.Fits region first last)
    (hmem : region ∈ regions) (hstart : region.start ≤ first) :
    piece.Reached regions first last := by
  refine ⟨⟨region, hmem, h⟩, fun a hle hlt ↦ ⟨region, hmem, ?_⟩⟩
  exact contains_iff.mpr ⟨hstart.trans hle, hlt.trans_le h.le_end⟩

/-- A piece reached from behind a region is reached from an address of the region. -/
theorem Piece.Reached.extend (h : piece.Reached regions region.endAddress last)
    (hstart : region.start ≤ accessPhyAddress) (hend : accessPhyAddress ≤ region.endAddress) :
    piece.Reached (region :: regions) accessPhyAddress last := by
  obtain ⟨⟨later, hmem, hfits⟩, hgap⟩ := h
  refine ⟨⟨later, mem_cons_of_mem _ hmem, { hfits with first := hend.trans hfits.first }⟩, ?_⟩
  intro a hle hlt
  by_cases hin : a < region.endAddress
  · exact ⟨region, mem_cons_self,
      contains_iff.mpr ⟨hstart.trans hle, hin⟩⟩
  · obtain ⟨other, hother, hcontains⟩ := hgap a (Nat.le_of_not_lt hin) hlt
    exact ⟨other, mem_cons_of_mem _ hother, hcontains⟩

theorem Piece.Reached.cons (h : piece.Reached regions first last) :
    piece.Reached (region :: regions) first last := by
  obtain ⟨⟨later, hmem, hfits⟩, hgap⟩ := h
  refine ⟨⟨later, mem_cons_of_mem _ hmem, hfits⟩, fun a hle hlt ↦ ?_⟩
  obtain ⟨other, hother, hcontains⟩ := hgap a hle hlt
  exact ⟨other, mem_cons_of_mem _ hother, hcontains⟩

theorem first_range (h : 0 < region.numBlocks) :
    ∃ range, region.blockRanges[0]? = some range ∧ range.Has 0 := by
  have htiles := region.tiles
  cases hranges : region.blockRanges with
  | nil =>
    rw [hranges] at htiles
    have hzero : 0 = region.numBlocks := htiles
    omega
  | cons range ranges =>
    rw [hranges] at htiles
    exact ⟨range, rfl, htiles.1.le, zero_le _⟩

/-- Behind the last region a later one is either entered at its start or passed. -/
theorem enter_next (hstart : accessPhyAddress ≤ region.start) (hbound : accessPhyAddress < 2 ^ 32) :
    (accessPhyAddress = region.start ∧ region.contains accessPhyAddress = true ∧
      AtBlock region (region.numBlocks - region.blockIndexFromAddress accessPhyAddress)
        (region.blockIndexFromAddress accessPhyAddress) 0 (region.bytesPerBlock - 0)
        accessPhyAddress) ∨
      region.numBlocks - region.blockIndexFromAddress accessPhyAddress = 0 ∧
        (region.contains accessPhyAddress = false) := by
  by_cases hin : region.contains accessPhyAddress = true
  · left
    have heq : accessPhyAddress = region.start := le_antisymm hstart (contains_iff.mp hin).1
    have hoffset : region.offsetFromBlock accessPhyAddress = 0 := by
      rw [offsetFromBlock, distance heq.ge hbound, heq, Nat.sub_self]
      exact zero_mod _
    have hindex : region.blockIndexFromAddress accessPhyAddress = 0 := by
      rw [blockIndexFromAddress, distance heq.ge hbound, heq,
        Nat.sub_self]
      exact Nat.zero_div _
    have hpos : 0 < region.numBlocks := by
      have := region.blockIndex_lt hin
      omega
    have henter := @AtBlock.enter region 0 accessPhyAddress hin
      (by rw [hindex]; exact first_range hpos)
    rw [hoffset] at henter
    exact ⟨heq, hin, henter⟩
  · right
    refine ⟨?_, by simpa using hin⟩
    by_contra hne
    exact hin (contains_of_blockIndex_lt hbound (by omega))

theorem mem_elim_exit {exit : Option (ℕ × ℕ)} {next : ℕ × ℕ → List Piece}
    (h : piece ∈ exit.elim [] next) :
    ∃ address left, exit = some (address, left) ∧ piece ∈ next (address, left) := by
  cases exit with
  | none => cases h
  | some exit => exact ⟨exit.1, exit.2, rfl, h⟩

section

variable (hascending : regions.Pairwise fun region later ↦ region.endAddress ≤ later.start)

include hascending

theorem regionLoop_reached (hbehind : ∀ region ∈ regions, accessPhyAddress ≤ region.start)
    (hbound : accessPhyAddress < 2 ^ 32) (accessLenInBytes : ℕ) :
    ∀ piece ∈ regionLoop regions 0 0 accessPhyAddress accessLenInBytes,
      piece.Reached regions accessPhyAddress (accessPhyAddress + accessLenInBytes) := by
  induction regions generalizing accessPhyAddress accessLenInBytes with
  | nil => simp [regionLoop]
  | cons region regions ih =>
    obtain ⟨hlater, hrest⟩ := pairwise_cons.mp hascending
    have hstart := hbehind region mem_cons_self
    intro piece hpiece
    rw [regionLoop] at hpiece
    rcases enter_next hstart hbound with ⟨heq, hin, hat⟩ | ⟨hnone, -⟩
    · have hpos : 0 < region.numBlocks - region.blockIndexFromAddress accessPhyAddress := by
        have := region.blockIndex_lt hin
        omega
      have hfits := hat.fits (.inl hpos) accessLenInBytes
      dsimp only at hfits hpiece
      rcases mem_append.mp hpiece with hhere | hthere
      · exact (hfits.1 piece hhere).reached mem_cons_self heq.ge
      · obtain ⟨address, left, hexit, hlaterPiece⟩ := mem_elim_exit hthere
        obtain ⟨haddress, hsum⟩ := hfits.2 address left hexit
        rw [haddress] at hlaterPiece hsum
        have hreached := ih hrest hlater region.bound left piece hlaterPiece
        rw [hsum] at hreached
        exact hreached.extend heq.ge (contains_iff.mp hin).2.le
    · rw [hnone] at hpiece
      dsimp only [blockLoop, elim_some] at hpiece
      rw [nil_append] at hpiece
      exact (ih hrest (fun later hmem ↦ hbehind later (mem_cons_of_mem _ hmem)) hbound
        accessLenInBytes piece hpiece).cons

/-- Every byte that is reached without a gap is visited. -/
theorem regionLoop_covers (hbehind : ∀ region ∈ regions, accessPhyAddress ≤ region.start)
    (hbound : accessPhyAddress < 2 ^ 32) (hsmall : accessLenInBytes < 2 ^ 31)
    (hle : accessPhyAddress ≤ a) (hlt : a < accessPhyAddress + accessLenInBytes)
    (hgap : ∀ x, accessPhyAddress ≤ x → x ≤ a → InRegions regions x) :
    ∃ piece ∈ regionLoop regions 0 0 accessPhyAddress accessLenInBytes, piece.Has a := by
  induction regions generalizing accessPhyAddress accessLenInBytes with
  | nil =>
    obtain ⟨region, hmem, -⟩ := hgap a hle le_rfl
    cases hmem
  | cons region regions ih =>
    obtain ⟨hlater, hrest⟩ := pairwise_cons.mp hascending
    have hstart := hbehind region mem_cons_self
    rw [regionLoop]
    rcases enter_next hstart hbound with ⟨heq, hin, hat⟩ | ⟨hnone, hout⟩
    · have hpos : 0 < region.numBlocks - region.blockIndexFromAddress accessPhyAddress := by
        have := region.blockIndex_lt hin
        omega
      have hcovers := hat.covers (.inl hpos) hsmall
      dsimp only at hcovers ⊢
      by_cases hhere : a < region.endAddress
      · obtain ⟨piece, hmem, hhas⟩ := hcovers.1 a hle hlt hhere
        exact ⟨piece, mem_append_left _ hmem, hhas⟩
      · have hend := (contains_iff.mp hin).2
        rw [hcovers.2 (by omega)]
        dsimp only [elim_some]
        have hgap' : ∀ x, region.endAddress ≤ x → x ≤ a → InRegions regions x := by
          intro x hx hxa
          obtain ⟨other, hmem, hcontains⟩ := hgap x (hend.le.trans hx) hxa
          rcases mem_cons.mp hmem with rfl | hmem
          · have := (contains_iff.mp hcontains).2
            omega
          · exact ⟨other, hmem, hcontains⟩
        obtain ⟨piece, hmem, hhas⟩ := @ih region.endAddress
          (accessPhyAddress + accessLenInBytes - region.endAddress) hrest hlater region.bound
          (by omega) (by omega) (by omega) hgap'
        exact ⟨piece, mem_append_right _ hmem, hhas⟩
    · rw [hnone]
      dsimp only [blockLoop, elim_some]
      rw [nil_append]
      -- the address itself is in a later region, so that nothing is in this one
      obtain ⟨other, hother, hcontains⟩ := hgap accessPhyAddress le_rfl hle
      have hin : other ∈ regions := by
        rcases mem_cons.mp hother with rfl | hmem
        · rw [hout] at hcontains
          cases hcontains
        · exact hmem
      have hempty : region.endAddress ≤ accessPhyAddress :=
        (hlater other hin).trans (contains_iff.mp hcontains).1
      apply ih hrest (fun later hmem ↦ hbehind later (mem_cons_of_mem _ hmem)) hbound hsmall hle hlt
      intro x hx hxa
      obtain ⟨later, hmem, hcontains⟩ := hgap x hx hxa
      rcases mem_cons.mp hmem with rfl | hmem
      · have := (contains_iff.mp hcontains).2
        omega
      · exact ⟨later, hmem, hcontains⟩

end

/-! ## Where an access starts -/

theorem range_end {range : BlockRange}
    (hfirst : endRangeAddr = region.blockAddress first) (hstart : range.startBlock = first)
    (hlast : first ≤ range.endBlock) :
    endRangeAddr + region.bytesPerBlock * range.getBlockCount =
      region.blockAddress (range.endBlock + 1) := by
  rw [hfirst, BlockRange.getBlockCount, hstart, blockAddress,
    blockAddress, Nat.mul_comm region.bytesPerBlock, Nat.add_assoc, ← Nat.add_mul]
  congr 2
  omega

theorem findRange_has {ranges : List BlockRange} {i : ℕ}
    (htiles : Tiles first ranges region.numBlocks)
    (hfirst : endRangeAddr = region.blockAddress first) (hle : endRangeAddr ≤ a)
    (hbound : a < 2 ^ 32) (h : region.findRange a endRangeAddr ranges = some i) :
    ∃ range, ranges[i]? = some range ∧ range.Has (region.blockIndexFromAddress a) := by
  induction ranges generalizing first endRangeAddr i with
  | nil => simp [findRange] at h
  | cons range ranges ih =>
    obtain ⟨hstart, hlast, hrest⟩ := htiles
    have hend := range_end hfirst hstart hlast
    simp only [findRange, hend] at h
    split at h
    · rename_i hlt
      obtain rfl := some.inj h
      have hstart' : region.start ≤ a := by
        refine (le_add_right region.start (first * region.bytesPerBlock)).trans ?_
        rw [hfirst] at hle
        exact hle
      refine ⟨range, rfl, ?_, ?_⟩
      · rw [hstart, blockIndexFromAddress,
          distance hstart' hbound, le_div_iff_mul_le region.pos]
        rw [hfirst, blockAddress] at hle
        omega
      · rw [blockIndexFromAddress, distance hstart' hbound]
        apply le_of_lt_add_one
        rw [div_lt_iff_lt_mul region.pos]
        rw [blockAddress] at hlt
        omega
    · rename_i hge
      obtain ⟨j, hj, rfl⟩ := map_eq_some_iff.mp h
      obtain ⟨later, hindex, hhas⟩ := ih hrest rfl (Nat.le_of_not_lt hge) hj
      exact ⟨later, hindex, hhas⟩

theorem findRegion_has {iRegion : ℕ} (h : findRegion a regions = some (iRegion, iRange)) :
    ∃ region, regions[iRegion]? = some region ∧ region.contains a = true ∧
      ∃ range, region.blockRanges[iRange]? = some range ∧
        range.Has (region.blockIndexFromAddress a) := by
  induction regions generalizing iRegion with
  | nil => simp [findRegion] at h
  | cons region regions ih =>
    rw [findRegion] at h
    dsimp only at h
    split at h
    · rename_i i hfound
      cases h
      split at hfound
      · rename_i hin
        have hmem := contains_iff.mp hin
        have hfirst : region.start = region.blockAddress 0 := by simp [blockAddress]
        exact ⟨region, rfl, hin, findRange_has region.tiles hfirst hmem.1
          (lt_of_contains hin) hfound⟩
      · cases hfound
    · obtain ⟨⟨j, i⟩, hrest, heq⟩ := map_eq_some_iff.mp h
      cases heq
      obtain ⟨later, hindex, hhas⟩ := ih hrest
      exact ⟨later, hindex, hhas⟩

theorem findRange_isSome {region : BlockRegionInfo} {ranges : List BlockRange}
    (htiles : Tiles first ranges region.numBlocks)
    (hfirst : endRangeAddr = region.blockAddress first) (hle : endRangeAddr ≤ a)
    (hlt : a < region.endAddress) : (region.findRange a endRangeAddr ranges).isSome := by
  induction ranges generalizing first endRangeAddr with
  | nil =>
    have hlast : first = region.numBlocks := htiles
    rw [hfirst, hlast, region.blockAddress_numBlocks] at hle
    omega
  | cons range ranges ih =>
    obtain ⟨hstart, hlast, hrest⟩ := htiles
    have hend := range_end hfirst hstart hlast
    simp only [findRange, hend]
    split
    · rfl
    · rename_i hge
      rw [isSome_map]
      exact ih hrest rfl (Nat.le_of_not_lt hge)

theorem findRegion_isSome {regions : List BlockRegionInfo} {region : BlockRegionInfo}
    (hmem : region ∈ regions) (h : region.contains a = true) :
    (findRegion a regions).isSome := by
  induction regions with
  | nil => cases hmem
  | cons head regions ih =>
    rw [findRegion]
    dsimp only
    split
    · rfl
    · rename_i hnone
      rw [isSome_map]
      rcases mem_cons.mp hmem with rfl | hlater
      · have hin := contains_iff.mp h
        have hsome := findRange_isSome region.tiles (by simp [blockAddress]) hin.1 hin.2
        rw [if_pos h] at hnone
        rw [hnone] at hsome
        cases hsome
      · exact ih hlater

/-- An access starts in the region with its address. -/
theorem pieces_eq (h : device.pieces location lengthInBytes = some pieces) :
    ∃ before region later iRange, device.regions = before ++ region :: later ∧
      region.contains location = true ∧
      AtBlock region (region.numBlocks - region.blockIndexFromAddress location)
        (region.blockIndexFromAddress location) iRange
        (region.bytesPerBlock - region.offsetFromBlock location) location ∧
      pieces = regionLoop (region :: later) iRange (region.offsetFromBlock location) location
        lengthInBytes := by
  unfold BlockDeviceInfo.pieces at h
  split at h
  · cases h
  · rename_i iRegion iRange hfind
    obtain ⟨region, hindex, hin, hrange⟩ := findRegion_has hfind
    rw [hindex] at h
    dsimp only at h
    obtain ⟨hlt, hget⟩ := List.getElem?_eq_some_iff.mp hindex
    have hdrop : device.regions.drop iRegion = region :: device.regions.drop (iRegion + 1) := by
      rw [drop_eq_getElem_cons hlt, hget]
    rw [hdrop] at h
    refine ⟨device.regions.take iRegion, region, device.regions.drop (iRegion + 1), iRange, ?_, hin,
      .enter hin hrange, (some.inj h).symm⟩
    rw [← hdrop, take_append_drop]

theorem later_behind {before later : List BlockRegionInfo}
    (h : device.regions = before ++ region :: later) :
    later.Pairwise (fun region later ↦ region.endAddress ≤ later.start) ∧
      (∀ other ∈ later, region.endAddress ≤ other.start) ∧
      ∀ other ∈ before, other.endAddress ≤ region.start := by
  have hascending := device.ascending
  rw [h, pairwise_append] at hascending
  obtain ⟨-, hfrom, hbefore⟩ := hascending
  obtain ⟨hbehind, hlater⟩ := pairwise_cons.mp hfrom
  exact ⟨hlater, hbehind, fun other hmem ↦ hbefore other hmem region mem_cons_self⟩

section

variable (h : device.pieces location lengthInBytes = some pieces)

include h

/-- Every piece of an access belongs to the device and is reached without a gap. -/
theorem pieces_reached :
    ∀ piece ∈ pieces, piece.Reached device.regions location (location + lengthInBytes) := by
  obtain ⟨before, region, later, iRange, hregions, hin, hat, rfl⟩ := pieces_eq h
  obtain ⟨hascending, hbehind, -⟩ := later_behind hregions
  have hmem := contains_iff.mp hin
  have hpos : 0 < region.numBlocks - region.blockIndexFromAddress location := by
    have := region.blockIndex_lt hin
    omega
  have hfits := hat.fits (.inl hpos) lengthInBytes
  intro piece hpiece
  have hreached : piece.Reached (region :: later) location (location + lengthInBytes) := by
    rw [regionLoop] at hpiece
    dsimp only at hfits hpiece
    rcases mem_append.mp hpiece with hhere | hthere
    · exact (hfits.1 piece hhere).reached mem_cons_self hmem.1
    · obtain ⟨address, left, hexit, hlaterPiece⟩ := mem_elim_exit hthere
      obtain ⟨haddress, hsum⟩ := hfits.2 address left hexit
      rw [haddress] at hlaterPiece hsum
      have hreached := regionLoop_reached hascending hbehind region.bound left piece hlaterPiece
      rw [hsum] at hreached
      exact hreached.extend hmem.1 hmem.2.le
  rw [hregions]
  obtain ⟨⟨other, hother, hpieceFits⟩, hgap⟩ := hreached
  refine ⟨⟨other, mem_append_right _ hother, hpieceFits⟩, fun a hle hlt ↦ ?_⟩
  obtain ⟨holder, hholder, hcontains⟩ := hgap a hle hlt
  exact ⟨holder, mem_append_right _ hholder, hcontains⟩

/-- An access visits every byte of its range that is reached without a gap, if its length is no
negative number. -/
theorem pieces_cover
    (hsmall : lengthInBytes < 2 ^ 31) (hle : location ≤ a) (hlt : a < location + lengthInBytes)
    (hgap : ∀ x, location ≤ x → x ≤ a → device.Holds x) : ∃ piece ∈ pieces, piece.Has a := by
  obtain ⟨before, region, later, iRange, hregions, hin, hat, rfl⟩ := pieces_eq h
  obtain ⟨hascending, hbehind, hbefore⟩ := later_behind hregions
  have hmem := contains_iff.mp hin
  have hpos : 0 < region.numBlocks - region.blockIndexFromAddress location := by
    have := region.blockIndex_lt hin
    omega
  have hcovers := hat.covers (.inl hpos) hsmall
  rw [regionLoop]
  dsimp only at hcovers ⊢
  by_cases hhere : a < region.endAddress
  · obtain ⟨piece, hpiece, hhas⟩ := hcovers.1 a hle hlt hhere
    exact ⟨piece, mem_append_left _ hpiece, hhas⟩
  · have hgap' : ∀ x, region.endAddress ≤ x → x ≤ a → InRegions later x := by
      intro x hx hxa
      obtain ⟨other, hother, hcontains⟩ := hgap x (hmem.2.le.trans hx) hxa
      have hother' := contains_iff.mp hcontains
      rw [hregions] at hother
      rcases mem_append.mp hother with hearly | hlate
      · have := hbefore other hearly
        omega
      · rcases mem_cons.mp hlate with rfl | hlate
        · omega
        · exact ⟨other, hlate, hcontains⟩
    rw [hcovers.2 (by omega)]
    dsimp only [elim_some]
    obtain ⟨piece, hpiece, hhas⟩ := @regionLoop_covers region.endAddress
      (location + lengthInBytes - region.endAddress) a later hascending hbehind region.bound
      (by omega) (by omega) (by omega) hgap'
    exact ⟨piece, mem_append_right _ hpiece, hhas⟩

/-- A piece of an access lies in one block of the device, whose range is the piece's. -/
theorem pieces_fit (hmem : piece ∈ pieces) (hhas : piece.Has a) :
    ∃ region ∈ device.regions, region.contains a = true ∧ piece.region = region ∧
      piece.range ∈ region.blockRanges ∧ piece.range.Has piece.blockIndex ∧
      region.blockIndexFromAddress a = piece.blockIndex ∧ location ≤ a ∧
      a < location + lengthInBytes := by
  obtain ⟨⟨region, hregion, hfits⟩, -⟩ := pieces_reached h piece hmem
  have hfirst := hfits.first
  have hlast := hfits.last
  have hstart : region.start ≤ a := (le_add_right _ _).trans (hfits.start.trans hhas.1)
  have hend : a < region.endAddress := hhas.2.trans_le hfits.le_end
  refine ⟨region, hregion, contains_iff.mpr ⟨hstart, hend⟩, hfits.same, hfits.mem,
    hfits.has, ?_, hfirst.trans hhas.1, hhas.2.trans_le hlast⟩
  exact blockIndex_eq (hfits.start.trans hhas.1) (hhas.2.trans_le hfits.stop)
    (hend.trans region.bound)

end

end MicroFramework.TinyBooter
