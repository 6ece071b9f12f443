import MicroFramework.TinyBooter.VerifiedLaunch

/-!
# The keys under requests

The request that updates a key, the block with the configuration of a board, and what accesses, the
bit fields and writes to the configuration do to the version and the keys stored in it.
-/

namespace MicroFramework.TinyBooter

open Library Support ConfigurationSector BlockRegionInfo List Option Function SectorBitField

/-! ## The requests of the monitor -/

namespace ConfigurationSectorManager

def updateSignatureKey (board : Board) (env : Environment) (ram : Memory) (index : ℕ)
    (data : List UInt8) (config : ConfigurationSectorManager) (storage : Storage) :
    ConfigurationSectorManager × Storage :=
  config.writeConfiguration board env ram (deploymentKeys + keySize * index) data true storage

end ConfigurationSectorManager

/-- The payload of a key update is what follows in memory, however long the packet is.  Ping,
OemInfo and FlashSectorMap only report. -/
inductive MonitorRequest
  | memory (request : Request)
  | signatureKeyUpdate (keyIndex : UInt32) (newKeySignature newKey : Memory)
  | report

namespace Loader

variable (board : Board) (env : Environment)

def monitorSignatureKeyUpdate (keyIndex : UInt32) (newKeySignature newKey : Memory)
    (loader : Loader) : Outcome :=
  let newKey := load newKey 0 keySize
  let update (loader : Loader) : Outcome :=
    let (config, storage) := loader.config.updateSignatureKey board env loader.ram keyIndex.toNat
      newKey loader.storage
    -- VerifiySignatureKey loads the configuration again, its result is only asserted
    ⟨{ loader with config := config.loadConfiguration storage, storage := storage },
      some ⟨true, []⟩, none⟩
  if loader.config.device.isSome ∧ keyIndex < c_DeployKeyCount then
    if loader.config.checkSignatureKeyEmpty loader.storage keyIndex.toNat then update loader
    else
      let (loader, verified) := loader.cryptoVerifySignature board newKey
        (load newKeySignature 0 RSA_BLOCK_SIZE_BYTES.toNat) 0 keyIndex.toNat
      if verified then update loader else ⟨loader, some ⟨false, []⟩, none⟩
  else ⟨loader, some ⟨false, []⟩, none⟩

def handleMonitor : MonitorRequest → Loader → Outcome
  | .memory request => handle board env request
  | .signatureKeyUpdate keyIndex newKeySignature newKey =>
    monitorSignatureKeyUpdate board env keyIndex newKeySignature newKey
  | .report => fun loader ↦ ⟨loader, some ⟨true, []⟩, none⟩

end Loader

/-! ## Bytes of block storage -/

namespace Storage

variable {storage : Storage} {device : BlockDeviceInfo} {region : BlockRegionInfo}
  {data : List UInt8} {address a n i : ℕ}

theorem write_bytes (address : ℕ) (data : List UInt8) (storage : Storage) (a : ℕ) :
    (storage.write address data).1.bytes a = storage.bytes a ∨
      ∃ i, ∃ h : i < data.length, a = address + i ∧
        (storage.write address data).1.bytes a = data[i] := by
  induction data generalizing address storage with
  | nil => exact .inl rfl
  | cons byte rest ih =>
    rw [write]
    split
    · exact .inl rfl
    · rcases ih (address + 1) { storage with bytes := Function.update storage.bytes address byte }
        with hold | ⟨i, hi, ha, hnew⟩
      · rw [hold]
        by_cases ha : a = address
        · subst ha
          exact .inr ⟨0, Nat.zero_lt_succ _, rfl, update_self ..⟩
        · exact .inl (update_of_ne ha ..)
      · refine .inr ⟨i + 1, Nat.succ_lt_succ hi, by omega, ?_⟩
        rw [getElem_cons_succ]
        exact hnew

/-- A write of what is there at a byte leaves it. -/
theorem write_unchanged
    (h : ∀ i, ∀ hi : i < data.length, a = address + i → data[i] = storage.bytes a) :
    (storage.write address data).1.bytes a = storage.bytes a := by
  rcases write_bytes address data storage a with hold | ⟨i, hi, ha, hnew⟩
  · exact hold
  · rw [hnew, h i hi ha]

theorem write_of_apart (h : a < address ∨ address + data.length ≤ a) :
    (storage.write address data).1.bytes a = storage.bytes a := by
  apply write_unchanged
  intro i hi ha
  omega

/-- What is erased takes the data. -/
theorem write_erased (h : ∀ x, address ≤ x → x < address + n → storage.bytes x = 0xFF)
    (ha : a = address + i) (hi : i < n) (hlength : i < data.length) :
    (storage.write address data).1.bytes a = data[i] := by
  induction data generalizing address storage n i with
  | nil => cases hlength
  | cons byte rest ih =>
    have hnone : ~~~(0xFF : UInt8) = 0 := by decide
    have hclear : ¬byte &&& ~~~storage.bytes address ≠ 0 := by
      rw [h address le_rfl (by omega), hnone, UInt8.and_zero]
      exact not_not_intro rfl
    rw [write, if_neg hclear]
    cases i with
    | zero =>
      obtain rfl : a = address := ha
      rw [write_of_apart (.inl (Nat.lt_add_one a))]
      exact update_self ..
    | succ i =>
      apply @ih _ (address + 1) (n - 1) i
      · intro x hle hlt
        dsimp only
        rw [update_of_ne (by omega)]
        exact h x (by omega) (by omega)
      · omega
      · omega

theorem eraseBlock_bytes (hregion : region ∈ device.regions) (hin : region.contains address = true)
    (storage : Storage) (a : ℕ) :
    (storage.eraseBlock device address).1.bytes a =
      if region.blockAddress (region.blockIndexFromAddress address) ≤ a ∧
        a < region.blockAddress (region.blockIndexFromAddress address) + region.bytesPerBlock
      then 0xFF else storage.bytes a := by
  rw [eraseBlock, BlockDeviceInfo.find_region hregion hin]

end Storage

/-! ## Where the configuration is -/

/-- What the tables of a board promise: no address belongs to two devices, and a range that is used
for configuration is marked so and has blocks that the configuration sector fits into. -/
structure Board.Sound (board : Board) : Prop where
  apart : ∀ (i j : ℕ) (device device' : BlockDeviceInfo) (a : ℕ), board.devices[i]? = some device →
    board.devices[j]? = some device' → device.Holds a → device'.Holds a → i = j
  config : ∀ device ∈ board.devices, ∀ region ∈ device.regions, ∀ range ∈ region.blockRanges,
    range.getBlockUsage = BlockUsage.CONFIG →
      range.isConfig = true ∧ size ≤ region.bytesPerBlock

/-- The device, the region and the range with the primary configuration of a board. -/
structure ConfigSector (board : Board) where
  sound : board.Sound
  index : ℕ
  device : BlockDeviceInfo
  region : BlockRegionInfo
  range : BlockRange
  found : streamInitialize board BlockUsage.CONFIG 0 =
    some (index, region.blockAddress range.startBlock)
  device_eq : board.devices[index]? = some device
  region_mem : region ∈ device.regions
  range_mem : range ∈ region.blockRanges
  usage : range.getBlockUsage = BlockUsage.CONFIG

section Stream

variable {board : Board} {usage : UInt32} {i first address : ℕ} {device : BlockDeviceInfo}

theorem findForBlockUsage_spec (h : device.findForBlockUsage usage = some address) :
    ∃ region ∈ device.regions, ∃ range ∈ region.blockRanges,
      range.getBlockUsage = usage ∧ address = region.blockAddress range.startBlock := by
  obtain ⟨region, hregion, hfound⟩ := exists_of_findSome?_eq_some h
  obtain ⟨range, hrange, rfl⟩ := map_eq_some_iff.mp hfound
  have husage := find?_some hrange
  exact ⟨region, hregion, range, mem_of_find?_eq_some hrange, by simpa using husage, rfl⟩

theorem streamInitialize_spec (h : streamInitialize board usage first = some (i, address)) :
    ∃ device, board.devices[i]? = some device ∧
      device.findForBlockUsage usage = some address := by
  obtain ⟨⟨device, j⟩, hmem, hfound⟩ := exists_of_findSome?_eq_some h
  obtain ⟨found, hfound, heq⟩ := map_eq_some_iff.mp hfound
  cases heq
  have hindex := mk_mem_zipIdx_iff_getElem?.mp (mem_of_mem_drop hmem)
  exact ⟨device, hindex, hfound⟩

end Stream

def Guarded (offset : ℕ) : Prop :=
  offset = versionTinyBooter ∨
    deploymentKeys ≤ offset ∧
      offset < deploymentKeys + 2 * keySize

theorem Guarded.lt {offset : ℕ} (h : Guarded offset) : offset < size := by
  unfold Guarded versionTinyBooter deploymentKeys keySize at h
  unfold size
  omega

/-- No guarded byte is in the bit fields. -/
theorem Guarded.outside {offset : ℕ} (h : Guarded offset) :
    offset < booterFlagArray ∨
      signatureCheck + 288 ≤ offset := by
  unfold Guarded versionTinyBooter deploymentKeys keySize at h
  unfold booterFlagArray signatureCheck
  omega

namespace ConfigSector

variable {board : Board} (sector : ConfigSector board)

def address : ℕ := sector.region.blockAddress sector.range.startBlock

def key (storage : Storage) (index : ℕ) : List UInt8 :=
  load storage.bytes
    (sector.address + (deploymentKeys + keySize * index))
    keySize

/-- The version and the keys stay as they are. -/
def Keeps (storage storage' : Storage) : Prop :=
  ∀ offset, Guarded offset →
    storage'.bytes (sector.address + offset) = storage.bytes (sector.address + offset)

variable {sector} {storage storage' storage'' : Storage} {offset i a blockIndex : ℕ}
  {device : BlockDeviceInfo} {region : BlockRegionInfo} {range : BlockRange}

theorem Keeps.refl (storage : Storage) : sector.Keeps storage storage := fun _ _ ↦ rfl

theorem Keeps.trans (h : sector.Keeps storage storage') (h' : sector.Keeps storage' storage'') :
    sector.Keeps storage storage'' :=
  fun offset hoffset ↦ (h' offset hoffset).trans (h offset hoffset)

theorem size_le : size ≤ sector.region.bytesPerBlock :=
  (sector.sound.config _ (mem_of_getElem? sector.device_eq) _ sector.region_mem _
    sector.range_mem sector.usage).2

theorem isConfig : sector.range.isConfig = true :=
  (sector.sound.config _ (mem_of_getElem? sector.device_eq) _ sector.region_mem _
    sector.range_mem sector.usage).1

theorem startBlock_lt : sector.range.startBlock < sector.region.numBlocks := by
  have h := sector.region.tiles.le_start sector.range_mem
  omega

theorem range_has : sector.range.Has sector.range.startBlock :=
  ⟨le_rfl, (sector.region.tiles.le_start sector.range_mem).2.2⟩

theorem contains_offset (h : offset < size) :
    sector.region.contains (sector.address + offset) = true :=
  contains_of_block sector.startBlock_lt (Nat.le_add_right _ _)
    (Nat.add_lt_add_left (h.trans_le sector.size_le) _)

theorem blockIndex_offset (h : offset < size) :
    sector.region.blockIndexFromAddress (sector.address + offset) = sector.range.startBlock :=
  blockIndex_of_block sector.startBlock_lt (Nat.le_add_right _ _)
    (Nat.add_lt_add_left (h.trans_le sector.size_le) _)

theorem in_block (hdevice : board.devices[i]? = some device) (hregion : region ∈ device.regions)
    (hblock : blockIndex < region.numBlocks) (hoffset : offset < size)
    (hle : region.blockAddress blockIndex ≤ sector.address + offset)
    (hlt : sector.address + offset < region.blockAddress blockIndex + region.bytesPerBlock) :
    region = sector.region ∧ blockIndex = sector.range.startBlock := by
  have hin := contains_of_block hblock hle hlt
  have hsector := sector.contains_offset hoffset
  obtain rfl := sector.sound.apart i sector.index device sector.device _ hdevice sector.device_eq
    ⟨region, hregion, hin⟩ ⟨sector.region, sector.region_mem, hsector⟩
  have hsame : device = sector.device := some.inj (hdevice.symm.trans sector.device_eq)
  rw [hsame] at hregion
  have heq := BlockDeviceInfo.region_unique hregion sector.region_mem hin hsector
  subst heq
  refine ⟨rfl, ?_⟩
  calc
    blockIndex = sector.region.blockIndexFromAddress (sector.address + offset) :=
      (blockIndex_of_block hblock hle hlt).symm
    _ = sector.range.startBlock := sector.blockIndex_offset hoffset

/-! ## Accesses -/

/-- A block outside the configuration has no byte of the sector. -/
theorem outside (hdevice : board.devices[i]? = some device) (hregion : region ∈ device.regions)
    (hrange : range ∈ region.blockRanges) (hhas : range.Has blockIndex)
    (hblock : blockIndex < region.numBlocks) (hconfig : range.isConfig = false)
    (hoffset : offset < size) :
    ¬(region.blockAddress blockIndex ≤ sector.address + offset ∧
      sector.address + offset < region.blockAddress blockIndex + region.bytesPerBlock) := by
  intro hin
  obtain ⟨rfl, rfl⟩ := sector.in_block hdevice hregion hblock hoffset hin.1 hin.2
  have hsame := sector.region.tiles.unique hrange sector.range_mem hhas sector.range_has
  rw [hsame, sector.isConfig] at hconfig
  cases hconfig

theorem erased_bytes (hregion : region ∈ device.regions) (hblock : blockIndex < region.numBlocks)
    (storage : Storage) (a : ℕ) :
    (storage.eraseBlock device (region.blockAddress blockIndex)).1.bytes a =
      if region.blockAddress blockIndex ≤ a ∧
        a < region.blockAddress blockIndex + region.bytesPerBlock
      then 0xFF else storage.bytes a := by
  have hstop := Nat.lt_add_of_pos_right (n := region.blockAddress blockIndex) region.pos
  rw [Storage.eraseBlock_bytes hregion (contains_of_block hblock le_rfl hstop),
    blockIndex_of_block hblock le_rfl hstop]

theorem writePiece_keeps {piece : Piece} {first last : ℕ} {loader : Loader} {data : List UInt8}
    (hdevice : board.devices[i]? = some device) (hregion : region ∈ device.regions)
    (hfits : piece.Fits region first last) (hconfig : piece.range.isConfig = false)
    (hlength : data.length = piece.numOfBytes) :
    sector.Keeps loader.storage (loader.writePiece device piece data).1.storage := by
  intro offset hoffset
  have hout := sector.outside hdevice hregion hfits.mem hfits.has hfits.block hconfig hoffset.lt
  have hstart := hfits.start
  have hstop := hfits.stop
  rw [region.blockAddress_succ] at hstop
  unfold Loader.writePiece
  dsimp only [Storage.mark]
  rw [Storage.write_of_apart (by omega), hfits.same]
  split
  · rw [erased_bytes hregion hfits.block, if_neg hout]
  · rfl

variable {env : Environment} {loader : Loader} {buf : Memory} {location lengthInBytes : ℕ}

theorem accessPiece_keeps {piece : Piece} {first last : ℕ} (mode : AccessMode)
    (hdevice : board.devices[i]? = some device) (hregion : region ∈ device.regions)
    (hfits : piece.Fits region first last) :
    sector.Keeps loader.storage
      (loader.accessPiece board env mode device location lengthInBytes piece buf).1.storage := by
  unfold Loader.accessPiece
  cases mode with
  | check =>
    dsimp only
    split <;> exact .refl _
  | read => exact .refl _
  | write =>
    dsimp only
    split
    · rw [writeConfigPiece_storage]
      exact .refl _
    · rename_i hconfig
      exact writePiece_keeps hdevice hregion hfits (by simpa using hconfig) (by simp)
  | erase =>
    dsimp only
    split
    · exact .refl _
    · rename_i hconfig
      intro offset hoffset
      have hout := sector.outside hdevice hregion hfits.mem hfits.has hfits.block
        (by simpa using hconfig) hoffset.lt
      dsimp only
      rw [hfits.same, erased_bytes hregion hfits.block, if_neg hout]

theorem accessPieces_keeps {pieces : List Piece} {first last : ℕ} (mode : AccessMode)
    (hdevice : board.devices[i]? = some device)
    (hfits : ∀ piece ∈ pieces, ∃ region ∈ device.regions, piece.Fits region first last) :
    sector.Keeps loader.storage
      (loader.accessPieces board env mode device location lengthInBytes pieces buf).1.storage := by
  induction pieces generalizing loader buf with
  | nil => exact .refl _
  | cons piece pieces ih =>
    obtain ⟨region, hregion, hpiece⟩ := hfits piece mem_cons_self
    have hturn := @accessPiece_keeps board sector i device region env loader buf location
      lengthInBytes piece first last mode hdevice hregion hpiece
    rw [Loader.accessPieces]
    dsimp only
    split
    · exact hturn.trans (ih fun later hlater ↦ hfits later (mem_cons_of_mem _ hlater))
    · exact hturn
    · exact hturn

theorem accessMemory_keeps (mode : AccessMode) :
    sector.Keeps loader.storage
      (loader.accessMemory board env location lengthInBytes buf mode).1.storage := by
  unfold Loader.accessMemory
  split
  · rw [accessRam_storage]
    exact .refl _
  · rename_i i device blockAddress hfind
    split
    · exact .refl _
    · rename_i pieces hpieces
      exact accessPieces_keeps mode (findDevice_spec hfind).1 fun piece hpiece ↦
        (pieces_reached hpieces piece hpiece).1

/-! ## Bit fields -/

variable (sector) in
/-- The bit fields of a sector at the address are apart from the version and the keys. -/
def Clear (baseAddress : ℕ) : Prop :=
  ∀ o offset, signatureCheck ≤ o →
    o < signatureCheck + 288 → Guarded offset →
      sector.address + offset ≠ baseAddress + o

/-- The configuration that is found in a device starts one of its blocks. -/
theorem site {j baseAddress : ℕ} (hdevice : board.devices[i]? = some device)
    (hstream : streamInitialize board BlockUsage.CONFIG i = some (j, baseAddress))
    (hregion : (device.findRegionFromAddress baseAddress).bind (device.regions[·.1]?) =
      some region) :
    region ∈ device.regions ∧
      (∃ blockIndex, blockIndex < region.numBlocks ∧
        baseAddress = region.blockAddress blockIndex) ∧
      sector.Clear baseAddress := by
  obtain ⟨⟨iRegion, iRange⟩, hfound, hindex⟩ := bind_eq_some_iff.mp hregion
  obtain ⟨region', hindex', hin, -⟩ := findRegion_has hfound
  obtain rfl := some.inj (hindex'.symm.trans hindex)
  have hmem := mem_of_getElem? hindex'
  obtain ⟨other, hother, hfound⟩ := streamInitialize_spec hstream
  obtain ⟨region, hstored, range, hrange, husage, rfl⟩ := findForBlockUsage_spec hfound
  have htile := region.tiles.le_start hrange
  have hblock : range.startBlock < region.numBlocks := by omega
  have hstart := contains_of_block hblock le_rfl (Nat.lt_add_of_pos_right region.pos)
  obtain rfl := sector.sound.apart i j device other _ hdevice hother ⟨region', hmem, hin⟩
    ⟨region, hstored, hstart⟩
  obtain rfl := some.inj (hdevice.symm.trans hother)
  obtain rfl := BlockDeviceInfo.region_unique hstored hmem hstart hin
  refine ⟨hmem, ⟨range.startBlock, hblock, rfl⟩, ?_⟩
  intro o offset hfirst hlast hoffset heq
  have hsize := (sector.sound.config _ (mem_of_getElem? hdevice) _ hstored _ hrange husage).2
  have hfits : signatureCheck + 288 ≤ size := by decide
  have hsame := sector.in_block hdevice hstored hblock hoffset.lt (by omega) (by omega)
  have houtside := hoffset.outside
  have hbefore : booterFlagArray ≤ signatureCheck := by decide
  rw [hsame.1, hsame.2] at heq
  have haddress : sector.address = sector.region.blockAddress sector.range.startBlock := rfl
  omega

variable (sector) in
/-- The manager works on bit fields in RAM or apart from the version and the keys. -/
def Sited (manager : BitFieldManager) : Prop :=
  manager.fUsingRAM = false → ∀ i device region, manager.blockDevice = some i →
    board.devices[i]? = some device → manager.region = some region →
      region ∈ device.regions ∧
        (∃ blockIndex, blockIndex < region.numBlocks ∧
          manager.cfgPhysicalAddress = region.blockAddress blockIndex) ∧
        sector.Clear manager.cfgPhysicalAddress

variable {manager : BitFieldManager}

/-- A block that is written as it was but for its bit fields keeps the version and the keys. -/
theorem rewrite_keeps {bytes data : Memory} {baseAddress : ℕ} (hclear : sector.Clear baseAddress)
    (hdata : ∀ o, o < signatureCheck ∨
      signatureCheck + 288 ≤ o → data o = bytes (baseAddress + o))
    (hoffset : Guarded offset) {o : ℕ} (heq : sector.address + offset = baseAddress + o) :
    data o = bytes (sector.address + offset) := by
  have hout : o < signatureCheck ∨ signatureCheck + 288 ≤ o := by
    by_contra hin
    exact hclear o offset (by omega) (by omega) hoffset heq
  rw [hdata o hout, heq]

theorem resetSignatureCheckArray_keeps (h : sector.Sited manager) (storage : Storage) :
    sector.Keeps storage (manager.resetSignatureCheckArray board env storage).2 := by
  unfold BitFieldManager.resetSignatureCheckArray
  split
  · exact .refl _
  rename_i device hdevice
  obtain ⟨i, hi, hdevice⟩ := bind_eq_some_iff.mp hdevice
  split
  · exact .refl _
  rename_i hram
  split
  · exact .refl _
  rename_i region hregion
  split
  · exact .refl _
  · obtain ⟨hmem, ⟨blockIndex, hblock, haddress⟩, hclear⟩ := h (by simpa using hram) i device region
      hi hdevice hregion
    intro offset hoffset
    dsimp only
    have hdata : ∀ o, o < signatureCheck ∨
        signatureCheck + 288 ≤ o →
        store (fun i ↦ storage.bytes (manager.cfgPhysicalAddress + i))
          signatureCheck (replicate 288 0xFF) o =
        storage.bytes (manager.cfgPhysicalAddress + o) := by
      intro o ho
      exact store_of_apart (by rwa [length_replicate])
    generalize store _ _ _ = data at hdata ⊢
    have herased := erased_bytes hmem hblock storage
    rw [← haddress] at herased
    by_cases hin : manager.cfgPhysicalAddress ≤ sector.address + offset ∧
        sector.address + offset < manager.cfgPhysicalAddress + region.bytesPerBlock
    · have hwritten := @Storage.write_erased
        (storage.eraseBlock device manager.cfgPhysicalAddress).1
        (load data 0 region.bytesPerBlock) manager.cfgPhysicalAddress (sector.address + offset)
        region.bytesPerBlock (sector.address + offset - manager.cfgPhysicalAddress)
        (fun x hle hlt ↦ by rw [herased, if_pos ⟨hle, hlt⟩]) (by omega) (by omega)
        (by rw [length_load]; omega)
      rw [hwritten, getElem_load, Nat.zero_add]
      exact rewrite_keeps hclear hdata hoffset (by omega)
    · rw [Storage.write_of_apart (by rw [length_load]; omega), herased, if_neg hin]

theorem getNextSectorSignatureCheck_keeps (device : Option ℕ) (manager : BitFieldManager)
    (storage : Storage) (bitField : SectorBitField) :
    sector.Keeps storage
      (manager.getNextSectorSignatureCheck board env device storage bitField).2.1 := by
  unfold BitFieldManager.getNextSectorSignatureCheck
  dsimp only
  split
  · exact .refl _
  rename_i i found hdevice
  obtain ⟨j, rfl, hfound⟩ := bind_eq_some_iff.mp hdevice
  obtain ⟨device, hdevice, heq⟩ := map_eq_some_iff.mp hfound
  cases heq
  split
  · exact .refl _
  rename_i k baseAddress hstream
  split
  · exact .refl _
  rename_i region hregion
  have hsite := @site board sector i found region k baseAddress hdevice hstream hregion
  have hsited : ∀ field pointer, sector.Sited { manager with
      skipCfgSectorCheck := field
      signatureCheck := pointer
      blockDevice := some i
      cfgPhysicalAddress := baseAddress
      region := some region
      fUsingRAM := false } := by
    intro field pointer _ j' device' region' hj hdevice' hregion'
    cases hj
    cases hregion'
    rw [hdevice] at hdevice'
    cases hdevice'
    exact hsite
  split
  · split
    · exact .refl _
    · exact resetSignatureCheckArray_keeps (hsited _ _) storage
  · split
    · exact .refl _
    · exact resetSignatureCheckArray_keeps (hsited _ _) storage

/-! ## Boot-time cleanup -/

variable (sector) in
/-- What the manager points to in flash is one of these bit fields. -/
structure Aimed (manager : BitFieldManager) : Prop where
  sited : sector.Sited manager
  pointer : ∀ address, manager.signatureCheck = .flash address →
    (∃ n, n < c_MaxSignatureCount ∧
      address = manager.cfgPhysicalAddress + signatureCheck + 36 * n) ∧
    sector.Clear manager.cfgPhysicalAddress

theorem Aimed.mark (h : sector.Aimed manager) (dirty : Bool) :
    sector.Aimed { manager with fSignatureCheckDirty := dirty } := ⟨h.sited, h.pointer⟩

theorem firstValid_lt {bytes : Memory} {n : ℕ} (h : firstValid bytes a = some n) :
    n < c_MaxSignatureCount :=
  mem_range.mp (mem_of_find?_eq_some h)

theorem setDirtySectorBit_keeps (h : sector.Aimed manager) (sectorIndex : ℕ) (storage : Storage) :
    sector.Keeps storage (manager.setDirtySectorBit board env sectorIndex storage).2 := by
  unfold BitFieldManager.setDirtySectorBit
  split
  · exact .refl _
  rename_i hsmall
  have hword : sectorIndex / 32 ≤ 8 := by
    unfold c_MaxSectorCount at hsmall
    omega
  split
  · exact .refl _
  rename_i hram
  split
  · exact .refl _
  rename_i device hdevice
  obtain ⟨i, hi, hdevice⟩ := bind_eq_some_iff.mp hdevice
  dsimp only
  split
  · split
    · rename_i address hpointer
      obtain ⟨⟨n, hn, rfl⟩, hclear⟩ := h.pointer address hpointer
      unfold c_MaxSignatureCount at hn
      intro offset hoffset
      apply Storage.write_of_apart
      rw [leBytes_length]
      by_contra hin
      exact hclear (sector.address + offset - manager.cfgPhysicalAddress) offset (by omega)
        (by omega) hoffset (by omega)
    · exact .refl _
  · split
    · exact .refl _
    rename_i region hregion
    split
    · exact .refl _
    · obtain ⟨-, -, hclear⟩ := h.sited (by simpa using hram) i device region hi hdevice hregion
      intro offset hoffset
      apply Storage.write_unchanged
      intro o ho heq
      rw [getElem_load, Nat.zero_add]
      apply rewrite_keeps hclear _ hoffset heq
      intro o ho
      cases hvalid : firstValid (fun i ↦ storage.bytes (manager.cfgPhysicalAddress + i)) 0 with
      | none => rfl
      | some n =>
        have hn := firstValid_lt hvalid
        unfold c_MaxSignatureCount at hn
        exact storeWord_of_apart (by omega)

/-- The reset of bit fields in flash leaves the manager. -/
theorem resetSignatureCheckArray_manager (h : manager.fUsingRAM = false) (storage : Storage) :
    (manager.resetSignatureCheckArray board env storage).1 = manager := by
  unfold BitFieldManager.resetSignatureCheckArray
  split
  · rfl
  · rw [if_neg (by simp [h])]
    split
    · rfl
    · split <;> rfl

/-- A manager that starts afresh ends up with bit fields apart from the version and the keys. -/
theorem getNextSectorSignatureCheck_aimed (device : Option ℕ) (manager : BitFieldManager)
    (storage : Storage) (bitField : SectorBitField) :
    sector.Aimed (manager.resetBitFieldManager.getNextSectorSignatureCheck board env device storage
      bitField).1 := by
  have hnone : ∀ manager : BitFieldManager, manager.region = none → manager.signatureCheck = .null →
      sector.Aimed manager := by
    intro manager hregion hpointer
    constructor
    · intro _ i device region _ _ hsome
      rw [hregion] at hsome
      cases hsome
    · intro address hflash
      rw [hpointer] at hflash
      cases hflash
  unfold BitFieldManager.getNextSectorSignatureCheck
  dsimp only
  split
  · exact hnone _ rfl rfl
  rename_i i found hdevice
  obtain ⟨j, rfl, hfound⟩ := bind_eq_some_iff.mp hdevice
  obtain ⟨device, hdevice, heq⟩ := map_eq_some_iff.mp hfound
  cases heq
  split
  · constructor
    · intro hram
      cases hram
    · intro address hflash
      cases hflash
  rename_i k baseAddress hstream
  split
  · exact hnone _ rfl rfl
  rename_i region hregion
  have hsite := @site board sector i found region k baseAddress hdevice hstream hregion
  have haimed : ∀ manager : BitFieldManager, manager.blockDevice = some i →
      manager.region = some region → manager.cfgPhysicalAddress = baseAddress →
      (manager.signatureCheck = .skipCfgSectorCheck ∨
        ∃ n, n < c_MaxSignatureCount ∧ manager.signatureCheck =
          .flash (baseAddress + signatureCheck + 36 * n)) →
      sector.Aimed manager := by
    rintro manager hi hsome rfl hpointer
    constructor
    · intro _ i' device' region' hi' hdevice' hregion'
      obtain rfl := some.inj (hi.symm.trans hi')
      obtain rfl := some.inj (hsome.symm.trans hregion')
      obtain rfl := some.inj (hdevice.symm.trans hdevice')
      exact hsite
    · intro address hflash
      rw [hflash] at hpointer
      rcases hpointer with hskip | ⟨n, hn, heq⟩
      · cases hskip
      · cases heq
        exact ⟨⟨n, hn, rfl⟩, hsite.2.2⟩
  split
  · split
    · rename_i n hvalid
      exact haimed _ rfl rfl rfl (.inr ⟨n, firstValid_lt hvalid, rfl⟩)
    · apply haimed
      · rw [resetSignatureCheckArray_manager rfl]
      · rw [resetSignatureCheckArray_manager rfl]
      · rw [resetSignatureCheckArray_manager rfl]
      · exact .inr ⟨0, by decide, rfl⟩
  · split
    · exact haimed _ rfl rfl rfl (.inl rfl)
    · apply haimed
      · rw [resetSignatureCheckArray_manager rfl]
      · rw [resetSignatureCheckArray_manager rfl]
      · rw [resetSignatureCheckArray_manager rfl]
      · exact .inl rfl

theorem invalidateSectorBitField_keeps (h : sector.Aimed manager) (storage : Storage) :
    sector.Keeps storage (manager.invalidateSectorBitField board env storage).2 := by
  unfold BitFieldManager.invalidateSectorBitField
  split
  · dsimp only
    exact (setDirtySectorBit_keeps h _ storage).trans (getNextSectorSignatureCheck_keeps _ _ _ _)
  · exact .refl _

variable (sector) in
/-- The sector is left as it is or erased. -/
def Spares (storage storage' : Storage) : Prop :=
  sector.Keeps storage storage' ∨
    storage'.bytes (sector.address + versionTinyBooter) = 0xFF

theorem Keeps.spares (h : sector.Keeps storage storage') : sector.Spares storage storage' := .inl h

theorem Spares.trans (h : sector.Spares storage storage') (h' : sector.Spares storage' storage'') :
    sector.Spares storage storage'' := by
  rcases h' with hkeeps' | herased'
  · rcases h with hkeeps | herased
    · exact .inl (hkeeps.trans hkeeps')
    · exact .inr ((hkeeps' _ (.inl rfl)).trans herased)
  · exact .inr herased'

theorem eraseBlock_spares (hdevice : board.devices[i]? = some device) (address : ℕ)
    (storage : Storage) : sector.Spares storage (storage.eraseBlock device address).1 := by
  cases hfind : device.regions.find? (·.contains address) with
  | none =>
    rw [Storage.eraseBlock, hfind]
    exact (Keeps.refl _).spares
  | some region =>
    have hregion := mem_of_find?_eq_some hfind
    have hin : region.contains address = true :=
      @List.find?_some _ (fun r : BlockRegionInfo ↦ r.contains address) _ _ hfind
    have hblock := region.blockIndex_lt hin
    have herased := Storage.eraseBlock_bytes hregion hin storage
    by_cases hversion : region.blockAddress (region.blockIndexFromAddress address) ≤
        sector.address + versionTinyBooter ∧
        sector.address + versionTinyBooter <
          region.blockAddress (region.blockIndexFromAddress address) + region.bytesPerBlock
    · exact .inr (by rw [herased, if_pos hversion])
    · left
      intro offset hoffset
      rw [herased, if_neg]
      intro hhas
      obtain ⟨hsame, hindex⟩ := sector.in_block hdevice hregion hblock hoffset.lt hhas.1 hhas.2
      have hsize := sector.size_le
      have hsmall : versionTinyBooter < size := by decide
      have haddress : sector.address = sector.region.blockAddress sector.range.startBlock := rfl
      rw [hindex, hsame] at hversion
      omega

theorem eraseDirty_spares (hdevice : board.devices[i]? = some device) (dirty : List ℕ)
    (regions : List BlockRegionInfo) (iRange iAbsBlock : ℕ) (storage : Storage) :
    sector.Spares storage
      (BitFieldManager.eraseDirty device dirty regions iRange iAbsBlock storage) := by
  induction dirty generalizing regions iRange iAbsBlock storage with
  | nil => exact (Keeps.refl _).spares
  | cons blockIndex dirty ih =>
    rw [BitFieldManager.eraseDirty]
    apply Spares.trans _ (ih _ _ _ _)
    split
    · exact eraseBlock_spares hdevice _ _
    · exact (Keeps.refl _).spares

/-- The cleanup leaves the version and the keys unless it erases the sector. -/
theorem eraseOnSignatureCheckFail_spares (manager : BitFieldManager) (storage : Storage) :
    sector.Spares storage (manager.eraseOnSignatureCheckFail board env storage).2 := by
  unfold BitFieldManager.eraseOnSignatureCheckFail
  refine foldlRecOn (motive := fun state : BitFieldManager × Storage ↦ sector.Spares storage state.2)
    _ _ (Keeps.refl _).spares ?_
  rintro ⟨manager, storage'⟩ hspares ⟨device, i⟩ hmem
  have hdevice : board.devices[i]? = some device := mk_mem_zipIdx_iff_getElem?.mp hmem
  have haimed := @getNextSectorSignatureCheck_aimed board sector env (some i) manager storage'
    (read env.stack 0)
  have hfound := @getNextSectorSignatureCheck_keeps board sector env (some i)
    manager.resetBitFieldManager storage' (read env.stack 0)
  dsimp only
  generalize manager.resetBitFieldManager.getNextSectorSignatureCheck board env (some i) storage'
    (read env.stack 0) = found at haimed hfound ⊢
  have herased := @eraseDirty_spares board sector i device hdevice
    (BitFieldManager.dirtySectors found.2.2) device.regions 0 0 found.2.1
  exact hspares.trans (hfound.spares.trans
    (herased.trans (invalidateSectorBitField_keeps (haimed.mark _) _).spares))

end ConfigSector

end MicroFramework.TinyBooter
