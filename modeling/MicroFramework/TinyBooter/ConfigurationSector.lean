import MicroFramework.TinyBooter.BlockStorage

/-!
# The configuration sector

The sector that holds the keys, the boot flags and the signature check bit fields of a device, the
manager of the bit fields, which are to mark the sectors that were written and not yet checked, and
the manager of the primary configuration.
-/

namespace MicroFramework.TinyBooter

open Library Support

/-! ## Layout -/

namespace ConfigurationSector

def c_MaxBootEntryFlags : ℕ := 50
def c_MaxSignatureCount : ℕ := 8
def c_BootEntryKey : ℕ := 0x42544C44
def c_DeployKeyCount : UInt32 := 2
def c_DeployKeyDeployment : ℕ := 1
def c_CurrentVersionTinyBooter : UInt8 := 4

def versionTinyBooter : ℕ := 6

def booterFlagArray : ℕ := 96

def signatureCheck : ℕ := 296

def deploymentKeys : ℕ := 584

def keySize : ℕ := 260

def size : ℕ := 2316

end ConfigurationSector

abbrev SectorBitField := List UInt32

namespace SectorBitField

def c_MaxSectorCount : ℕ := 287
def c_MaxFieldUnits : ℕ := 9

def read (bytes : Memory) (address : ℕ) : SectorBitField :=
  (List.range c_MaxFieldUnits).map fun i ↦ UInt32.ofNat (loadWord bytes (address + 4 * i))

def isValid (field : SectorBitField) : Bool :=
  field.getD (c_MaxFieldUnits - 1) 0 &&& 0x80000000 = 0x80000000

def clear (word : UInt32) (sectorIndex : ℕ) : UInt32 :=
  word &&& ~~~(1 <<< UInt32.ofNat (sectorIndex % 32))

def clearSector (field : SectorBitField) (sectorIndex : ℕ) : SectorBitField :=
  field.set (sectorIndex / 32) (clear (field.getD (sectorIndex / 32) 0) sectorIndex)

/-- `memset(.., 0xff, ..)` -/
def ones : SectorBitField := List.replicate c_MaxFieldUnits 0xFFFFFFFF

def firstValid (bytes : Memory) (sector : ℕ) : Option ℕ :=
  (List.range ConfigurationSector.c_MaxSignatureCount).find? fun i ↦
    isValid (read bytes (sector + ConfigurationSector.signatureCheck + 36 * i))

end SectorBitField

/-! ## The variables of the loader -/

/-- `m_signatureCheck` -/
inductive SignaturePointer
  | null
  | flash (address : ℕ)
  | skipCfgSectorCheck
  deriving DecidableEq, Repr

structure BitFieldManager where
  signatureCheck : SignaturePointer
  skipCfgSectorCheck : SectorBitField
  fSignatureCheckDirty : Bool
  blockDevice : Option ℕ
  cfgPhysicalAddress : ℕ
  region : Option BlockRegionInfo
  fUsingRAM : Bool

structure ConfigurationSectorManager where
  localCfg : Memory
  device : Option ℕ
  cfgPhysicalAddress : ℕ
  region : Option BlockRegionInfo
  fSupportsXIP : Bool
  booterAddressOffset : ℕ

/-- The pending record of the loader. -/
structure SignedDataState where
  dataAddress : UInt32
  dataLength : UInt32
  sectorType : UInt32
  pDevice : Option ℕ

/-- What the loader keeps in RAM of its own. -/
structure Variables where
  configBuffer : Option Memory
  configBufferLength : ℕ
  config : ConfigurationSectorManager
  bitField : BitFieldManager
  signed : SignedDataState

/-! ## The board -/

/-- What a board is built with.  `rsaVerify` takes a key, the signed data and the signature;
`ownRam` tells where the variables of the loader, its stack and its heap are. -/
structure Board where
  devices : List BlockDeviceInfo
  programWordCheck : ℕ
  ramBase : ℕ
  ramSize : ℕ
  ownRam : ℕ → Bool
  flashBase : ℕ
  flashSize : ℕ
  computeCRC : List UInt8 → ℕ → ℕ
  rsaVerify : List UInt8 → List UInt8 → List UInt8 → Bool

/-- What an operation finds: a block of the heap of the size it asks for, with whatever is in it, what
is on the stack, and what becomes of the variables when RAM of the loader itself is overwritten. -/
structure Environment where
  heap : ℕ → Option Memory
  stack : Memory
  overwritten : Variables → Variables

/-- The byte belongs to a device, outside the configuration. -/
def Board.Unprotected (board : Board) (a : ℕ) : Prop :=
  ∃ device ∈ board.devices, device.Unprotected a

instance (board : Board) : DecidablePred board.Unprotected :=
  fun a ↦ inferInstanceAs (Decidable (∃ device ∈ board.devices, device.Unprotected a))

def BlockDeviceInfo.findForBlockUsage (device : BlockDeviceInfo) (usage : UInt32) : Option ℕ :=
  device.regions.findSome? fun region ↦
    (region.blockRanges.find? fun range ↦ range.getBlockUsage = usage).map fun range ↦
      region.blockAddress range.startBlock

/-- `BlockStorageStream::Initialize`: the first range with the usage in the device or a later one. -/
def streamInitialize (board : Board) (usage : UInt32) (first : ℕ) : Option (ℕ × ℕ) :=
  (board.devices.zipIdx.drop first).findSome? fun (device, i) ↦
    (device.findForBlockUsage usage).map fun address ↦ (i, address)

/-! ## The bit fields -/

namespace BitFieldManager

def resetBitFieldManager (manager : BitFieldManager) : BitFieldManager where
  signatureCheck := .null
  skipCfgSectorCheck := manager.skipCfgSectorCheck
  fSignatureCheckDirty := false
  blockDevice := none
  cfgPhysicalAddress := 0
  region := none
  fUsingRAM := false

variable (board : Board) (env : Environment)

/-- All bit fields of the sector are set to ones, which takes an erasure of its block. -/
def resetSignatureCheckArray (manager : BitFieldManager) (storage : Storage) :
    BitFieldManager × Storage :=
  match manager.blockDevice.bind (board.devices[·]?) with
  | none => (manager, storage)
  | some device =>
    if manager.fUsingRAM then
      ({ manager with
        skipCfgSectorCheck := SectorBitField.ones
        signatureCheck := .skipCfgSectorCheck }, storage)
    else
      match manager.region with
      | none => (manager, storage)
      | some region =>
        match env.heap region.bytesPerBlock with
        | none => (manager, storage) -- "Failed to malloc spaces"
        | some _ =>
          let data : Memory := fun i ↦ storage.bytes (manager.cfgPhysicalAddress + i)
          let data := store data ConfigurationSector.signatureCheck (List.replicate 288 0xFF)
          let (storage, _) := storage.eraseBlock device manager.cfgPhysicalAddress
          let (storage, _) := storage.write manager.cfgPhysicalAddress
            (load data 0 region.bytesPerBlock)
          (manager, storage)

def setDirtySectorBit (sectorIndex : ℕ) (manager : BitFieldManager) (storage : Storage) :
    BitFieldManager × Storage :=
  if SectorBitField.c_MaxSectorCount < sectorIndex then (manager, storage)
  else if manager.fUsingRAM then
    ({ manager with
      skipCfgSectorCheck := manager.skipCfgSectorCheck.clearSector sectorIndex
      fSignatureCheckDirty := true }, storage)
  else
    match manager.blockDevice.bind (board.devices[·]?) with
    | none => (manager, storage)
    | some device =>
      let manager := { manager with fSignatureCheckDirty := true }
      if device.supportsXIP then
        match manager.signatureCheck with
        | .flash address =>
          let dataAddr := address + 4 * (sectorIndex / 32)
          let data := SectorBitField.clear (UInt32.ofNat (loadWord storage.bytes dataAddr))
            sectorIndex
          (manager, (storage.write dataAddr (leBytes 4 data.toNat)).1)
        | _ => (manager, storage)
      else
        match manager.region with
        | none => (manager, storage)
        | some region =>
          match env.heap region.bytesPerBlock with
          | none => (manager, storage)
          | some _ =>
            let data : Memory := fun i ↦ storage.bytes (manager.cfgPhysicalAddress + i)
            let data := match SectorBitField.firstValid data 0 with
              | none => data
              | some i =>
                let word := ConfigurationSector.signatureCheck + 36 * i + 4 * (sectorIndex / 32)
                storeWord data word
                  (SectorBitField.clear (UInt32.ofNat (loadWord data word)) sectorIndex).toNat
            (manager, (storage.write manager.cfgPhysicalAddress
              (load data 0 region.bytesPerBlock)).1)

/-- The next valid bit field of the device is found, after a reset of all of them if none is left.
The last argument is what the caller's variable holds, which is not always assigned. -/
def getNextSectorSignatureCheck (device : Option ℕ) (manager : BitFieldManager) (storage : Storage)
    (bitField : SectorBitField) : BitFieldManager × Storage × SectorBitField :=
  let manager := { manager with blockDevice := device }
  match device.bind fun i ↦ (board.devices[i]?).map fun device ↦ (i, device) with
  | none => (manager, storage, bitField)
  | some (i, device) =>
    match streamInitialize board BlockUsage.CONFIG i with
    | none =>
      ({ manager with
        skipCfgSectorCheck := SectorBitField.ones
        signatureCheck := .skipCfgSectorCheck
        fUsingRAM := true
        cfgPhysicalAddress := 0 }, storage, SectorBitField.ones)
    | some (_, baseAddress) =>
      let manager := { manager with cfgPhysicalAddress := baseAddress }
      match (device.findRegionFromAddress baseAddress).bind (device.regions[·.1]?) with
      | none => (manager, storage, bitField) -- ASSERT(FALSE)
      | some region =>
        let manager := { manager with region := some region, fUsingRAM := false }
        let fieldAddress (i : ℕ) := baseAddress + ConfigurationSector.signatureCheck + 36 * i
        if device.supportsXIP then
          match SectorBitField.firstValid storage.bytes baseAddress with
          | some i => ({ manager with signatureCheck := .flash (fieldAddress i) }, storage,
              SectorBitField.read storage.bytes (fieldAddress i))
          | none =>
            let (manager, storage) := resetSignatureCheckArray board env
              { manager with signatureCheck := .null } storage
            ({ manager with signatureCheck := .flash (fieldAddress 0) }, storage,
              SectorBitField.read storage.bytes (fieldAddress 0))
        else
          match SectorBitField.firstValid storage.bytes baseAddress with
          | some i =>
            let field := SectorBitField.read storage.bytes (fieldAddress i)
            ({ manager with
              skipCfgSectorCheck := field
              signatureCheck := .skipCfgSectorCheck }, storage, field)
          | none =>
            let (manager, storage) := resetSignatureCheckArray board env
              { manager with
                skipCfgSectorCheck := SectorBitField.ones
                signatureCheck := .null } storage
            ({ manager with signatureCheck := .skipCfgSectorCheck }, storage,
              manager.skipCfgSectorCheck)

/-- A dirty bit field loses its valid bit, and the next one is used. -/
def invalidateSectorBitField (manager : BitFieldManager) (storage : Storage) :
    BitFieldManager × Storage :=
  if manager.fSignatureCheckDirty then
    let (manager, storage) := setDirtySectorBit board env SectorBitField.c_MaxSectorCount manager
      storage
    let (manager, storage, _) := getNextSectorSignatureCheck board env manager.blockDevice manager
      storage (SectorBitField.read env.stack 0)
    ({ manager with fSignatureCheckDirty := false }, storage)
  else (manager, storage)

/-- The search for a block goes on in a region at the range where the last one ended: the offset
found, the range and the number of blocks before it. -/
def rangeSearch (blockIndex : ℕ) : List BlockRange → (iRange iAbsBlock : ℕ) → Option ℕ × ℕ × ℕ
  | [], iRange, iAbsBlock => (none, iRange, iAbsBlock)
  | range :: ranges, iRange, iAbsBlock =>
    if iAbsBlock ≤ blockIndex ∧ blockIndex ≤ iAbsBlock + range.getBlockCount then
      (some (blockIndex - iAbsBlock), iRange, iAbsBlock)
    else rangeSearch blockIndex ranges (iRange + 1) (iAbsBlock + range.getBlockCount)

/-- The search goes on in the next region without going back to its first range.  Behind the last
range nothing is found, where the code reads past its tables. -/
def sectorSearch (blockIndex : ℕ) : List BlockRegionInfo → (iRange iAbsBlock : ℕ) →
    Option ℕ × List BlockRegionInfo × ℕ × ℕ
  | [], iRange, iAbsBlock => (none, [], iRange, iAbsBlock)
  | region :: regions, iRange, iAbsBlock =>
    let (offset, iRange, iAbsBlock) :=
      rangeSearch blockIndex (region.blockRanges.drop iRange) iRange iAbsBlock
    match offset with
    | some offset => (some (region.blockAddress offset), region :: regions, iRange, iAbsBlock)
    | none => sectorSearch blockIndex regions iRange iAbsBlock

def eraseDirty (device : BlockDeviceInfo) :
    List ℕ → List BlockRegionInfo → (iRange iAbsBlock : ℕ) → Storage → Storage
  | [], _, _, _, storage => storage
  | blockIndex :: dirty, regions, iRange, iAbsBlock, storage =>
    let (address, regions, iRange, iAbsBlock) := sectorSearch blockIndex regions iRange iAbsBlock
    let storage := match address with
      | some address => (storage.eraseBlock device address).1
      | none => storage
    eraseDirty device dirty regions iRange iAbsBlock storage

def dirtySectors (bitField : SectorBitField) : List ℕ :=
  (List.range (32 * SectorBitField.c_MaxFieldUnits)).filter fun i ↦
    bitField.getD (i / 32) 0 &&& 1 <<< UInt32.ofNat (i % 32) = 0

/-- Every sector a bit field still marks as dirty when the loader starts is erased. -/
def eraseOnSignatureCheckFail (manager : BitFieldManager) (storage : Storage) :
    BitFieldManager × Storage :=
  board.devices.zipIdx.foldl (fun (manager, storage) (device, i) ↦
    let (manager, storage, bitField) := getNextSectorSignatureCheck board env (some i)
      manager.resetBitFieldManager storage (SectorBitField.read env.stack 0)
    let dirty := dirtySectors bitField
    let storage := eraseDirty device dirty device.regions 0 0 storage
    let manager := { manager with
      fSignatureCheckDirty := manager.fSignatureCheckDirty || !dirty.isEmpty }
    invalidateSectorBitField board env manager storage) (manager, storage)

end BitFieldManager

/-! ## The primary configuration -/

namespace ConfigurationSectorManager

/-- `m_configurationSector`: in flash, or a copy. -/
def sector (config : ConfigurationSectorManager) (storage : Storage) : Memory := fun i ↦
  if config.fSupportsXIP then storage.bytes (config.cfgPhysicalAddress + i) else config.localCfg i

def loadConfiguration (config : ConfigurationSectorManager) (storage : Storage) :
    ConfigurationSectorManager :=
  if config.device.isNone || config.fSupportsXIP then config
  else { config with localCfg := fun i ↦ storage.bytes (config.cfgPhysicalAddress + i) }

def locateConfigurationSector (board : Board) (usage : UInt32) (storage : Storage)
    (config : ConfigurationSectorManager) : ConfigurationSectorManager :=
  let config := { config with booterAddressOffset := 0xFFFFFFFF }
  match streamInitialize board usage 0 with
  | none => { config with device := none, region := none, fSupportsXIP := true }
  | some (i, baseAddress) =>
    let device := board.devices[i]?
    let config := { config with
      device := some i
      cfgPhysicalAddress := baseAddress
      region := device.bind fun device ↦
        (device.findRegionFromAddress baseAddress).bind (device.regions[·.1]?)
      fSupportsXIP := device.any BlockDeviceInfo.supportsXIP }
    config.loadConfiguration storage

/-- The block with the configuration is erased and written, and what is behind the block as well. -/
def eraseWriteConfigBlock (board : Board) (config : ConfigurationSectorManager) (storage : Storage)
    (data : List UInt8) : ConfigurationSectorManager × Storage :=
  match config.device.bind (board.devices[·]?) with
  | none => (config, storage)
  | some device =>
    let (storage, _) := storage.eraseBlock device config.cfgPhysicalAddress
    let (storage, _) := storage.write config.cfgPhysicalAddress data
    let storage := storage.mark fun a ↦ config.cfgPhysicalAddress ≤ a ∧
      a < config.cfgPhysicalAddress + data.length ∧ board.Unprotected a
    (config.loadConfiguration storage, storage)

/-- Where the boot flags ask for the boot loader. -/
def bootEntry (sector : Memory) : List ℕ → Option ℕ
  | [] => none
  | i :: rest =>
    let flag := loadWord sector (ConfigurationSector.booterFlagArray + 4 * i)
    if flag = ConfigurationSector.c_BootEntryKey then
      some (ConfigurationSector.booterFlagArray + 4 * i)
    else if flag = 0xFFFFFFFF then none
    else bootEntry sector rest

def isBootLoaderRequired (config : ConfigurationSectorManager) (storage : Storage) :
    ConfigurationSectorManager × Bool :=
  if config.device.isNone then (config, false)
  else
    match bootEntry (config.sector storage) (List.range ConfigurationSector.c_MaxBootEntryFlags) with
    | some offset => ({ config with booterAddressOffset := offset }, true)
    | none => (config, false)

/-- Some bit of the configuration would have to be set. -/
def mustErase (config : ConfigurationSectorManager) (storage : Storage) (writeOffset : ℕ)
    (data : List UInt8) : Bool :=
  data.zipIdx.any fun (byte, i) ↦ ~~~config.sector storage (i + writeOffset) &&& byte ≠ 0

/-- How much is written: the block if it is erased, the sector or the data alone. -/
def writeLengthInBytes (config : ConfigurationSectorManager) (eraseWrite : Bool) (size : ℕ) : ℕ :=
  if eraseWrite then config.region.elim 0 (·.bytesPerBlock)
  else if config.fSupportsXIP then size
  else ConfigurationSector.size

/-- Data is put into the configuration.  Without memory for the block, what is at address 0 is
written. -/
def writeConfiguration (board : Board) (env : Environment) (ram : Memory) (writeOffset : ℕ)
    (data : List UInt8) (checkWrite : Bool) (config : ConfigurationSectorManager)
    (storage : Storage) : ConfigurationSectorManager × Storage :=
  match config.device.bind (board.devices[·]?) with
  | none => (config, storage)
  | some device =>
    let config := config.loadConfiguration storage
    let eraseWrite := checkWrite && config.mustErase storage writeOffset data
    let length := config.writeLengthInBytes eraseWrite data.length
    if eraseWrite || !config.fSupportsXIP then
      let block : Memory :=
        if (env.heap length).isSome then
          store (fun i ↦ storage.bytes (config.cfgPhysicalAddress + i)) writeOffset data
        else ram -- ASSERT(0)
      let storage :=
        if eraseWrite then (storage.eraseBlock device config.cfgPhysicalAddress).1 else storage
      (config, (storage.write config.cfgPhysicalAddress (load block 0 length)).1)
    else (config, (storage.write (config.cfgPhysicalAddress + writeOffset) data).1)

/-- The flag that asked for the boot loader is overwritten with zeros. -/
def cleanBootLoaderFlag (board : Board) (env : Environment) (ram : Memory)
    (config : ConfigurationSectorManager) (storage : Storage) :
    ConfigurationSectorManager × Storage :=
  if config.booterAddressOffset = 0xFFFFFFFF then (config, storage)
  else
    config.writeConfiguration board env ram config.booterAddressOffset (leBytes 4 0) false storage

def deploymentKey (config : ConfigurationSectorManager) (storage : Storage) (index : ℕ) :
    List UInt8 :=
  load (config.sector storage)
    (ConfigurationSector.deploymentKeys + ConfigurationSector.keySize * index)
    ConfigurationSector.keySize

def checkSignatureKeyEmpty (config : ConfigurationSectorManager) (storage : Storage) (index : ℕ) :
    Bool :=
  (config.deploymentKey storage index).all (· = 0xFF)

def verifiySignatureKey (config : ConfigurationSectorManager) (storage : Storage) (index : ℕ)
    (data : List UInt8) : Bool :=
  (config.loadConfiguration storage).deploymentKey storage index = data

def getTinyBooterVersion (config : ConfigurationSectorManager) (storage : Storage) : UInt8 :=
  if config.device.isNone then 0
  else config.sector storage ConfigurationSector.versionTinyBooter

end ConfigurationSectorManager

/-! ## What is never marked -/

namespace Storage.Shrinks

variable {storage storage' storage'' : Storage}

theorem refl (storage : Storage) : storage.Shrinks storage := ⟨fun _ h ↦ h⟩

theorem trans (h : storage.Shrinks storage') (h' : storage'.Shrinks storage'') :
    storage.Shrinks storage'' :=
  ⟨fun a ha ↦ h.marked a (h'.marked a ha)⟩

theorem eraseBlock (device : BlockDeviceInfo) (address : ℕ) (storage : Storage) :
    storage.Shrinks (storage.eraseBlock device address).1 := by
  refine ⟨fun a ha ↦ ?_⟩
  unfold Storage.eraseBlock at ha
  split at ha
  · exact ha
  · dsimp only at ha
    split at ha
    · cases ha
    · exact ha

theorem unverified_write (address : ℕ) (data : List UInt8) (storage : Storage) :
    (storage.write address data).1.unverified = storage.unverified := by
  induction data generalizing address storage with
  | nil => rfl
  | cons byte rest ih =>
    rw [Storage.write]
    split
    · rfl
    · exact ih _ _

theorem write (address : ℕ) (data : List UInt8) (storage : Storage) :
    storage.Shrinks (storage.write address data).1 := by
  refine ⟨fun a ha ↦ ?_⟩
  rwa [unverified_write] at ha

end Storage.Shrinks

namespace BitFieldManager

variable (board : Board) (env : Environment) (manager : BitFieldManager) (storage : Storage)

theorem resetSignatureCheckArray_shrinks :
    storage.Shrinks (resetSignatureCheckArray board env manager storage).2 := by
  unfold resetSignatureCheckArray
  split
  · exact .refl _
  · split
    · exact .refl _
    · split
      · exact .refl _
      · split
        · exact .refl _
        · exact (Storage.Shrinks.eraseBlock _ _ _).trans (.write _ _ _)

theorem setDirtySectorBit_shrinks (sectorIndex : ℕ) :
    storage.Shrinks (setDirtySectorBit board env sectorIndex manager storage).2 := by
  unfold setDirtySectorBit
  split
  · exact .refl _
  split
  · exact .refl _
  split
  · exact .refl _
  dsimp only
  split
  · split
    · exact .write _ _ _
    · exact .refl _
  · split
    · exact .refl _
    · split
      · exact .refl _
      · exact .write _ _ _

theorem getNextSectorSignatureCheck_shrinks (device : Option ℕ) (bitField : SectorBitField) :
    storage.Shrinks
      (getNextSectorSignatureCheck board env device manager storage bitField).2.1 := by
  unfold getNextSectorSignatureCheck
  dsimp only
  split
  · exact .refl _
  split
  · exact .refl _
  split
  · exact .refl _
  split
  · split
    · exact .refl _
    · exact resetSignatureCheckArray_shrinks _ _ _ _
  · split
    · exact .refl _
    · exact resetSignatureCheckArray_shrinks _ _ _ _

theorem invalidateSectorBitField_shrinks :
    storage.Shrinks (invalidateSectorBitField board env manager storage).2 := by
  unfold invalidateSectorBitField
  split
  · exact (setDirtySectorBit_shrinks ..).trans (getNextSectorSignatureCheck_shrinks ..)
  · exact .refl _

theorem eraseDirty_shrinks (device : BlockDeviceInfo) (dirty : List ℕ)
    (regions : List BlockRegionInfo) (iRange iAbsBlock : ℕ) :
    storage.Shrinks (eraseDirty device dirty regions iRange iAbsBlock storage) := by
  induction dirty generalizing regions iRange iAbsBlock storage with
  | nil => exact .refl _
  | cons blockIndex dirty ih =>
    rw [eraseDirty]
    refine Storage.Shrinks.trans ?_ (ih _ _ _ _)
    split
    · exact .eraseBlock _ _ _
    · exact .refl _

theorem eraseOnSignatureCheckFail_shrinks :
    storage.Shrinks (eraseOnSignatureCheckFail board env manager storage).2 := by
  unfold eraseOnSignatureCheckFail
  refine List.foldlRecOn (motive := fun state : BitFieldManager × Storage ↦ storage.Shrinks state.2)
    _ _ (.refl _) ?_
  intro state hstate entry _
  exact hstate.trans ((getNextSectorSignatureCheck_shrinks ..).trans
    ((eraseDirty_shrinks ..).trans (invalidateSectorBitField_shrinks ..)))

end BitFieldManager

namespace ConfigurationSectorManager

variable (board : Board) (config : ConfigurationSectorManager) (storage : Storage)

theorem eraseWriteConfigBlock_marks (data : List UInt8) (a : ℕ)
    (h : (eraseWriteConfigBlock board config storage data).2.unverified a = true) :
    storage.unverified a = true ∨ config.cfgPhysicalAddress ≤ a ∧
      a < config.cfgPhysicalAddress + data.length ∧ board.Unprotected a := by
  unfold eraseWriteConfigBlock at h
  split at h
  · exact .inl h
  · rcases Storage.unverified_mark h with hnew | hold
    · exact .inr hnew
    · rw [Storage.Shrinks.unverified_write] at hold
      exact .inl ((Storage.Shrinks.eraseBlock _ _ _).marked a hold)

theorem writeConfiguration_shrinks (env : Environment) (ram : Memory) (writeOffset : ℕ)
    (data : List UInt8) (checkWrite : Bool) :
    storage.Shrinks
      (config.writeConfiguration board env ram writeOffset data checkWrite storage).2 := by
  unfold writeConfiguration
  split
  · exact .refl _
  dsimp only
  split
  · apply Storage.Shrinks.trans _ (.write _ _ _)
    split
    · exact .eraseBlock _ _ _
    · exact .refl _
  · exact .write _ _ _

theorem cleanBootLoaderFlag_shrinks (env : Environment) (ram : Memory) :
    storage.Shrinks (config.cleanBootLoaderFlag board env ram storage).2 := by
  unfold cleanBootLoaderFlag
  split
  · exact .refl storage
  · exact writeConfiguration_shrinks board config storage env ram _ _ _

end ConfigurationSectorManager

end MicroFramework.TinyBooter
