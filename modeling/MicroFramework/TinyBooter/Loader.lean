import MicroFramework.TinyBooter.AccessMemory

/-!
# The loader

The pending record of data that was written and not yet verified, the handlers of the monitor requests
and what happens at a reset and at the time-out of the main loop.
-/

namespace MicroFramework.TinyBooter

open Library Support ConfigurationSector BitFieldManager

/-! ## The pending record -/

namespace SignedDataState

def checkDirty (signed : SignedDataState) : Bool := signed.dataAddress ≠ 0 || signed.dataLength ≠ 0

end SignedDataState

def RSA_BLOCK_SIZE_BYTES : UInt32 := 128

namespace Loader

variable (board : Board) (env : Environment)

def resetSigned (loader : Loader) : Loader :=
  { loader with
    signed := { loader.signed with dataAddress := 0, dataLength := 0, pDevice := none }
    bitField := loader.bitField.resetBitFieldManager }

def eraseMemoryAndReset (loader : Loader) : Loader :=
  if loader.signed.dataAddress ≠ 0 then
    let (loader, _, _) := loader.accessMemory board env loader.signed.dataAddress.toNat
      loader.signed.dataLength.toNat env.stack .erase
    let (bitField, storage) :=
      invalidateSectorBitField board env loader.bitField loader.storage
    { loader with
      bitField := bitField.resetBitFieldManager
      storage := storage }.resetSigned
  else loader

/-- Where the data goes: the device with the type of the range, or neither for RAM. -/
def locate (address : UInt32) : Option (Option ℕ × UInt32) :=
  match findDeviceForPhysicalAddress board.devices address.toNat with
  | none => some (none, 0)
  | some (i, device, sectAddr) =>
    match device.findRegionFromAddress sectAddr with
    | none => none
    | some (regionIndex, rangeIndex) =>
      ((device.regions[regionIndex]?).bind (·.blockRanges[rangeIndex]?)).map fun range ↦
        (some i, range.rangeType)

def verifyContiguousData (address length : UInt32) (loader : Loader) : Loader × Bool :=
  match locate board address with
  | none => (loader, false)
  | some (device, blockType) =>
    if loader.signed.dataAddress = 0 then
      let (bitField, storage, _) := getNextSectorSignatureCheck board env device
        loader.bitField loader.storage (SectorBitField.read env.stack 0)
      ({ loader with
        signed := ⟨address, length, blockType, device⟩
        bitField := bitField
        storage := storage }, true)
    else if device ≠ loader.signed.pDevice ∨ blockType ≠ loader.signed.sectorType ∨
        loader.signed.dataAddress + loader.signed.dataLength ≠ address then
      (loader, false)
    else
      ({ loader with
        signed := { loader.signed with dataLength := loader.signed.dataLength + length } }, true)

/-! ## Signatures -/

/-- The new configuration leaves every key that is set as it is. -/
def keysKept (buffer : Memory) (loader : Loader) : Bool :=
  let config := loader.config.loadConfiguration loader.storage
  let kept (index : ℕ) :=
    config.checkSignatureKeyEmpty loader.storage index ||
      config.verifiySignatureKey loader.storage index (load buffer
        (deploymentKeys + keySize * index)
        keySize)
  kept 0 && kept 1

/-- The new configuration has the current version, and leaves the keys of an old one that has it. -/
def fCanWrite (buffer : Memory) (loader : Loader) : Bool :=
  buffer versionTinyBooter = c_CurrentVersionTinyBooter &&
    (loader.config.getTinyBooterVersion loader.storage ≠ c_CurrentVersionTinyBooter ||
      loader.keysKept buffer)

/-- The data of a configuration range is the buffer, which is written if it may be. -/
def verifyConfig (loader : Loader) : Loader × Bool :=
  match loader.configBuffer with
  | none => (loader, false)
  | some buffer =>
    if nonPositive loader.configBufferLength then (loader, false)
    else if loader.fCanWrite buffer then
      let (config, storage) := loader.config.eraseWriteConfigBlock board loader.storage
        (load buffer 0 loader.configBufferLength)
      ({ loader with config := config, storage := storage, configBuffer := none }, true)
    else ({ loader with configBuffer := none }, false)

/-- The signature of data that is protected by a key, unless the sector is of another version or the
key is not set. -/
def verifyWithKey (data signature : List UInt8) (keyIndex : ℕ) (loader : Loader) : Bool :=
  if loader.config.getTinyBooterVersion loader.storage ≠ c_CurrentVersionTinyBooter then true
  else if loader.config.checkSignatureKeyEmpty loader.storage keyIndex then true
  else
    let config := loader.config.loadConfiguration loader.storage
    board.rsaVerify (config.deploymentKey loader.storage keyIndex) data signature

def cryptoVerifySignature (data signature : List UInt8) (sectorType : UInt32) (keyIndex : ℕ)
    (loader : Loader) : Loader × Bool :=
  if loader.config.device.isNone then (loader, true)
  else if sectorType = BlockRange.BLOCKTYPE_DEPLOYMENT then
    (loader, loader.verifyWithKey board data signature c_DeployKeyDeployment)
  else if sectorType = BlockRange.BLOCKTYPE_CONFIG then loader.verifyConfig board
  else (loader, loader.verifyWithKey board data signature keyIndex)

/-- `SignedDataState::VerifySignature`: where it returns true, the pending range counts as verified. -/
def verifySignature (signature : List UInt8) (length keyIndex : UInt32) (loader : Loader) :
    Loader × Bool :=
  let first := loader.signed.dataAddress.toNat
  let dataLength := loader.signed.dataLength.toNat
  if c_DeployKeyCount ≤ keyIndex ∨ length ≠ RSA_BLOCK_SIZE_BYTES then
    (loader.eraseMemoryAndReset board env, false)
  else
    match loader.signed.pDevice.bind (board.devices[·]?) with
    | none => ({ loader with storage := loader.storage.verify first dataLength }.resetSigned, true)
    | some device =>
      if device.supportsXIP = false ∧ (env.heap dataLength).isNone then
        (loader.eraseMemoryAndReset board env, false)
      else
        let (loader, verified) := loader.cryptoVerifySignature board
          (load loader.storage.bytes first dataLength) signature loader.signed.sectorType
          keyIndex.toNat
        if verified then
          let (bitField, storage) := invalidateSectorBitField board env
            loader.bitField loader.storage
          ({ loader with
            bitField := bitField
            storage := storage.verify first dataLength }.resetSigned, true)
        else (loader.eraseMemoryAndReset board env, false)

end Loader

/-! ## Requests -/

/-- A request.  The data of a write is what follows in memory, however long the packet is. -/
inductive Request
  | readMemory (address length : UInt32)
  | writeMemory (address length : UInt32) (data : Memory)
  | checkMemory (address length : UInt32)
  | eraseMemory (address length : UInt32)
  | execute (address : UInt32)
  | memoryMap
  | checkSignature (keyIndex length : UInt32) (signature : List UInt8)

/-- The code that is started. -/
inductive Launch
  | launch (startAddress : UInt32)
  | enumerateAndLaunch
  deriving DecidableEq, Repr

structure Reply where
  success : Bool
  payload : List UInt8
  deriving DecidableEq, Repr

/-- The loader behind a request, its reply, and the code it has reached. -/
structure Outcome where
  loader : Loader
  reply : Option Reply
  launched : Option Launch

namespace Loader

variable (board : Board) (env : Environment)

/-- What the handlers do that do not go on with data pending. -/
def unlessDirty (handle : Loader → Outcome) (loader : Loader) : Outcome :=
  if loader.signed.checkDirty then ⟨loader.eraseMemoryAndReset board env, some ⟨false, []⟩, none⟩
  else handle loader

def monitorReadMemory (address length : UInt32) : Loader → Outcome :=
  unlessDirty board env fun loader ↦
    let len := min length.toNat 1024
    let (loader, buf, _) := loader.accessMemory board env address.toNat len env.stack .read
    ⟨loader, some ⟨true, load buf 0 len⟩, none⟩

def monitorWriteMemory (address length : UInt32) (data : Memory) (loader : Loader) : Outcome :=
  let (loader, contiguous) := loader.verifyContiguousData board env address length
  if contiguous then
    let (loader, _, fRet) := loader.accessMemory board env address.toNat length.toNat data .write
    ⟨loader, some ⟨fRet, []⟩, none⟩
  else ⟨loader.eraseMemoryAndReset board env, some ⟨false, []⟩, none⟩

def monitorCheckMemory (address length : UInt32) : Loader → Outcome :=
  unlessDirty board env fun loader ↦
    let (loader, buf, _) := loader.accessMemory board env address.toNat length.toNat env.stack .check
    ⟨loader, some ⟨true, load buf 0 4⟩, none⟩

def monitorEraseMemory (address length : UInt32) : Loader → Outcome :=
  unlessDirty board env fun loader ↦
    let (loader, _, fRet) := loader.accessMemory board env address.toNat length.toNat env.stack .erase
    ⟨loader, some ⟨fRet, []⟩, none⟩

def monitorExecute (address : UInt32) : Loader → Outcome :=
  unlessDirty board env fun loader ↦
    let fEnumAndLaunch := address = 0
    let memory := match findDeviceForPhysicalAddress board.devices address.toNat with
      | some _ => loader.storage.bytes
      | none => loader.ram
    let fAddressOK := loadWord memory address.toNat = board.programWordCheck
    if fAddressOK ∨ fEnumAndLaunch then
      let (config, storage) := loader.config.cleanBootLoaderFlag board env loader.ram loader.storage
      ⟨{ loader with config := config, storage := storage }, some ⟨true, []⟩,
        some (if fAddressOK then .launch address else .enumerateAndLaunch)⟩
    else ⟨loader, some ⟨false, []⟩, none⟩

def monitorMemoryMap : Loader → Outcome :=
  unlessDirty board env fun loader ↦
    let range (base size flags : ℕ) := leBytes 4 base ++ leBytes 4 size ++ leBytes 4 flags
    ⟨loader, some ⟨true, range board.ramBase board.ramSize 1 ++
      range board.flashBase board.flashSize 2⟩, none⟩

def monitorCheckSignature (keyIndex length : UInt32) (signature : List UInt8) (loader : Loader) :
    Outcome :=
  let (loader, fSuccess) := loader.verifySignature board env signature length keyIndex
  ⟨loader, some ⟨fSuccess, []⟩, none⟩

def handle : Request → Loader → Outcome
  | .readMemory address length => monitorReadMemory board env address length
  | .writeMemory address length data => monitorWriteMemory board env address length data
  | .checkMemory address length => monitorCheckMemory board env address length
  | .eraseMemory address length => monitorEraseMemory board env address length
  | .execute address => monitorExecute board env address
  | .memoryMap => monitorMemoryMap board env
  | .checkSignature keyIndex length signature =>
    monitorCheckSignature board env keyIndex length signature

/-! ## Resets -/

/-- The variables when the loader starts: what block storage holds stays, everything else is zero. -/
def boot (storage : Storage) (ram : Memory) : Loader where
  storage := storage
  ram := ram
  configBuffer := none
  configBufferLength := 0
  config := ⟨fun _ ↦ 0, none, 0, none, false, 0⟩
  bitField := ⟨.null, List.replicate SectorBitField.c_MaxFieldUnits 0, false, none, 0, none, false⟩
  signed := ⟨0, 0, 0, none⟩

def engineInitialize (loader : Loader) : Loader :=
  let loader := loader.resetSigned
  let config := loader.config.locateConfigurationSector board BlockUsage.CONFIG loader.storage
  let (bitField, storage) :=
    eraseOnSignatureCheckFail board env loader.bitField loader.storage
  { loader with config := config, bitField := bitField, storage := storage }

/-- The start of the loader: unless the configuration or the user asks for the boot mode, what is in
flash is launched. -/
def applicationEntryPoint (waitForUpload : Bool) (loader : Loader) : Outcome :=
  let loader := loader.engineInitialize board env
  let (config, required) := loader.config.isBootLoaderRequired loader.storage
  ⟨{ loader with config := config }, none,
    if required || waitForUpload then none else some .enumerateAndLaunch⟩

end Loader

/-- A request, a reset, or no request for so long that the main loop launches what is in flash. -/
inductive Event
  | request (env : Environment) (request : Request)
  | reset (env : Environment) (ram : Memory) (waitForUpload : Bool)
  | timeout

def Board.step (board : Board) (loader : Loader) : Event → Outcome
  | .request env request => loader.handle board env request
  | .reset env ram waitForUpload =>
    (Loader.boot loader.storage ram).applicationEntryPoint board env waitForUpload
  | .timeout => ⟨loader, none, some .enumerateAndLaunch⟩

/-- The loader when it starts on a board nothing was written to by request. -/
def Board.Started (board : Board) (loader : Loader) : Prop :=
  ∃ bytes ram env waitForUpload, loader =
    ((Loader.boot ⟨bytes, fun _ ↦ false⟩ ram).applicationEntryPoint board env waitForUpload).loader

end MicroFramework.TinyBooter
