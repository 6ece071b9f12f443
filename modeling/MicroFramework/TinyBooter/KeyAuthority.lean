import Mathlib.Data.List.GetD
import MicroFramework.TinyBooter.KeyUpdate

/-!
# Keys change only with authority

The invariant of the runs of monitor requests on a device with a current configuration, and what
they leave of its keys: a key that is set is replaced only by a request that it verifies, as long as
a new configuration brings all the bytes that are set in the old one and memory for the block is
found.
-/

namespace MicroFramework.TinyBooter

open Library Support ConfigurationSector List ConfigurationSectorManager Loader

/-- Memory is found for the block that a write to the configuration goes through. -/
def ConfigurationSectorManager.Affords (env : Environment) (writeOffset : ℕ) (data : List UInt8)
    (checkWrite : Bool) (config : ConfigurationSectorManager) (storage : Storage) : Prop :=
  let config := config.loadConfiguration storage
  let eraseWrite := checkWrite && config.mustErase storage writeOffset data
  eraseWrite || !config.fSupportsXIP →
    (env.heap (config.writeLengthInBytes eraseWrite data.length)).isSome

namespace ConfigSector

variable {board : Board} (sector : ConfigSector board)

structure Placed (config : ConfigurationSectorManager) : Prop where
  device : config.device = some sector.index
  address : config.cfgPhysicalAddress = sector.address
  region : config.region = some sector.region
  flag : config.booterAddressOffset = 0xFFFFFFFF ∨
    booterFlagArray ≤ config.booterAddressOffset ∧
      config.booterAddressOffset + 4 ≤ signatureCheck

/-- What the manager reads of the version and the keys is what is in flash. -/
def Fresh (config : ConfigurationSectorManager) (storage : Storage) : Prop :=
  ∀ offset, Guarded offset →
    config.sector storage offset = storage.bytes (sector.address + offset)

/-- The stored version is current, the manager reads what is stored, and no sector is marked as
dirty. -/
structure Current (loader : Loader) : Prop where
  placed : sector.Placed loader.config
  fresh : sector.Fresh loader.config loader.storage
  version : loader.storage.bytes (sector.address + versionTinyBooter) = c_CurrentVersionTinyBooter
  unmarked : loader.bitField.fSignatureCheckDirty = false

/-- A key that is set stays unless the request updates it with a signature that it verifies. -/
def Authorised (request : MonitorRequest) (storage storage' : Storage) : Prop :=
  ∀ index, index < c_DeployKeyCount.toNat →
    sector.key storage' index = sector.key storage index ∨
      (sector.key storage index).all (· = 0xFF) ∨
      ∃ keyIndex newKeySignature newKey,
        request = .signatureKeyUpdate keyIndex newKeySignature newKey ∧ keyIndex.toNat = index ∧
          board.rsaVerify (sector.key storage index) (load newKey 0 keySize)
            (load newKeySignature 0 RSA_BLOCK_SIZE_BYTES.toNat) = true

/-- The condition on a request: it leaves the RAM of the loader itself; where a new configuration is
going to be written, every byte of the version and the keys behind the data received is erased anyway;
where a key or the boot flag is, memory is found for the block. -/
def Careful (loader : Loader) : Environment × MonitorRequest → Prop
  | (env, .memory request) => loader.sparesOwn board env request = true ∧
    match request with
    | .checkSignature keyIndex length _ =>
      keyIndex < c_DeployKeyCount → length = RSA_BLOCK_SIZE_BYTES →
        loader.signed.sectorType = BlockRange.BLOCKTYPE_CONFIG →
        ¬nonPositive loader.configBufferLength →
        ∀ buffer, loader.configBuffer = some buffer →
          buffer versionTinyBooter = c_CurrentVersionTinyBooter →
          loader.keysKept buffer = true →
          ∀ offset, Guarded offset → loader.configBufferLength ≤ offset →
            loader.storage.bytes (sector.address + offset) = 0xFF
    | .execute _ =>
      loader.config.booterAddressOffset ≠ 0xFFFFFFFF →
        loader.config.Affords env loader.config.booterAddressOffset (leBytes 4 0) false
          loader.storage
    | _ => True
  | (env, .signatureKeyUpdate keyIndex newKeySignature newKey) =>
    keyIndex < c_DeployKeyCount →
      (loader.config.checkSignatureKeyEmpty loader.storage keyIndex.toNat = true ∨
        board.rsaVerify (loader.config.deploymentKey loader.storage keyIndex.toNat)
          (load newKey 0 keySize)
          (load newKeySignature 0 RSA_BLOCK_SIZE_BYTES.toNat) = true) →
      loader.config.Affords env
        (deploymentKeys + keySize * keyIndex.toNat)
        (load newKey 0 keySize) true loader.storage
  | (_, .report) => True

variable {sector} {env : Environment} {config : ConfigurationSectorManager}
  {storage storage' storage'' : Storage} {loader loader' : Loader} {request : MonitorRequest}
  {offset index : ℕ}

/-! ## Keys -/

theorem guarded_key (hindex : index < c_DeployKeyCount.toNat) {i : ℕ} (hi : i < keySize) :
    Guarded (deploymentKeys + keySize * index + i) := by
  have hcount : c_DeployKeyCount.toNat = 2 := rfl
  unfold Guarded deploymentKeys keySize at *
  omega

/-- A key depends on its bytes. -/
theorem key_congr {m : Memory} (h : ∀ i, i < keySize →
      m (deploymentKeys + keySize * index + i) =
        storage.bytes (sector.address + (deploymentKeys + keySize * index + i))) :
    load m (deploymentKeys + keySize * index) keySize = sector.key storage index := by
  unfold key load
  apply map_congr_left
  intro i hi
  rw [h i (mem_range.mp hi), Nat.add_assoc sector.address]

theorem key_eq (h : ∀ i, i < keySize →
      storage'.bytes (sector.address + (deploymentKeys + keySize * index + i)) =
        storage.bytes (sector.address + (deploymentKeys + keySize * index + i))) :
    sector.key storage' index = sector.key storage index :=
  calc
    sector.key storage' index = load (fun i ↦ storage'.bytes (sector.address + i))
        (deploymentKeys + keySize * index)
        keySize := (key_congr fun _ _ ↦ rfl).symm
    _ = sector.key storage index := key_congr h

theorem Keeps.key_eq (h : sector.Keeps storage storage') (hindex : index < c_DeployKeyCount.toNat) :
    sector.key storage' index = sector.key storage index :=
  ConfigSector.key_eq fun _ hi ↦ h _ (guarded_key hindex hi)

theorem Keeps.authorised (h : sector.Keeps storage storage') :
    sector.Authorised request storage storage' :=
  fun _ hindex ↦ .inl (h.key_eq hindex)

theorem Authorised.keeps (h : sector.Authorised request storage storage')
    (hkeeps : sector.Keeps storage' storage'') : sector.Authorised request storage storage'' := by
  intro index hindex
  rw [hkeeps.key_eq hindex]
  exact h index hindex

theorem Fresh.deploymentKey_eq (h : sector.Fresh config storage)
    (hindex : index < c_DeployKeyCount.toNat) :
    config.deploymentKey storage index = sector.key storage index :=
  key_congr fun _ hi ↦ h _ (guarded_key hindex hi)

theorem Fresh.keep (h : sector.Fresh config storage) (hplaced : sector.Placed config)
    (hkeeps : sector.Keeps storage storage') : sector.Fresh config storage' := by
  intro offset hoffset
  have hbefore := h offset hoffset
  unfold ConfigurationSectorManager.sector at hbefore ⊢
  split at hbefore
  · rename_i hxip
    rw [if_pos hxip, hplaced.address]
  · rename_i hcopy
    rw [if_neg hcopy, hbefore, hkeeps offset hoffset]

/-! ## The manager of the configuration -/

section

variable (h : sector.Placed config)

include h

theorem Placed.load (storage : Storage) : sector.Placed (config.loadConfiguration storage) := by
  unfold loadConfiguration
  split
  · exact h
  · exact ⟨h.device, h.address, h.region, h.flag⟩

theorem Placed.sector_load (storage : Storage) (offset : ℕ) :
    (config.loadConfiguration storage).sector storage offset =
      storage.bytes (sector.address + offset) := by
  unfold ConfigurationSectorManager.loadConfiguration ConfigurationSectorManager.sector
  rw [h.device]
  cases hxip : config.fSupportsXIP with
  | true => simp [hxip, h.address]
  | false => simp [h.address]

theorem Placed.fresh_load (storage : Storage) :
    sector.Fresh (config.loadConfiguration storage) storage :=
  fun offset _ ↦ h.sector_load storage offset

theorem Placed.device_bind : config.device.bind (board.devices[·]?) = some sector.device := by
  rw [h.device]
  exact sector.device_eq

end

theorem sector_erased (storage : Storage) (a : ℕ) :
    (storage.eraseBlock sector.device sector.address).1.bytes a =
      if sector.address ≤ a ∧ a < sector.address + sector.region.bytesPerBlock then 0xFF
      else storage.bytes a :=
  erased_bytes sector.region_mem sector.startBlock_lt storage a

theorem sector_written (storage : Storage) (data : List UInt8) (hoffset : offset < size) :
    ((storage.eraseBlock sector.device sector.address).1.write sector.address data).1.bytes
      (sector.address + offset) = data.getD offset 0xFF := by
  have hsize := sector.size_le
  by_cases hlength : offset < data.length
  · rw [@Storage.write_erased _ data sector.address (sector.address + offset)
      sector.region.bytesPerBlock offset
      (fun x hle hlt ↦ by rw [sector_erased, if_pos ⟨hle, hlt⟩]) rfl (by omega) hlength,
      getD_eq_getElem _ _ hlength]
  · rw [Storage.write_of_apart (by omega), sector_erased, if_pos (by omega),
      getD_eq_default _ _ (by omega)]

variable {checkWrite : Bool} {data : List UInt8} {ram : Memory} {writeOffset : ℕ}

/-- A write to the configuration that finds its memory leaves the bytes it has no data for. -/
theorem writeConfiguration_bytes (h : sector.Placed config)
    (hheap : config.Affords env writeOffset data checkWrite storage) (hoffset : offset < size)
    (hapart : offset < writeOffset ∨ writeOffset + data.length ≤ offset) :
    (config.writeConfiguration board env ram writeOffset data checkWrite storage).2.bytes
      (sector.address + offset) = storage.bytes (sector.address + offset) := by
  have hplaced := h.load storage
  unfold ConfigurationSectorManager.Affords at hheap
  unfold writeConfiguration
  rw [h.device_bind]
  dsimp only at hheap ⊢
  generalize config.loadConfiguration storage = config at hheap hplaced ⊢
  have hblock : ∀ o, o < writeOffset ∨ writeOffset + data.length ≤ o →
      store (fun i ↦ storage.bytes (sector.address + i)) writeOffset data o =
        storage.bytes (sector.address + o) := fun o ho ↦ store_of_apart ho
  rw [hplaced.address]
  split
  · rename_i hthrough
    rw [if_pos (hheap hthrough)]
    split
    · rename_i herase
      have hlength : config.writeLengthInBytes true data.length = sector.region.bytesPerBlock := by
        rw [writeLengthInBytes, if_pos rfl, hplaced.region]
        rfl
      have hin : offset < sector.region.bytesPerBlock := hoffset.trans_le sector.size_le
      rw [herase, hlength, sector_written storage _ hoffset,
        getD_eq_getElem _ _ (by rwa [length_load]), getElem_load, Nat.zero_add]
      exact hblock offset hapart
    · apply Storage.write_unchanged
      intro o ho heq
      obtain rfl : offset = o := Nat.add_left_cancel heq
      rw [getElem_load, Nat.zero_add]
      exact hblock offset hapart
  · exact Storage.write_of_apart (by omega)

/-! ## Steps that leave the sector -/

variable (sector) in
/-- The configuration is left alone. -/
structure Quiet (loader loader' : Loader) : Prop where
  config : loader'.config = loader.config
  keeps : sector.Keeps loader.storage loader'.storage
  unmarked : loader.bitField.fSignatureCheckDirty = false →
    loader'.bitField.fSignatureCheckDirty = false

theorem Quiet.refl (loader : Loader) : sector.Quiet loader loader := ⟨rfl, .refl _, id⟩

variable {loader'' : Loader}

theorem Quiet.trans (h : sector.Quiet loader loader')
    (h' : sector.Quiet loader' loader'') : sector.Quiet loader loader'' where
  config := h'.config.trans h.config
  keeps := h.keeps.trans h'.keeps
  unmarked hunmarked := h'.unmarked (h.unmarked hunmarked)

theorem Current.quiet (h : sector.Current loader) (hquiet : sector.Quiet loader loader') :
    sector.Current loader' where
  placed := by
    rw [hquiet.config]
    exact h.placed
  fresh := by
    rw [hquiet.config]
    exact h.fresh.keep h.placed hquiet.keeps
  version := (hquiet.keeps _ (.inl rfl)).trans h.version
  unmarked := hquiet.unmarked h.unmarked

variable (sector) in
/-- What every request does: the configuration stays current and its keys change with authority. -/
def Guards (request : MonitorRequest) (loader loader' : Loader) : Prop :=
  sector.Current loader' ∧ sector.Authorised request loader.storage loader'.storage

theorem Quiet.guards (h : sector.Quiet loader loader') (hcurrent : sector.Current loader) :
    sector.Guards request loader loader' := ⟨hcurrent.quiet h, h.keeps.authorised⟩

theorem Guards.quiet (h : sector.Guards request loader loader')
    (hquiet : sector.Quiet loader' loader'') : sector.Guards request loader loader'' :=
  ⟨h.1.quiet hquiet, h.2.keeps hquiet.keeps⟩

theorem accessMemory_quiet {location lengthInBytes : ℕ} {buf : Memory} {mode : AccessMode}
    (hsame : SameRecords loader
      (loader.accessMemory board env location lengthInBytes buf mode).1) :
    sector.Quiet loader (loader.accessMemory board env location lengthInBytes buf mode).1 := by
  refine ⟨hsame.config, accessMemory_keeps mode, fun h ↦ ?_⟩
  rwa [hsame.bitField]

theorem erase_quiet {location lengthInBytes : ℕ} {buf : Memory}
    (hram : board.sparesOwnRam location lengthInBytes = true) :
    sector.Quiet loader (loader.accessMemory board env location lengthInBytes buf .erase).1 :=
  accessMemory_quiet (accessMemory_same (fun _ ↦ hram) fun hmode ↦ by cases hmode)

theorem look_quiet {location lengthInBytes : ℕ} {buf : Memory} {mode : AccessMode}
    (hmode : mode = .read ∨ mode = .check) :
    sector.Quiet loader (loader.accessMemory board env location lengthInBytes buf mode).1 := by
  apply accessMemory_quiet
  rcases hmode with rfl | rfl <;> exact accessMemory_same (by simp) (by simp)

variable {manager : BitFieldManager}

theorem invalidate_unmarked (h : manager.fSignatureCheckDirty = false) (storage : Storage) :
    manager.invalidateSectorBitField board env storage = (manager, storage) := by
  rw [BitFieldManager.invalidateSectorBitField, if_neg (by simp [h])]

theorem eraseMemoryAndReset_quiet (h : sector.Current loader)
    (hspares : loader.sparesPending board = true) :
    sector.Quiet loader (loader.eraseMemoryAndReset board env) := by
  unfold eraseMemoryAndReset
  split
  · rename_i hne
    have haccess := @erase_quiet board sector env loader loader.signed.dataAddress.toNat
      loader.signed.dataLength.toNat env.stack (by simpa [sparesPending, hne] using hspares)
    dsimp only
    rw [invalidate_unmarked (haccess.unmarked h.unmarked)]
    exact ⟨haccess.config, haccess.keeps, fun _ ↦ rfl⟩
  · exact .refl _

theorem getNextSectorSignatureCheck_unmarked
    (h : manager.fSignatureCheckDirty = false) (device : Option ℕ) (storage : Storage)
    (bitField : SectorBitField) :
    (manager.getNextSectorSignatureCheck board env device storage
      bitField).1.fSignatureCheckDirty = false := by
  unfold BitFieldManager.getNextSectorSignatureCheck
  dsimp only
  split
  · exact h
  split
  · exact h
  split
  · exact h
  split
  · split
    · exact h
    · dsimp only
      rwa [resetSignatureCheckArray_manager rfl]
  · split
    · exact h
    · dsimp only
      rwa [resetSignatureCheckArray_manager rfl]

theorem verifyContiguousData_quiet (address length : UInt32) (loader : Loader) :
    sector.Quiet loader (loader.verifyContiguousData board env address length).1 := by
  unfold verifyContiguousData
  split
  · exact .refl _
  · split
    · exact ⟨rfl, getNextSectorSignatureCheck_keeps _ _ _ _,
        fun h ↦ getNextSectorSignatureCheck_unmarked h _ _ _⟩
    · split
      · exact .refl _
      · exact ⟨rfl, .refl _, id⟩

theorem unlessDirty_guards (h : sector.Current loader)
    (hspares : loader.sparesPending board = true) {handle : Loader → Outcome}
    (hhandle : sector.Guards request loader (handle loader).loader) :
    sector.Guards request loader (loader.unlessDirty board env handle).loader := by
  unfold unlessDirty
  split
  · exact (eraseMemoryAndReset_quiet h hspares).guards h
  · exact hhandle

/-! ## Steps that write to the sector -/

theorem Fresh.version_eq (h : sector.Fresh config storage) (hplaced : sector.Placed config) :
    config.getTinyBooterVersion storage = storage.bytes (sector.address + versionTinyBooter) := by
  rw [getTinyBooterVersion, hplaced.device]
  exact h _ (.inl rfl)

theorem Fresh.checkSignatureKeyEmpty_eq (h : sector.Fresh config storage)
    (hindex : index < c_DeployKeyCount.toNat) :
    config.checkSignatureKeyEmpty storage index = (sector.key storage index).all (· = 0xFF) := by
  rw [checkSignatureKeyEmpty, h.deploymentKey_eq hindex]

section

variable (h : sector.Current loader)

include h

variable {buffer : Memory}

/-- What it means that a new configuration leaves the keys. -/
theorem Current.keysKept (hkept : loader.keysKept buffer = true)
    (hindex : index < c_DeployKeyCount.toNat) :
    (sector.key loader.storage index).all (· = 0xFF) ∨
      load buffer (deploymentKeys + keySize * index) keySize = sector.key loader.storage index := by
  have hplaced := h.placed.load loader.storage
  have hkept : ((loader.config.loadConfiguration loader.storage).checkSignatureKeyEmpty
      loader.storage index || (loader.config.loadConfiguration loader.storage).verifiySignatureKey
        loader.storage index (load buffer (deploymentKeys + keySize * index) keySize)) = true := by
    have hboth := Bool.and_eq_true_iff.mp hkept
    have hcount : c_DeployKeyCount.toNat = 2 := rfl
    obtain rfl | rfl : index = 0 ∨ index = 1 := by omega
    · exact hboth.1
    · exact hboth.2
  rcases Bool.or_eq_true_iff.mp hkept with hempty | hsame
  · rw [(h.placed.fresh_load loader.storage).checkSignatureKeyEmpty_eq hindex] at hempty
    exact .inl hempty
  · unfold verifiySignatureKey at hsame
    rw [(hplaced.fresh_load loader.storage).deploymentKey_eq hindex] at hsame
    exact .inr (of_decide_eq_true hsame).symm

/-- The configuration that is written has the version and the keys of the old one if what is behind
the data received was erased there. -/
theorem eraseWriteConfigBlock_guards {length : ℕ}
    (hversion : buffer versionTinyBooter = c_CurrentVersionTinyBooter)
    (hkept : loader.keysKept buffer = true)
    (hbehind : ∀ offset, Guarded offset → length ≤ offset →
      loader.storage.bytes (sector.address + offset) = 0xFF) :
    let result := loader.config.eraseWriteConfigBlock board loader.storage (load buffer 0 length)
    sector.Guards request loader
      { loader with config := result.1, storage := result.2, configBuffer := none } := by
  have hwritten : ∀ offset, Guarded offset →
      (loader.config.eraseWriteConfigBlock board loader.storage
        (load buffer 0 length)).2.bytes (sector.address + offset) =
      if offset < length then buffer offset
      else loader.storage.bytes (sector.address + offset) := by
    intro offset hoffset
    rw [eraseWriteConfigBlock, h.placed.device_bind, h.placed.address]
    dsimp only [Storage.mark]
    rw [sector_written _ _ hoffset.lt]
    split
    · rename_i hlt
      rw [getD_eq_getElem _ _ (by rwa [length_load]), getElem_load, Nat.zero_add]
    · rename_i hge
      rw [getD_eq_default _ _ (by rw [length_load]; omega),
        hbehind offset hoffset (by omega)]
  have hconfig : (loader.config.eraseWriteConfigBlock board loader.storage
      (load buffer 0 length)).1 = loader.config.loadConfiguration
        (loader.config.eraseWriteConfigBlock board loader.storage (load buffer 0 length)).2 := by
    rw [eraseWriteConfigBlock, h.placed.device_bind]
  dsimp only
  rw [hconfig]
  generalize (loader.config.eraseWriteConfigBlock board loader.storage
    (load buffer 0 length)).2 = storage at hwritten ⊢
  refine ⟨⟨h.placed.load _, h.placed.fresh_load _, ?_, h.unmarked⟩, fun index hindex ↦ ?_⟩
  · dsimp only
    rw [hwritten _ (.inl rfl), hversion, h.version, ite_self]
  · rcases h.keysKept hkept hindex with hempty | hsame
    · exact .inr (.inl hempty)
    · left
      apply key_eq
      intro i hi
      have hbyte : buffer (deploymentKeys +
          keySize * index + i) = loader.storage.bytes (sector.address +
            (deploymentKeys + keySize * index + i)) := by
        rw [← Nat.add_assoc sector.address]
        exact load_inj hsame hi
      rw [hwritten _ (guarded_key hindex hi), hbyte, ite_self]

theorem verifyConfig_guards (hbehind : ¬nonPositive loader.configBufferLength →
      ∀ buffer, loader.configBuffer = some buffer →
        buffer versionTinyBooter = c_CurrentVersionTinyBooter →
        loader.keysKept buffer = true →
        ∀ offset, Guarded offset → loader.configBufferLength ≤ offset →
          loader.storage.bytes (sector.address + offset) = 0xFF) :
    sector.Guards request loader (loader.verifyConfig board).1 := by
  unfold verifyConfig
  split
  · exact (Quiet.refl loader).guards h
  rename_i buffer hbuffer
  split
  · exact (Quiet.refl loader).guards h
  rename_i hlength
  split
  · rename_i hcan
    obtain ⟨hversion, hkept⟩ := Bool.and_eq_true_iff.mp hcan
    rw [h.fresh.version_eq h.placed, h.version] at hkept
    have hkept : loader.keysKept buffer = true := by simpa using hkept
    have hversion := of_decide_eq_true hversion
    exact eraseWriteConfigBlock_guards h hversion hkept
      (hbehind hlength buffer hbuffer hversion hkept)
  · exact Quiet.guards ⟨rfl, .refl _, id⟩ h

theorem cryptoVerifySignature_guards (data signature : List UInt8)
    (sectorType : UInt32) (keyIndex : ℕ)
    (hbehind : sectorType = BlockRange.BLOCKTYPE_CONFIG → ¬nonPositive loader.configBufferLength →
      ∀ buffer, loader.configBuffer = some buffer →
        buffer versionTinyBooter = c_CurrentVersionTinyBooter →
        loader.keysKept buffer = true →
        ∀ offset, Guarded offset → loader.configBufferLength ≤ offset →
          loader.storage.bytes (sector.address + offset) = 0xFF) :
    sector.Guards request loader
      (loader.cryptoVerifySignature board data signature sectorType keyIndex).1 := by
  unfold cryptoVerifySignature
  split
  · exact (Quiet.refl loader).guards h
  split
  · exact (Quiet.refl loader).guards h
  split
  · rename_i hconfig
    exact verifyConfig_guards h (hbehind hconfig)
  · exact (Quiet.refl loader).guards h

end

variable {keyIndex : UInt32}

theorem verifySignature_guards (h : sector.Current loader) {length : UInt32}
    {signature : List UInt8}
    (hcareful : sector.Careful loader (env, .memory (.checkSignature keyIndex length signature))) :
    sector.Guards request loader
      (loader.verifySignature board env signature length keyIndex).1 := by
  obtain ⟨hspares, hcareful⟩ := hcareful
  have hpending := (Bool.and_eq_true_iff.mp hspares).1
  unfold verifySignature
  dsimp only
  split
  · exact (eraseMemoryAndReset_quiet h hpending).guards h
  rename_i hallowed
  obtain ⟨hindex, hlength⟩ := not_or.mp hallowed
  split
  · exact Quiet.guards ⟨rfl, .refl _, fun _ ↦ rfl⟩ h
  split
  · exact (eraseMemoryAndReset_quiet h hpending).guards h
  have hguards := @cryptoVerifySignature_guards board sector loader request h
    (load loader.storage.bytes loader.signed.dataAddress.toNat loader.signed.dataLength.toNat)
    signature loader.signed.sectorType keyIndex.toNat
    (hcareful (UInt32.not_le.mp hindex) (not_not.mp hlength))
  split
  · apply hguards.quiet
    rw [invalidate_unmarked hguards.1.unmarked]
    exact ⟨rfl, .refl _, fun _ ↦ rfl⟩
  · refine hguards.quiet (eraseMemoryAndReset_quiet hguards.1 ?_)
    rw [sparesPending, cryptoVerifySignature_signed]
    exact hpending

theorem writeConfiguration_config (h : sector.Placed config) :
    (config.writeConfiguration board env ram writeOffset data checkWrite storage).1 =
      config.loadConfiguration storage := by
  unfold writeConfiguration
  rw [h.device_bind]
  dsimp only
  split <;> rfl

section

variable (h : sector.Current loader)

include h

theorem monitorExecute_guards (address : UInt32)
    (hcareful : sector.Careful loader (env, .memory (.execute address))) :
    sector.Guards request loader (loader.monitorExecute board env address).loader := by
  obtain ⟨hspares, hcareful⟩ := hcareful
  apply unlessDirty_guards h (Bool.and_eq_true_iff.mp hspares).1
  have hflag : sector.Guards request loader
      { loader with
        config := (loader.config.cleanBootLoaderFlag board env loader.ram loader.storage).1
        storage := (loader.config.cleanBootLoaderFlag board env loader.ram loader.storage).2 } := by
    unfold cleanBootLoaderFlag
    split
    · exact Quiet.guards ⟨rfl, .refl _, id⟩ h
    · rename_i hset
      have hkeeps : sector.Keeps loader.storage (loader.config.writeConfiguration board env
          loader.ram loader.config.booterAddressOffset (leBytes 4 0) false loader.storage).2 := by
        intro offset hoffset
        apply writeConfiguration_bytes h.placed (hcareful hset) hoffset.lt
        have hwhere := h.placed.flag.resolve_left hset
        have houtside := hoffset.outside
        rw [leBytes_length]
        omega
      rw [writeConfiguration_config h.placed]
      refine ⟨⟨h.placed.load _, ?_, ?_, h.unmarked⟩, hkeeps.authorised⟩
      · exact (h.placed.fresh_load _).keep (h.placed.load _) hkeeps
      · exact (hkeeps _ (.inl rfl)).trans h.version
  dsimp only
  split
  · split
    · exact hflag
    · exact (Quiet.refl loader).guards h
  · split
    · exact hflag
    · exact (Quiet.refl loader).guards h

variable {newKey newKeySignature : Memory}

theorem updateSignatureKey_guards (hheap : loader.config.Affords env
      (deploymentKeys + keySize * keyIndex.toNat)
      (load newKey 0 keySize) true loader.storage)
    (hauthority : (sector.key loader.storage keyIndex.toNat).all (· = 0xFF) ∨
      board.rsaVerify (sector.key loader.storage keyIndex.toNat)
        (load newKey 0 keySize)
        (load newKeySignature 0 RSA_BLOCK_SIZE_BYTES.toNat) = true) :
    let result := loader.config.updateSignatureKey board env loader.ram keyIndex.toNat
      (load newKey 0 keySize) loader.storage
    sector.Guards (.signatureKeyUpdate keyIndex newKeySignature newKey) loader
      { loader with config := result.1.loadConfiguration result.2, storage := result.2 } := by
  have hapart : ∀ offset, offset < size →
      offset < deploymentKeys + keySize * keyIndex.toNat ∨
        deploymentKeys + keySize * keyIndex.toNat + keySize ≤ offset →
      (loader.config.updateSignatureKey board env loader.ram keyIndex.toNat
        (load newKey 0 keySize) loader.storage).2.bytes
          (sector.address + offset) = loader.storage.bytes (sector.address + offset) := by
    intro offset hsize hout
    exact writeConfiguration_bytes h.placed hheap hsize (by rwa [length_load])
  have hplaced : sector.Placed (loader.config.updateSignatureKey board env loader.ram
      keyIndex.toNat (load newKey 0 keySize) loader.storage).1 := by
    rw [updateSignatureKey, writeConfiguration_config h.placed]
    exact h.placed.load _
  dsimp only
  refine ⟨⟨hplaced.load _, hplaced.fresh_load _, ?_, h.unmarked⟩, fun index hindex ↦ ?_⟩
  · refine (hapart _ (by decide) (.inl ?_)).trans h.version
    exact (by decide : versionTinyBooter < deploymentKeys).trans_le (Nat.le_add_right _ _)
  · by_cases hsame : keyIndex.toNat = index
    · right
      rw [← hsame]
      rcases hauthority with hempty | hverified
      · exact .inl hempty
      · exact .inr ⟨keyIndex, newKeySignature, newKey, rfl, rfl, hverified⟩
    · left
      apply key_eq
      intro i hi
      apply hapart _ (guarded_key hindex hi).lt
      unfold keySize at hi ⊢
      omega

theorem monitorSignatureKeyUpdate_guards
    (hcareful : sector.Careful loader (env, .signatureKeyUpdate keyIndex newKeySignature newKey)) :
    sector.Guards (.signatureKeyUpdate keyIndex newKeySignature newKey) loader
      (loader.monitorSignatureKeyUpdate board env keyIndex newKeySignature newKey).loader := by
  unfold monitorSignatureKeyUpdate
  dsimp only
  split
  · rename_i hallowed
    have hindex : keyIndex.toNat < c_DeployKeyCount.toNat := hallowed.2
    have hkey := h.fresh.deploymentKey_eq hindex
    split
    · rename_i hempty
      apply updateSignatureKey_guards h (hcareful hallowed.2 (.inl hempty))
      rw [h.fresh.checkSignatureKeyEmpty_eq hindex] at hempty
      exact .inl hempty
    · rename_i hset
      have hcrypto : loader.cryptoVerifySignature board (load newKey 0 keySize)
          (load newKeySignature 0 RSA_BLOCK_SIZE_BYTES.toNat) 0 keyIndex.toNat =
          (loader, board.rsaVerify (sector.key loader.storage keyIndex.toNat)
            (load newKey 0 keySize)
            (load newKeySignature 0 RSA_BLOCK_SIZE_BYTES.toNat)) := by
        rw [cryptoVerifySignature, if_neg (by simp [h.placed.device]), if_neg (by decide),
          if_neg (by decide), verifyWithKey,
          if_neg (by rw [h.fresh.version_eq h.placed, h.version]; exact not_not_intro rfl),
          if_neg hset]
        dsimp only
        rw [(h.placed.fresh_load loader.storage).deploymentKey_eq hindex]
      rw [hcrypto]
      dsimp only
      split
      · rename_i hverified
        rw [← hkey] at hverified
        apply updateSignatureKey_guards h (hcareful hallowed.2 (.inr hverified))
        rw [hkey] at hverified
        exact .inr hverified
      · exact (Quiet.refl loader).guards h
  · exact (Quiet.refl loader).guards h

/-- One request under the condition. -/
theorem handleMonitor_guards (hcareful : sector.Careful loader (env, request)) :
    sector.Guards request loader (loader.handleMonitor board env request).loader := by
  cases request with
  | report => exact (Quiet.refl loader).guards h
  | signatureKeyUpdate keyIndex newKeySignature newKey =>
    exact monitorSignatureKeyUpdate_guards h hcareful
  | memory request =>
    have hspares := hcareful.1
    obtain ⟨hpending, hown⟩ := Bool.and_eq_true_iff.mp hspares
    cases request with
    | readMemory address length =>
      exact unlessDirty_guards h hpending ((look_quiet (.inl rfl)).guards h)
    | writeMemory address length data =>
      have hchecked := @verifyContiguousData_quiet board sector env address length loader
      show sector.Guards _ loader (loader.monitorWriteMemory board env address length data).loader
      unfold monitorWriteMemory
      dsimp only
      split
      · have hsame := writeMemory_same hspares
          (verifyContiguousData_length board env address length loader)
        exact (hchecked.trans (accessMemory_quiet hsame)).guards h
      · rename_i hrefused
        rcases verifyContiguousData_cases board env address length loader with hsame | ⟨haccepted, -⟩
        · have hquiet := @eraseMemoryAndReset_quiet board sector env loader h hpending
          simp only [hsame]
          exact hquiet.guards h
        · exact absurd haccepted hrefused
    | checkMemory address length =>
      exact unlessDirty_guards h hpending ((look_quiet (.inr rfl)).guards h)
    | eraseMemory address length =>
      exact unlessDirty_guards h hpending ((erase_quiet hown).guards h)
    | execute address => exact monitorExecute_guards h address hcareful
    | memoryMap => exact unlessDirty_guards h hpending ((Quiet.refl loader).guards h)
    | checkSignature keyIndex length signature => exact verifySignature_guards h hcareful

end

/-! ## Starts -/

variable (sector) in
/-- The loader when it has started and the stored version is current. -/
def Started (loader : Loader) : Prop :=
  board.Started loader ∧
    loader.storage.bytes (sector.address + versionTinyBooter) = c_CurrentVersionTinyBooter

theorem region_found : (sector.device.findRegionFromAddress sector.address).bind
    (sector.device.regions[·.1]?) = some sector.region := by
  have hin := @contains_offset board sector 0 (by decide)
  rw [Nat.add_zero] at hin
  obtain ⟨⟨iRegion, iRange⟩, hfound⟩ :=
    Option.isSome_iff_exists.mp (findRegion_isSome sector.region_mem hin)
  obtain ⟨region, hindex, hcontains, -⟩ := findRegion_has hfound
  rw [BlockDeviceInfo.findRegionFromAddress, hfound, Option.bind_some, hindex,
    BlockDeviceInfo.region_unique (mem_of_getElem? hindex) sector.region_mem hcontains hin]

theorem locateConfigurationSector_placed (config : ConfigurationSectorManager) (storage : Storage) :
    sector.Placed (config.locateConfigurationSector board BlockUsage.CONFIG storage) ∧
      sector.Fresh (config.locateConfigurationSector board BlockUsage.CONFIG storage) storage := by
  unfold locateConfigurationSector
  rw [sector.found]
  dsimp only
  have hplaced : sector.Placed { config with
      booterAddressOffset := 0xFFFFFFFF
      device := some sector.index
      cfgPhysicalAddress := sector.region.blockAddress sector.range.startBlock
      region := board.devices[sector.index]?.bind fun device ↦
        (device.findRegionFromAddress (sector.region.blockAddress sector.range.startBlock)).bind
          (device.regions[·.1]?)
      fSupportsXIP := board.devices[sector.index]?.any BlockDeviceInfo.supportsXIP } := by
    refine ⟨rfl, rfl, ?_, .inl rfl⟩
    rw [sector.device_eq]
    exact sector.region_found
  exact ⟨hplaced.load storage, hplaced.fresh_load storage⟩

theorem bootEntry_spec {bytes : Memory} {entries : List ℕ}
    (h : bootEntry bytes entries = some offset) :
    ∃ i ∈ entries, offset = booterFlagArray + 4 * i := by
  induction entries with
  | nil => cases h
  | cons i entries ih =>
    rw [bootEntry] at h
    split at h
    · cases h
      exact ⟨i, mem_cons_self, rfl⟩
    · split at h
      · cases h
      · obtain ⟨j, hj, heq⟩ := ih h
        exact ⟨j, mem_cons_of_mem _ hj, heq⟩

theorem isBootLoaderRequired_placed (h : sector.Placed config)
    (hfresh : sector.Fresh config storage) :
    sector.Placed (config.isBootLoaderRequired storage).1 ∧
      sector.Fresh (config.isBootLoaderRequired storage).1 storage := by
  unfold isBootLoaderRequired
  split
  · exact ⟨h, hfresh⟩
  · split
    · rename_i offset hentry
      obtain ⟨i, hi, heq⟩ := bootEntry_spec hentry
      have hlt := mem_range.mp hi
      have hflag : booterFlagArray ≤ offset ∧ offset + 4 ≤ signatureCheck := by
        unfold c_MaxBootEntryFlags at hlt
        unfold booterFlagArray at heq ⊢
        unfold signatureCheck
        omega
      exact ⟨⟨h.device, h.address, h.region, .inr hflag⟩, hfresh⟩
    · exact ⟨h, hfresh⟩

theorem invalidateSectorBitField_unmarks (manager : BitFieldManager) (storage : Storage) :
    (manager.invalidateSectorBitField board env storage).1.fSignatureCheckDirty = false := by
  unfold BitFieldManager.invalidateSectorBitField
  split
  · rfl
  · rename_i hunmarked
    simpa using hunmarked

theorem eraseOnSignatureCheckFail_unmarked
    (h : manager.fSignatureCheckDirty = false) (storage : Storage) :
    (manager.eraseOnSignatureCheckFail board env storage).1.fSignatureCheckDirty = false := by
  unfold BitFieldManager.eraseOnSignatureCheckFail
  refine foldlRecOn (motive := fun state : BitFieldManager × Storage ↦
    state.1.fSignatureCheckDirty = false) _ _ h ?_
  intro state _ entry _
  exact invalidateSectorBitField_unmarks _ _

/-- The loader starts with a current configuration: the cleanup has not erased it. -/
theorem started_current (h : sector.Started loader) : sector.Current loader := by
  obtain ⟨⟨bytes, ram, env, waitForUpload, rfl⟩, hversion⟩ := h
  unfold applicationEntryPoint engineInitialize at hversion ⊢
  dsimp only at hversion ⊢
  have hlocated := @locateConfigurationSector_placed board sector
    (boot ⟨bytes, fun _ ↦ false⟩ ram).config ⟨bytes, fun _ ↦ false⟩
  have hspares := @eraseOnSignatureCheckFail_spares board sector env
    (boot ⟨bytes, fun _ ↦ false⟩ ram).resetSigned.bitField ⟨bytes, fun _ ↦ false⟩
  have hkeeps := hspares.resolve_right fun herased ↦
    absurd (herased.symm.trans hversion) (by decide)
  have hrequired := isBootLoaderRequired_placed hlocated.1 (hlocated.2.keep hlocated.1 hkeeps)
  exact ⟨hrequired.1, hrequired.2, hversion, eraseOnSignatureCheckFail_unmarked rfl _⟩

end ConfigSector

/-! ## Runs -/

/-- The step relation of the monitor. -/
def Board.process (board : Board) (loader : Loader) (event : Environment × MonitorRequest) :
    Option Loader :=
  some (loader.handleMonitor board event.1 event.2).loader

theorem sampleBoard_sound : sampleBoard.Sound where
  apart := by
    intro i j device device' a hdevice hdevice' _ _
    have hi := (List.getElem?_eq_some_iff.mp hdevice).1
    have hj := (List.getElem?_eq_some_iff.mp hdevice').1
    have hlength : sampleBoard.devices.length = 1 := rfl
    omega
  config := by
    intro device hdevice region hregion range hrange husage
    obtain rfl := mem_singleton.mp hdevice
    obtain rfl := mem_singleton.mp hregion
    rcases mem_pair.mp hrange with rfl | rfl
    · decide
    · cases husage

def sampleSector : ConfigSector sampleBoard where
  sound := sampleBoard_sound
  index := 0
  device := sampleDevice
  region := sampleRegion
  range := ⟨BlockRange.BLOCKTYPE_CONFIG, 0, 0⟩
  found := rfl
  device_eq := rfl
  region_mem := mem_singleton_self _
  range_mem := mem_cons_self
  usage := rfl

theorem sampleSector_started : sampleSector.Started sampleStart :=
  ⟨⟨_, _, _, _, rfl⟩, by decide +kernel⟩

/-- A heap whose blocks still hold the configuration of before. -/
def staleEnv : Environment := ⟨fun _ ↦ some fun i ↦ sampleBytes (0x1000 + i), fun _ ↦ 0, id⟩

end MicroFramework.TinyBooter
