import MicroFramework.Library.Runs
import MicroFramework.TinyBooter.Loader

/-!
# Only verified code is launched

The invariant of a run whose steps keep the pending record: every byte that was written and has been
neither verified nor erased is in a piece of the pending range.  An erasure of the pending range goes
over the same pieces, and a verification over all of their bytes.
-/

namespace MicroFramework.TinyBooter

open Library Loader Option BitFieldManager

variable {board : Board} {env : Environment} {loader loader' : Loader} {a : ℕ}

/-! ## Where a device is found -/

/-- The device found for an address is in the list at the place returned, and has the address. -/
theorem findDevice_spec {devices : List BlockDeviceInfo} {i sectAddr : ℕ} {device : BlockDeviceInfo}
    (h : findDeviceForPhysicalAddress devices a = some (i, device, sectAddr)) :
    devices[i]? = some device ∧ device.Holds a := by
  induction devices generalizing i with
  | nil => cases h
  | cons head devices ih =>
    rw [findDeviceForPhysicalAddress] at h
    split at h
    · rename_i region hfind
      cases h
      exact ⟨rfl, region, List.mem_of_find?_eq_some hfind,
        @List.find?_some _ (fun r : BlockRegionInfo ↦ r.contains a) _ _ hfind⟩
    · obtain ⟨⟨j, found⟩, hrest, heq⟩ := map_eq_some_iff.mp h
      cases heq
      exact ih hrest

theorem pieces_isSome {device : BlockDeviceInfo} (h : device.Holds a) (lengthInBytes : ℕ) :
    ∃ pieces, device.pieces a lengthInBytes = some pieces := by
  obtain ⟨region, hmem, hin⟩ := h
  obtain ⟨⟨iRegion, iRange⟩, hfind⟩ := isSome_iff_exists.mp (findRegion_isSome hmem hin)
  obtain ⟨found, hindex, -⟩ := findRegion_has hfind
  rw [BlockDeviceInfo.pieces, BlockDeviceInfo.findRegionFromAddress, hfind]
  simp only [hindex]
  exact ⟨_, rfl⟩

/-! ## The condition -/

/-- The range has a byte of a block device outside the configuration. -/
def Board.Reaches (board : Board) (first length : ℕ) : Prop :=
  ∃ a, first ≤ a ∧ a < first + length ∧ board.Unprotected a

/-- An erasure of the pending range leaves the RAM that the loader itself uses. -/
def Loader.sparesPending (board : Board) (loader : Loader) : Bool :=
  loader.signed.dataAddress = 0 ||
    board.sparesOwnRam loader.signed.dataAddress.toNat loader.signed.dataLength.toNat

/-- The request leaves the RAM that the loader itself uses: it does not go over it, no erasure of the
pending range would, and what it writes of the configuration fits into the buffer. -/
def Loader.sparesOwn (board : Board) (env : Environment) (request : Request) (loader : Loader) :
    Bool :=
  loader.sparesPending board &&
    match request with
    | .writeMemory address length _ =>
      board.sparesOwnRam address.toNat length.toNat &&
        loader.configFits board env address.toNat length.toNat
    | .eraseMemory address length => board.sparesOwnRam address.toNat length.toNat
    | _ => true

/-- What a new configuration brings outside the configuration blocks is in the pending range. -/
def Board.BringsPending (board : Board) (loader : Loader) : Prop :=
  loader.signed.sectorType = BlockRange.BLOCKTYPE_CONFIG → ¬nonPositive loader.configBufferLength →
    ∀ buffer, loader.configBuffer = some buffer → loader.fCanWrite buffer = true →
      ∀ a, loader.config.cfgPhysicalAddress ≤ a →
        a < loader.config.cfgPhysicalAddress + loader.configBufferLength → board.Unprotected a →
        loader.signed.dataAddress.toNat ≤ a ∧
          a < loader.signed.dataAddress.toNat + loader.signed.dataLength.toNat

/-- The condition under which a step keeps track of what is not verified.  No request goes over the
RAM of the loader itself.  A range at address 0 has no byte of flash outside the configuration; a
pending range of a device is extended to less than 2^31 bytes and without a gap between its regions; a
signature check writes no byte behind the configuration that is not pending; a reset or a launch by
time-out finds no byte outside the configuration pending. -/
def Board.Careful (board : Board) (loader : Loader) : Event → Prop
  | .request env request => loader.sparesOwn board env request = true ∧
    match request with
    | .writeMemory address length _ =>
      if loader.signed.dataAddress = 0 then address = 0 → ¬board.Reaches 0 length.toNat
      else ∀ i device sectAddr,
        findDeviceForPhysicalAddress board.devices loader.signed.dataAddress.toNat =
          some (i, device, sectAddr) →
        loader.signed.dataLength.toNat + length.toNat < 2 ^ 31 ∧
          ∀ x, loader.signed.dataAddress.toNat ≤ x →
            x < loader.signed.dataAddress.toNat + loader.signed.dataLength.toNat → device.Holds x
    | .checkSignature keyIndex length _ =>
      keyIndex < ConfigurationSector.c_DeployKeyCount → length = RSA_BLOCK_SIZE_BYTES →
        board.BringsPending loader
    | _ => True
  | .reset _ _ _ | .timeout =>
    ¬board.Reaches loader.signed.dataAddress.toNat loader.signed.dataLength.toNat

/-! ## The invariant -/

/-- The address is in a piece of the pending range outside the configuration. -/
def Board.Pending (board : Board) (signed : SignedDataState) (a : ℕ) : Prop :=
  ∃ i device sectAddr pieces, signed.pDevice = some i ∧
    findDeviceForPhysicalAddress board.devices signed.dataAddress.toNat =
      some (i, device, sectAddr) ∧
    device.pieces signed.dataAddress.toNat signed.dataLength.toNat = some pieces ∧
    Covered pieces a

/-- The pending record names the device of its address, and every byte not verified is pending. -/
structure Board.Tracked (board : Board) (loader : Loader) : Prop where
  record : ∀ i, loader.signed.pDevice = some i → ∃ device sectAddr,
    findDeviceForPhysicalAddress board.devices loader.signed.dataAddress.toNat =
      some (i, device, sectAddr)
  pending : ∀ a, loader.storage.unverified a = true →
    loader.signed.dataAddress ≠ 0 ∧ board.Pending loader.signed a

/-- Nothing is left that was written and neither verified nor erased. -/
def Loader.Clean (loader : Loader) : Prop := ∀ a, loader.storage.unverified a = false

variable {lengthInBytes location : ℕ} {pieces : List Piece}

theorem covered_unprotected {device : BlockDeviceInfo}
    (hpieces : device.pieces location lengthInBytes = some pieces)
    (h : Covered pieces a) :
    device.Unprotected a ∧ location ≤ a ∧ a < location + lengthInBytes := by
  obtain ⟨piece, hmem, hconfig, hhas⟩ := h
  obtain ⟨region, hregion, hin, -, hrange, hblock, hindex, hle, hlt⟩ := pieces_fit hpieces hmem hhas
  refine ⟨⟨region, hregion, hin, piece.range, hrange, ?_, hconfig⟩, hle, hlt⟩
  rwa [hindex]

/-- An access covers the bytes outside the configuration that it reaches without a gap. -/
theorem covered_of_unprotected {device : BlockDeviceInfo}
    (hpieces : device.pieces location lengthInBytes = some pieces)
    (hsmall : lengthInBytes < 2 ^ 31) (hle : location ≤ a) (hlt : a < location + lengthInBytes)
    (hgap : ∀ x, location ≤ x → x ≤ a → device.Holds x) (h : device.Unprotected a) :
    Covered pieces a := by
  obtain ⟨piece, hmem, hhas⟩ := pieces_cover hpieces hsmall hle hlt hgap
  obtain ⟨region, hregion, hin, -, hrange, hblock, hindex, -, -⟩ := pieces_fit hpieces hmem hhas
  obtain ⟨region', hregion', hin', range, hrange', hblock', hconfig⟩ := h
  obtain rfl := BlockDeviceInfo.region_unique hregion' hregion hin' hin
  rw [hindex] at hblock'
  rw [← region'.tiles.unique hrange hrange' hblock hblock'] at hconfig
  exact ⟨piece, hmem, hconfig, hhas⟩

theorem Board.Pending.reaches {signed : SignedDataState} (h : board.Pending signed a) :
    signed.dataAddress.toNat ≤ a ∧ a < signed.dataAddress.toNat + signed.dataLength.toNat ∧
      board.Unprotected a := by
  obtain ⟨i, device, sectAddr, pieces, -, hfind, hpieces, hcovered⟩ := h
  obtain ⟨hdevice, -⟩ := findDevice_spec hfind
  obtain ⟨hunprotected, hle, hlt⟩ := covered_unprotected hpieces hcovered
  exact ⟨hle, hlt, device, List.mem_of_getElem? hdevice, hunprotected⟩

theorem Loader.Clean.tracked (h : loader.Clean)
    (hrecord : loader.signed.pDevice = none) : board.Tracked loader where
  record := by
    intro i hi
    rw [hrecord] at hi
    cases hi
  pending := by
    intro a ha
    rw [h a] at ha
    cases ha

theorem Loader.Clean.and_tracked (h : loader.Clean) (hrecord : loader.signed.pDevice = none) :
    loader.Clean ∧ board.Tracked loader := ⟨h, h.tracked hrecord⟩

theorem Loader.Clean.shrink (h : loader.Clean)
    (hshrinks : loader.storage.Shrinks loader'.storage) : loader'.Clean := by
  intro a
  by_contra hmarked
  rw [Bool.not_eq_false] at hmarked
  have := hshrinks.marked a hmarked
  rw [h a] at this
  cases this

theorem Board.Tracked.clean (h : board.Tracked loader) (hzero : loader.signed.dataAddress = 0) :
    loader.Clean := by
  intro a
  by_contra hmarked
  rw [Bool.not_eq_false] at hmarked
  exact (h.pending a hmarked).1 hzero

theorem Board.Tracked.shrink (h : board.Tracked loader) (hsigned : loader'.signed = loader.signed)
    (hshrinks : loader.storage.Shrinks loader'.storage) : board.Tracked loader' := by
  constructor
  · rw [hsigned]
    exact h.record
  · intro a ha
    rw [hsigned]
    exact h.pending a (hshrinks.marked a ha)

/-! ## Operations -/

theorem eraseMemoryAndReset_clean (h : board.Tracked loader) :
    (loader.eraseMemoryAndReset board env).Clean ∧
      board.Tracked (loader.eraseMemoryAndReset board env) := by
  unfold eraseMemoryAndReset
  split
  · rename_i hne
    have hclean : (loader.eraseMemoryAndReset board env).Clean := by
      rw [eraseMemoryAndReset, if_pos hne]
      intro a
      by_contra hmarked
      rw [Bool.not_eq_false] at hmarked
      have hbefore : (loader.accessMemory board env loader.signed.dataAddress.toNat
          loader.signed.dataLength.toNat env.stack .erase).1.storage.unverified a = true :=
        (invalidateSectorBitField_shrinks ..).marked a hmarked
      rcases accessMemory_marks hbefore with hold | ⟨hmode, -⟩
      · obtain ⟨-, i, device, sectAddr, pieces, -, hfind, hpieces, hcovered⟩ := h.pending a hold
        have herased := @accessMemory_erase board env device pieces
          loader.signed.dataAddress.toNat loader.signed.dataLength.toNat a loader env.stack i sectAddr
          hfind hpieces hcovered
        rw [herased] at hbefore
        cases hbefore
      · cases hmode
    rw [eraseMemoryAndReset, if_pos hne] at hclean
    exact ⟨hclean, hclean.tracked rfl⟩
  · rename_i hzero
    exact ⟨h.clean (by simpa using hzero), h⟩

/-- A verified range leaves nothing where every mark is pending. -/
theorem verify_clean {storage : Storage} (h : ∀ a, storage.unverified a = true →
      loader.signed.dataAddress.toNat ≤ a ∧
        a < loader.signed.dataAddress.toNat + loader.signed.dataLength.toNat) :
    ∀ a, (storage.verify loader.signed.dataAddress.toNat
      loader.signed.dataLength.toNat).unverified a = false := by
  intro a
  by_contra hmarked
  rw [Bool.not_eq_false, Storage.verify] at hmarked
  obtain ⟨hout, hold⟩ := Bool.and_eq_true_iff.mp hmarked
  obtain ⟨hle, hlt⟩ := h a hold
  simp [hle, hlt] at hout

theorem Board.Tracked.in_pending (h : board.Tracked loader) (ha : loader.storage.unverified a = true) :
    loader.signed.dataAddress.toNat ≤ a ∧
      a < loader.signed.dataAddress.toNat + loader.signed.dataLength.toNat := by
  obtain ⟨hle, hlt, -⟩ := (h.pending a ha).2.reaches
  exact ⟨hle, hlt⟩

section Signature

variable {data signature : List UInt8} {keyIndex : ℕ}

/-- The signature check leaves the pending record. -/
theorem cryptoVerifySignature_signed (sectorType : UInt32) :
    (loader.cryptoVerifySignature board data signature sectorType keyIndex).1.signed =
      loader.signed := by
  unfold cryptoVerifySignature verifyConfig
  split
  · rfl
  split
  · rfl
  split
  · split
    · rfl
    · split
      · rfl
      · split <;> rfl
  · rfl

/-- A signature check that fails marks nothing; one that succeeds marks pending bytes only. -/
theorem cryptoVerifySignature_marks (hbrings : board.BringsPending loader) :
    let result := loader.cryptoVerifySignature board data signature loader.signed.sectorType keyIndex
    ∀ a, result.1.storage.unverified a = true → loader.storage.unverified a = true ∨
      result.2 = true ∧ loader.signed.dataAddress.toNat ≤ a ∧
        a < loader.signed.dataAddress.toNat + loader.signed.dataLength.toNat := by
  dsimp only
  unfold cryptoVerifySignature
  split
  · exact fun a ↦ .inl
  split
  · exact fun a ↦ .inl
  split
  · rename_i htype
    unfold verifyConfig
    split
    · exact fun a ↦ .inl
    rename_i buffer hbuffer
    split
    · exact fun a ↦ .inl
    rename_i hlength
    split
    · rename_i hcan
      intro a ha
      rcases ConfigurationSectorManager.eraseWriteConfigBlock_marks _ _ _ _ _ ha with
        hold | ⟨hle, hlt, hunprotected⟩
      · exact .inl hold
      · rw [length_load] at hlt
        exact .inr ⟨rfl, hbrings htype hlength buffer hbuffer hcan a hle hlt hunprotected⟩
    · exact fun a ↦ .inl
  · exact fun a ↦ .inl

/-- `VerifySignature` leaves nothing, whatever it returns. -/
theorem verifySignature_clean (h : board.Tracked loader) {length keyIndex : UInt32}
    (hcareful : board.Careful loader (.request env (.checkSignature keyIndex length signature))) :
    (loader.verifySignature board env signature length keyIndex).1.Clean ∧
      board.Tracked (loader.verifySignature board env signature length keyIndex).1 := by
  unfold verifySignature
  dsimp only
  split
  · exact eraseMemoryAndReset_clean h
  rename_i hallowed
  obtain ⟨hindex, hlength⟩ := not_or.mp hallowed
  split
  · exact Loader.Clean.and_tracked (verify_clean fun a ↦ h.in_pending) rfl
  split
  · exact eraseMemoryAndReset_clean h
  have hmarks := @cryptoVerifySignature_marks board loader
    (load loader.storage.bytes loader.signed.dataAddress.toNat loader.signed.dataLength.toNat)
    signature keyIndex.toNat (hcareful.2 (UInt32.not_le.mp hindex) (not_not.mp hlength))
  split
  · refine Loader.Clean.and_tracked (verify_clean fun a ha ↦ ?_) rfl
    rcases hmarks a ((invalidateSectorBitField_shrinks ..).marked a ha) with hold | ⟨-, hin⟩
    · exact h.in_pending hold
    · exact hin
  · rename_i hfailed
    refine eraseMemoryAndReset_clean (h.shrink (cryptoVerifySignature_signed _) ⟨fun a ha ↦ ?_⟩)
    exact (hmarks a ha).resolve_right fun hnew ↦ hfailed hnew.1

end Signature

variable {address blockType : UInt32} {named : Option ℕ}

theorem locate_spec (h : locate board address = some (named, blockType)) :
    named = (findDeviceForPhysicalAddress board.devices address.toNat).map (·.1) := by
  unfold locate at h
  split at h
  · rename_i hnone
    cases h
    rw [hnone]
    rfl
  · rename_i i device sectAddr hfind
    split at h
    · cases h
    · obtain ⟨range, -, heq⟩ := map_eq_some_iff.mp h
      cases heq
      rw [hfind]
      rfl

/-- The check of new data refuses it, starts a record or extends the pending one. -/
theorem verifyContiguousData_cases (board : Board) (env : Environment) (address length : UInt32)
    (loader : Loader) :
    loader.verifyContiguousData board env address length = (loader, false) ∨
      (loader.verifyContiguousData board env address length).2 = true ∧
        ∃ named blockType, locate board address = some (named, blockType) ∧
        ((loader.signed.dataAddress = 0 ∧
          (loader.verifyContiguousData board env address length).1.signed =
            ⟨address, length, blockType, named⟩ ∧
          loader.storage.Shrinks (loader.verifyContiguousData board env address length).1.storage) ∨
        (loader.signed.dataAddress ≠ 0 ∧ named = loader.signed.pDevice ∧
          loader.signed.dataAddress + loader.signed.dataLength = address ∧
          (loader.verifyContiguousData board env address length).1 =
            { loader with
              signed := { loader.signed with
                dataLength := loader.signed.dataLength + length } })) := by
  unfold verifyContiguousData
  split
  · exact .inl rfl
  · rename_i named blockType hlocate
    split
    · rename_i hzero
      refine .inr ⟨rfl, named, blockType, hlocate, .inl ⟨hzero, rfl, ?_⟩⟩
      exact getNextSectorSignatureCheck_shrinks ..
    · rename_i hne
      split
      · exact .inl rfl
      · rename_i hsame
        simp only [ne_eq, not_or, not_not] at hsame
        exact .inr ⟨rfl, named, blockType, hlocate, .inr ⟨hne, hsame.1, hsame.2.2, rfl⟩⟩

theorem pending_start {length : UInt32} {i sectAddr : ℕ} {device : BlockDeviceInfo}
    (hlocate : locate board address = some (named, blockType))
    (hfind : findDeviceForPhysicalAddress board.devices address.toNat = some (i, device, sectAddr))
    (hpieces : device.pieces address.toNat length.toNat = some pieces)
    (hcovered : Covered pieces a) : board.Pending ⟨address, length, blockType, named⟩ a := by
  have hnamed := locate_spec hlocate
  rw [hfind] at hnamed
  exact ⟨i, device, sectAddr, pieces, hnamed, hfind, hpieces, hcovered⟩

theorem holds_lt {device : BlockDeviceInfo} (h : device.Holds a) : a + 1 < 2 ^ 32 := by
  obtain ⟨region, -, hin⟩ := h
  have := (BlockRegionInfo.contains_iff.mp hin).2
  have := region.bound
  rw [← BlockRegionInfo.endAddress] at this
  omega

section Extend

variable {signed : SignedDataState} {length : UInt32} {i sectAddr : ℕ} {device : BlockDeviceInfo}
  {pieces : List Piece}

/-- A range without a gap does not wrap around. -/
theorem toNat_end (hlast : ∀ x, signed.dataAddress.toNat ≤ x →
      x < signed.dataAddress.toNat + signed.dataLength.toNat → device.Holds x) :
    (signed.dataAddress + signed.dataLength).toNat =
      signed.dataAddress.toNat + signed.dataLength.toNat := by
  rw [UInt32.toNat_add]
  apply Nat.mod_eq_of_lt
  by_contra hwrap
  have hfirst := signed.dataAddress.toNat_lt
  have hholds := holds_lt (hlast (2 ^ 32 - 1) (by omega) (by omega))
  omega

theorem pending_extend_old (hsmall : signed.dataLength.toNat + length.toNat < 2 ^ 31)
    (h : board.Pending signed a) :
    board.Pending { signed with dataLength := signed.dataLength + length } a := by
  obtain ⟨i, device, sectAddr, pieces, hdevice, hfind, hpieces, hcovered⟩ := h
  have hlength : (signed.dataLength + length).toNat = signed.dataLength.toNat + length.toNat := by
    rw [UInt32.toNat_add]
    exact Nat.mod_eq_of_lt (by omega)
  obtain ⟨all, hall⟩ := pieces_isSome (findDevice_spec hfind).2 (signed.dataLength + length).toNat
  obtain ⟨hunprotected, hle, hlt⟩ := covered_unprotected hpieces hcovered
  refine ⟨i, device, sectAddr, all, hdevice, hfind, hall, ?_⟩
  apply covered_of_unprotected hall (by omega) hle (by omega) _ hunprotected
  intro x hx hxa
  obtain ⟨piece, hmem, -, hhas⟩ := hcovered
  exact (pieces_reached hpieces piece hmem).2 x hx (hxa.trans_lt hhas.2)

/-- What is written behind the pending range is pending in the extended one. -/
theorem pending_extend_new (hsmall : signed.dataLength.toNat + length.toNat < 2 ^ 31)
    (hgap : ∀ x, signed.dataAddress.toNat ≤ x →
      x < signed.dataAddress.toNat + signed.dataLength.toNat → device.Holds x)
    (hdevice : signed.pDevice = some i)
    (hfind : findDeviceForPhysicalAddress board.devices signed.dataAddress.toNat =
      some (i, device, sectAddr))
    (hpieces : device.pieces (signed.dataAddress + signed.dataLength).toNat length.toNat =
      some pieces) (hcovered : Covered pieces a) :
    board.Pending { signed with dataLength := signed.dataLength + length } a := by
  have hlength : (signed.dataLength + length).toNat = signed.dataLength.toNat + length.toNat := by
    rw [UInt32.toNat_add]
    exact Nat.mod_eq_of_lt (by omega)
  rw [toNat_end hgap] at hpieces
  obtain ⟨all, hall⟩ := pieces_isSome (findDevice_spec hfind).2 (signed.dataLength + length).toNat
  obtain ⟨hunprotected, hle, hlt⟩ := covered_unprotected hpieces hcovered
  refine ⟨i, device, sectAddr, all, hdevice, hfind, hall, ?_⟩
  apply covered_of_unprotected hall (by omega) (by omega) (by omega) _ hunprotected
  intro x hx hxa
  by_cases hbefore : x < signed.dataAddress.toNat + signed.dataLength.toNat
  · exact hgap x hx hbefore
  · obtain ⟨piece, hmem, -, hhas⟩ := hcovered
    exact (pieces_reached hpieces piece hmem).2 x (Nat.le_of_not_lt hbefore) (hxa.trans_lt hhas.2)

end Extend

theorem verifyContiguousData_length (board : Board) (env : Environment) (address length : UInt32)
    (loader : Loader) :
    (loader.verifyContiguousData board env address length).1.configBufferLength =
      loader.configBufferLength := by
  unfold verifyContiguousData
  split
  · rfl
  · split
    · rfl
    · split <;> rfl

/-- A write that spares the variables changes no record. -/
theorem writeMemory_same {length : UInt32} {data : Memory}
    (h : loader.sparesOwn board env (.writeMemory address length data) = true)
    (hlength : loader'.configBufferLength = loader.configBufferLength) :
    SameRecords loader'
      (loader'.accessMemory board env address.toNat length.toNat data .write).1 := by
  obtain ⟨-, hboth⟩ := Bool.and_eq_true_iff.mp h
  obtain ⟨hram, hfits⟩ := Bool.and_eq_true_iff.mp hboth
  apply accessMemory_same fun _ ↦ hram
  intro _
  rw [configFits, hlength]
  exact hfits

/-- A write under the condition keeps the record. -/
theorem monitorWriteMemory_tracked (h : board.Tracked loader) {length : UInt32} {data : Memory}
    (hcareful : board.Careful loader (.request env (.writeMemory address length data))) :
    board.Tracked (loader.monitorWriteMemory board env address length data).loader := by
  unfold monitorWriteMemory
  dsimp only
  obtain ⟨hspares, hcareful⟩ := hcareful
  dsimp only at hcareful
  have hrecords := @writeMemory_same board env loader _ address length data hspares
    (verifyContiguousData_length board env address length loader)
  rcases verifyContiguousData_cases board env address length loader with
    hrefused | ⟨hresult, named, blockType, hlocate,
      ⟨hzero, hsigned, hshrinks⟩ | ⟨hne, hsame, haddress, hextended⟩⟩
  · simp only [hrefused, Bool.false_eq_true, if_false]
    exact (eraseMemoryAndReset_clean h).2
  · rw [if_pos hresult]
    rw [if_pos hzero] at hcareful
    have hsigned' := hrecords.signed.trans hsigned
    constructor
    · intro i hi
      rw [hsigned'] at hi ⊢
      have hnamed := locate_spec hlocate
      rw [show named = some i from hi] at hnamed
      obtain ⟨⟨j, device, sectAddr⟩, hfind, hj⟩ := map_eq_some_iff.mp hnamed.symm
      obtain rfl : j = i := hj
      exact ⟨device, sectAddr, hfind⟩
    · intro a ha
      rw [hsigned']
      rcases accessMemory_marks ha with
        hold | ⟨-, i, device, sectAddr, pieces, hfind, hpieces, hcovered⟩
      · have hclean := (h.clean hzero).shrink hshrinks
        rw [hclean a] at hold
        cases hold
      · have hpending := pending_start hlocate hfind hpieces hcovered
        refine ⟨fun hstart ↦ ?_, hpending⟩
        have hstart' : address = 0 := hstart
        obtain ⟨-, hlt, hunprotected⟩ := hpending.reaches
        apply hcareful hstart'
        refine ⟨a, Nat.zero_le _, ?_, hunprotected⟩
        rw [hstart'] at hlt
        exact hlt
  · rw [hextended] at hrecords
    rw [if_pos hresult, hextended]
    rw [if_neg hne] at hcareful
    constructor
    · rw [hrecords.signed]
      exact h.record
    · intro a ha
      rw [hrecords.signed]
      refine ⟨hne, ?_⟩
      rcases accessMemory_marks ha with
        hold | ⟨-, i, device, sectAddr, pieces, hfind, hpieces, hcovered⟩
      · obtain ⟨-, hpending⟩ := h.pending a hold
        obtain ⟨i, device, sectAddr, -, -, hfind, -⟩ := hpending
        exact pending_extend_old (hcareful i device sectAddr hfind).1 (h.pending a hold).2
      · have hnamed := locate_spec hlocate
        rw [hfind, hsame] at hnamed
        obtain ⟨device', sectAddr', hfind'⟩ := h.record i hnamed
        have hindex := (findDevice_spec hfind).1
        rw [(findDevice_spec hfind').1] at hindex
        obtain rfl := some.inj hindex
        obtain ⟨hsmall, hgap⟩ := hcareful i device' sectAddr' hfind'
        rw [← haddress] at hpieces
        exact pending_extend_new hsmall hgap hnamed hfind' hpieces hcovered

/-- An access that does not write keeps the record, an erasure if it spares the variables. -/
theorem access_tracked (h : board.Tracked loader) {location lengthInBytes : ℕ} {buf : Memory}
    {mode : AccessMode} (hmode : mode ≠ .write)
    (hram : mode = .erase → board.sparesOwnRam location lengthInBytes = true) :
    board.Tracked (loader.accessMemory board env location lengthInBytes buf mode).1 := by
  have hsame := @accessMemory_same board env location lengthInBytes loader buf mode
    (fun hmodes ↦ hram (hmodes.resolve_left hmode)) fun hwrite ↦ absurd hwrite hmode
  exact h.shrink hsame.signed ⟨fun a ha ↦
    (accessMemory_marks ha).resolve_right fun hwrite ↦ hmode hwrite.1⟩

/-- What a step must do: keep the record, and launch only when nothing is left. -/
def Board.Keeps (board : Board) (outcome : Outcome) : Prop :=
  board.Tracked outcome.loader ∧ (outcome.launched ≠ none → outcome.loader.Clean)

/-- A handler that refuses to work with data pending finds nothing left. -/
theorem unlessDirty_keeps (h : board.Tracked loader) {handle : Loader → Outcome}
    (hhandle : loader.Clean → board.Keeps (handle loader)) :
    board.Keeps (loader.unlessDirty board env handle) := by
  unfold unlessDirty
  split
  · exact ⟨(eraseMemoryAndReset_clean h).2, fun hlaunched ↦ absurd rfl hlaunched⟩
  · rename_i hclean
    apply hhandle
    apply h.clean
    simp only [SignedDataState.checkDirty, Bool.or_eq_true, not_or] at hclean
    simpa using hclean.1

theorem monitorExecute_keeps (h : board.Tracked loader) (address : UInt32) :
    board.Keeps (loader.monitorExecute board env address) := by
  apply unlessDirty_keeps h
  intro hclean
  dsimp only
  have hshrinks := ConfigurationSectorManager.cleanBootLoaderFlag_shrinks board loader.config
    loader.storage env loader.ram
  split
  · split
    · exact ⟨h.shrink rfl hshrinks, fun _ ↦ hclean.shrink hshrinks⟩
    · exact ⟨h, fun hlaunched ↦ absurd rfl hlaunched⟩
  · split
    · exact ⟨h.shrink rfl hshrinks, fun _ ↦ hclean.shrink hshrinks⟩
    · exact ⟨h, fun hlaunched ↦ absurd rfl hlaunched⟩

theorem applicationEntryPoint_keeps (storage : Storage) (ram : Memory) (waitForUpload : Bool)
    (hclean : ∀ a, storage.unverified a = false) :
    board.Keeps ((boot storage ram).applicationEntryPoint board env waitForUpload) := by
  have hstart : (boot storage ram).Clean := hclean
  have hend : ((boot storage ram).applicationEntryPoint board env waitForUpload).loader.Clean :=
    hstart.shrink (eraseOnSignatureCheckFail_shrinks ..)
  exact ⟨hend.tracked rfl, fun _ ↦ hend⟩

/-- One step under the condition. -/
theorem step_keeps (h : board.Tracked loader) {event : Event} (hcareful : board.Careful loader event) :
    board.Keeps (board.step loader event) := by
  have hclean : ¬board.Reaches loader.signed.dataAddress.toNat loader.signed.dataLength.toNat →
      loader.Clean := by
    intro hnone a
    by_contra hmarked
    rw [Bool.not_eq_false] at hmarked
    obtain ⟨hle, hlt, hunprotected⟩ := (h.pending a hmarked).2.reaches
    exact hnone ⟨a, hle, hlt, hunprotected⟩
  have hquiet : ∀ {outcome : Outcome}, outcome.launched = none → board.Tracked outcome.loader →
      board.Keeps outcome :=
    fun hnone htracked ↦ ⟨htracked, fun hlaunched ↦ absurd hnone hlaunched⟩
  cases event with
  | request env request =>
    cases request with
    | readMemory address length | checkMemory address length =>
      exact unlessDirty_keeps h fun _ ↦ hquiet rfl (access_tracked h (by decide) fun herase ↦ by
        cases herase)
    | eraseMemory address length =>
      obtain ⟨-, hram⟩ := Bool.and_eq_true_iff.mp hcareful.1
      exact unlessDirty_keeps h fun _ ↦ hquiet rfl (access_tracked h (by decide) fun _ ↦ hram)
    | writeMemory address length data =>
      apply hquiet _ (monitorWriteMemory_tracked h hcareful)
      show (loader.monitorWriteMemory board env address length data).launched = none
      rw [monitorWriteMemory]
      dsimp only
      split <;> rfl
    | execute address => exact monitorExecute_keeps h address
    | memoryMap => exact unlessDirty_keeps h fun _ ↦ hquiet rfl h
    | checkSignature keyIndex length signature =>
      exact hquiet rfl (verifySignature_clean h hcareful).2
  | reset env ram waitForUpload => exact applicationEntryPoint_keeps _ _ _ (hclean hcareful)
  | timeout => exact ⟨h, fun _ ↦ hclean hcareful⟩

/-! ## Runs -/

/-- The step relation of a board. -/
def Board.next (board : Board) (loader : Loader) (event : Event) : Option Loader :=
  some (board.step loader event).loader

theorem reachable_tracked (h : Reachable board.next board.Careful board.Started loader) :
    board.Tracked loader := by
  refine h.invariant (fun loader hstart ↦ ?_) (fun loader event loader' ih hcareful hstep ↦ ?_)
  · obtain ⟨bytes, ram, env, waitForUpload, rfl⟩ := hstart
    exact (applicationEntryPoint_keeps _ _ _ fun _ ↦ rfl).1
  · obtain rfl := some.inj hstep
    exact (step_keeps ih hcareful).1

theorem bytesPerBlock_pos : 0 < 0x1000 := by decide

def sampleRegion : BlockRegionInfo where
  start := 0x1000
  numBlocks := 2
  bytesPerBlock := 0x1000
  blockRanges := [⟨BlockRange.BLOCKTYPE_CONFIG, 0, 0⟩, ⟨BlockRange.BLOCKTYPE_CODE, 1, 1⟩]
  pos := bytesPerBlock_pos
  bound := by decide
  tiles := by decide

def sampleDevice : BlockDeviceInfo := ⟨true, [sampleRegion], List.pairwise_singleton _ _⟩

/-- The signature of some data is the data itself. -/
def sampleBoard : Board where
  devices := [sampleDevice]
  programWordCheck := 0xE321F0D3
  ramBase := 0x20000000
  ramSize := 0x10000
  ownRam := fun a ↦ 0x2000F000 ≤ a
  flashBase := 0x1000
  flashSize := 0x2000
  computeCRC := fun _ _ ↦ 0
  rsaVerify := fun _ data signature ↦ data = signature

/-- Erased flash but for the version of the configuration and its keys. -/
def sampleBytes : Memory := fun a ↦
  if a = 0x1006 then 4 else if 0x1248 ≤ a ∧ a < 0x1450 then 0 else 0xFF

def sampleEnv : Environment := ⟨fun _ ↦ none, fun _ ↦ 0, id⟩

def sampleStart : Loader :=
  ((boot ⟨sampleBytes, fun _ ↦ false⟩ fun _ ↦ 0).applicationEntryPoint sampleBoard sampleEnv
    true).loader

/-- The bytes of the program word. -/
def program : List UInt8 := [0xD3, 0xF0, 0x21, 0xE3]

def writeProgram : Event :=
  .request sampleEnv (.writeMemory 0x2010 4 fun i ↦ program.getD i 0)

def checkProgram : Event := .request sampleEnv (.checkSignature 0 128 program)

def executeProgram : Event := .request sampleEnv (.execute 0x2010)

end MicroFramework.TinyBooter
