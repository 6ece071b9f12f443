import MicroFramework.TinyBooter.ConfigurationSector
import MicroFramework.TinyBooter.Traversal

/-!
# Access to memory

The one routine by which all requests check, read, write and erase memory: block storage piece by
piece, where configuration blocks are written to a buffer and never erased, and RAM at once.  Writing
marks bytes of the pieces it visits, and erasing clears the marks of all of them.  The variables of the
loader are lost by an access to the RAM they are in, or by a configuration longer than the buffer.
-/

namespace MicroFramework.TinyBooter

open Library Support List

structure Loader extends Variables where
  storage : Storage
  ram : Memory

def Loader.overwrite (env : Environment) (loader : Loader) : Loader :=
  { loader with toVariables := env.overwritten loader.toVariables }

inductive AccessMode
  | check
  | read
  | write
  | erase
  deriving DecidableEq, Repr

/-- How the turn for a piece ends: the loop goes on, it is left, or the routine returns false. -/
inductive Turn
  | success
  | failure
  | abort
  deriving DecidableEq, Repr

section Access

variable (board : Board) (env : Environment)

/-- A piece outside the configuration is written, after an erasure of its block if it is the start
of the block. -/
def Loader.writePiece (device : BlockDeviceInfo) (piece : Piece) (data : List UInt8)
    (loader : Loader) : Loader × Turn :=
  let startBlock := piece.region.blockAddress piece.blockIndex
  let storage :=
    if piece.accessPhyAddress = startBlock ∧
        loader.storage.isBlockErased startBlock piece.region.bytesPerBlock = false then
      (loader.storage.eraseBlock device startBlock).1
    else loader.storage
  let (storage, success) := storage.write piece.accessPhyAddress data
  ({ loader with storage := storage.mark piece.Has },
    if success then .success else .failure)

/-- The piece is at the start of its range, where a new configuration begins. -/
def Piece.Begins (piece : Piece) : Prop :=
  piece.accessPhyAddress = piece.region.blockAddress piece.range.startBlock

instance (piece : Piece) : Decidable piece.Begins := inferInstanceAs (Decidable (_ = _))

/-- The bytes of the request are appended to the buffer, whose end nothing checks. -/
def Loader.appendConfig (capacity lengthInBytes : ℕ) (bufPtr : Memory) (loader : Loader) :
    Loader × Turn :=
  match loader.configBuffer with
  | none => (loader, .abort)
  | some buffer =>
    let fits := loader.configBufferLength + lengthInBytes ≤ capacity
    let loader := { loader with
      configBuffer := some (store buffer loader.configBufferLength (load bufPtr 0 lengthInBytes))
      configBufferLength := (loader.configBufferLength + lengthInBytes) % 2 ^ 32 }
    (if fits then loader else loader.overwrite env, .success)

/-- A piece of the configuration goes to a buffer in RAM, to which all the bytes of the request are
appended. -/
def Loader.writeConfigPiece (piece : Piece) (lengthInBytes : ℕ) (bufPtr : Memory)
    (loader : Loader) : Loader × Turn :=
  let total := (loader.configBufferLength + lengthInBytes) % 2 ^ 32
  if piece.Begins then
    { loader with
      configBuffer := env.heap ConfigurationSector.size
      configBufferLength := 0 }.appendConfig env ConfigurationSector.size lengthInBytes bufPtr
  else if ConfigurationSector.size < total then
    match env.heap total with
    | none => (loader, .abort)
    | some tmp =>
      { loader with
        configBuffer := some (store tmp 0
          (load (loader.configBuffer.getD loader.ram) 0 loader.configBufferLength)) }.appendConfig
        env total lengthInBytes bufPtr
  else loader.appendConfig env ConfigurationSector.size lengthInBytes bufPtr

/-- The switch over the mode, with the buffer of the caller. -/
def Loader.accessPiece (mode : AccessMode) (device : BlockDeviceInfo) (location lengthInBytes : ℕ)
    (piece : Piece) (loader : Loader) (buf : Memory) : Loader × Memory × Turn :=
  let offset := piece.accessPhyAddress - location
  let bytes := load loader.storage.bytes piece.accessPhyAddress piece.numOfBytes
  match mode with
  | .check =>
    if device.supportsXIP || (env.heap piece.numOfBytes).isSome then
      (loader, storeWord buf 0 (board.computeCRC bytes (loadWord buf 0)), .success)
    else (loader, buf, .abort)
  | .read => (loader, store buf offset bytes, .success)
  | .write =>
    let (loader, turn) :=
      if piece.range.isConfig then
        loader.writeConfigPiece env piece lengthInBytes fun i ↦ buf (offset + i)
      else loader.writePiece device piece (load buf offset piece.numOfBytes)
    (loader, buf, turn)
  | .erase =>
    if piece.range.isConfig then (loader, buf, .success)
    else
      let (storage, success) := loader.storage.eraseBlock device
        (piece.region.blockAddress piece.blockIndex)
      ({ loader with storage := storage }, buf, if success then .success else .failure)

def Loader.accessPieces (mode : AccessMode) (device : BlockDeviceInfo)
    (location lengthInBytes : ℕ) : List Piece → Loader → Memory → Loader × Memory × Bool
  | [], loader, buf => (loader, buf, true)
  | piece :: pieces, loader, buf =>
    let (loader, buf, turn) :=
      loader.accessPiece board env mode device location lengthInBytes piece buf
    match turn with
    | .success => accessPieces mode device location lengthInBytes pieces loader buf
    | .failure => (loader, buf, true)
    | .abort => (loader, buf, false)

/-- The range check of an access to RAM, which the sum of address and length can pass by wrapping
around. -/
def Board.inRam (location lengthInBytes : ℕ) : Bool :=
  let locationEnd := (location + lengthInBytes) % 2 ^ 32
  let ramEndAddress := (board.ramBase + board.ramSize) % 2 ^ 32
  board.ramBase ≤ location ∧ location < ramEndAddress ∧ locationEnd ≤ ramEndAddress

/-- Bytes are put into RAM, and into the variables of the loader where they are there. -/
def Loader.putRam (location : ℕ) (bytes : List UInt8) (loader : Loader) : Loader :=
  let loader := { loader with ram := store loader.ram location bytes }
  if ∀ i < bytes.length, board.ownRam ((location + i) % 2 ^ 32) = false then loader
  else loader.overwrite env

/-- Memory outside the block devices. -/
def Loader.accessRam (mode : AccessMode) (location lengthInBytes : ℕ) (loader : Loader)
    (buf : Memory) : Loader × Memory × Bool :=
  if board.inRam location lengthInBytes then
    match mode with
    | .check => (loader, buf, true)
    | .read => (loader, store buf 0 (load loader.ram location lengthInBytes), true)
    | .write => (loader.putRam board env location (load buf 0 lengthInBytes), buf, true)
    | .erase => (loader.putRam board env location (replicate lengthInBytes 0xFF), buf, true)
  else (loader, buf, false)

def Loader.accessMemory (location lengthInBytes : ℕ) (buf : Memory) (mode : AccessMode)
    (loader : Loader) : Loader × Memory × Bool :=
  match findDeviceForPhysicalAddress board.devices location with
  | none => loader.accessRam board env mode location lengthInBytes buf
  | some (_, device, _) =>
    match device.pieces location lengthInBytes with
    | none => (loader, buf, false) -- "Fail to find the block number from the ByteAddress"
    | some pieces => loader.accessPieces board env mode device location lengthInBytes pieces buf

/-! ## What spares the variables -/

/-- The bytes fit into the buffer at every piece of configuration that they are appended for: a new
buffer has the size of the sector, and no sum of lengths wraps around. -/
def bufferFits (lengthInBytes : ℕ) : List Piece → (configBufferLength : ℕ) → Bool
  | [], _ => true
  | piece :: pieces, configBufferLength =>
    if piece.range.isConfig = false then bufferFits lengthInBytes pieces configBufferLength
    else if piece.Begins then
      (env.heap ConfigurationSector.size).isNone ||
        lengthInBytes ≤ ConfigurationSector.size && bufferFits lengthInBytes pieces lengthInBytes
    else
      configBufferLength + lengthInBytes < 2 ^ 32 &&
        bufferFits lengthInBytes pieces (configBufferLength + lengthInBytes)

def Loader.configFits (location lengthInBytes : ℕ) (loader : Loader) : Bool :=
  match findDeviceForPhysicalAddress board.devices location with
  | none => true
  | some (_, device, _) => (device.pieces location lengthInBytes).all fun pieces ↦
    bufferFits env lengthInBytes pieces loader.configBufferLength

/-- What an access puts into RAM does not go over RAM of the loader itself. -/
def Board.sparesOwnRam (location lengthInBytes : ℕ) : Bool :=
  (findDeviceForPhysicalAddress board.devices location).isSome ||
    !board.inRam location lengthInBytes ||
    decide (∀ i < lengthInBytes, board.ownRam ((location + i) % 2 ^ 32) = false)

end Access

/-! ## Records -/

variable {board : Board} {env : Environment} {device : BlockDeviceInfo} {pieces : List Piece}
  {piece : Piece} {location lengthInBytes a : ℕ} {loader loader' : Loader} {buf : Memory}
  {mode : AccessMode}

/-- Nothing changes but the contents of memory. -/
structure SameRecords (loader loader' : Loader) : Prop where
  signed : loader'.signed = loader.signed
  config : loader'.config = loader.config
  bitField : loader'.bitField = loader.bitField

theorem SameRecords.refl (loader : Loader) : SameRecords loader loader := ⟨rfl, rfl, rfl⟩

theorem SameRecords.trans {loader'' : Loader} (h : SameRecords loader loader')
    (h' : SameRecords loader' loader'') : SameRecords loader loader'' where
  signed := h'.signed.trans h.signed
  config := h'.config.trans h.config
  bitField := h'.bitField.trans h.bitField

/-- What fits into the buffer changes no record. -/
theorem appendConfig_same {capacity : ℕ} (bufPtr : Memory)
    (hfits : loader.configBuffer.isSome → loader.configBufferLength + lengthInBytes ≤ capacity) :
    SameRecords loader (loader.appendConfig env capacity lengthInBytes bufPtr).1 ∧
      ((loader.appendConfig env capacity lengthInBytes bufPtr).2 = .success →
        loader.configBuffer.isSome ∧
        (loader.appendConfig env capacity lengthInBytes bufPtr).1.configBufferLength =
          (loader.configBufferLength + lengthInBytes) % 2 ^ 32) := by
  unfold Loader.appendConfig
  split
  · exact ⟨.refl _, fun hsuccess ↦ by cases hsuccess⟩
  · rename_i buffer hbuffer
    rw [hbuffer] at hfits
    dsimp only
    rw [if_pos (hfits rfl), hbuffer]
    exact ⟨⟨rfl, rfl, rfl⟩, fun _ ↦ ⟨rfl, rfl⟩⟩

theorem writeConfigPiece_same (bufPtr : Memory) (hconfig : piece.range.isConfig = true)
    (hfits : bufferFits env lengthInBytes (piece :: pieces) loader.configBufferLength = true) :
    SameRecords loader (loader.writeConfigPiece env piece lengthInBytes bufPtr).1 ∧
      ((loader.writeConfigPiece env piece lengthInBytes bufPtr).2 = .success →
        bufferFits env lengthInBytes pieces
          (loader.writeConfigPiece env piece lengthInBytes bufPtr).1.configBufferLength = true) := by
  rw [bufferFits, if_neg (by simp [hconfig])] at hfits
  unfold Loader.writeConfigPiece
  dsimp only
  split
  · rename_i hbegins
    rw [if_pos hbegins] at hfits
    have hroom : (env.heap ConfigurationSector.size).isSome →
        lengthInBytes ≤ ConfigurationSector.size ∧
          bufferFits env lengthInBytes pieces lengthInBytes = true := by
      intro hsome
      simpa [Option.isSome_iff_ne_none.mp hsome] using hfits
    obtain ⟨hsame, hlength⟩ := @appendConfig_same env lengthInBytes
      { loader with configBuffer := env.heap ConfigurationSector.size, configBufferLength := 0 }
      ConfigurationSector.size bufPtr fun hsome ↦ by
        rw [Nat.zero_add]
        exact (hroom hsome).1
    refine ⟨⟨hsame.signed, hsame.config, hsame.bitField⟩, fun hsuccess ↦ ?_⟩
    obtain ⟨hsome, heq⟩ := hlength hsuccess
    have hsmall : ConfigurationSector.size < 2 ^ 32 := by decide
    rw [heq, Nat.zero_add, Nat.mod_eq_of_lt ((hroom hsome).1.trans_lt hsmall)]
    exact (hroom hsome).2
  · rename_i hbegins
    rw [if_neg hbegins] at hfits
    obtain ⟨hwrap, hrest⟩ := Bool.and_eq_true_iff.mp hfits
    have htotal := Nat.mod_eq_of_lt (of_decide_eq_true hwrap)
    split
    · split
      · exact ⟨.refl _, fun hsuccess ↦ by cases hsuccess⟩
      · rename_i tmp _
        obtain ⟨hsame, hlength⟩ := @appendConfig_same env lengthInBytes
          { loader with
            configBuffer := some (store tmp 0
              (load (loader.configBuffer.getD loader.ram) 0 loader.configBufferLength)) }
          ((loader.configBufferLength + lengthInBytes) % 2 ^ 32) bufPtr fun _ ↦ htotal.ge
        refine ⟨⟨hsame.signed, hsame.config, hsame.bitField⟩, fun hsuccess ↦ ?_⟩
        rw [(hlength hsuccess).2, htotal]
        exact hrest
    · rename_i hsmall
      obtain ⟨hsame, hlength⟩ := @appendConfig_same env lengthInBytes loader
        ConfigurationSector.size bufPtr fun _ ↦ by
          rw [← htotal]
          exact Nat.le_of_not_lt hsmall
      refine ⟨hsame, fun hsuccess ↦ ?_⟩
      rw [(hlength hsuccess).2, htotal]
      exact hrest

/-- A turn that fits into the buffer changes no record and leaves room for the later ones. -/
theorem accessPiece_same (hfits : mode = .write →
      bufferFits env lengthInBytes (piece :: pieces) loader.configBufferLength = true) :
    SameRecords loader
        (loader.accessPiece board env mode device location lengthInBytes piece buf).1 ∧
      ((loader.accessPiece board env mode device location lengthInBytes piece buf).2.2 = .success →
        mode = .write → bufferFits env lengthInBytes pieces (loader.accessPiece board env mode device
          location lengthInBytes piece buf).1.configBufferLength = true) := by
  unfold Loader.accessPiece
  cases mode with
  | check =>
    dsimp only
    split <;> exact ⟨.refl _, fun _ hmode ↦ by cases hmode⟩
  | read => exact ⟨.refl _, fun _ hmode ↦ by cases hmode⟩
  | write =>
    dsimp only
    have hfits := hfits rfl
    split
    · rename_i hconfig
      obtain ⟨hsame, hrest⟩ := writeConfigPiece_same
        (fun i ↦ buf (piece.accessPhyAddress - location + i)) hconfig hfits
      exact ⟨hsame, fun hsuccess _ ↦ hrest hsuccess⟩
    · rename_i hconfig
      rw [bufferFits, if_pos (by simpa using hconfig)] at hfits
      exact ⟨⟨rfl, rfl, rfl⟩, fun _ _ ↦ hfits⟩
  | erase =>
    dsimp only
    split
    · exact ⟨.refl _, fun _ hmode ↦ by cases hmode⟩
    · exact ⟨⟨rfl, rfl, rfl⟩, fun _ hmode ↦ by cases hmode⟩

theorem accessPieces_same (hfits : mode = .write →
      bufferFits env lengthInBytes pieces loader.configBufferLength = true) :
    SameRecords loader
      (loader.accessPieces board env mode device location lengthInBytes pieces buf).1 := by
  induction pieces generalizing loader buf with
  | nil => exact .refl _
  | cons piece pieces ih =>
    obtain ⟨hsame, hrest⟩ := @accessPiece_same board env device pieces piece location lengthInBytes
      loader buf mode hfits
    rw [Loader.accessPieces]
    dsimp only
    split
    · rename_i hsuccess
      exact hsame.trans (ih (hrest hsuccess))
    · exact hsame
    · exact hsame

theorem putRam_same {bytes : List UInt8}
    (hram : ∀ i < bytes.length, board.ownRam ((location + i) % 2 ^ 32) = false) :
    SameRecords loader (loader.putRam board env location bytes) := by
  rw [Loader.putRam, if_pos hram]
  exact ⟨rfl, rfl, rfl⟩

theorem accessRam_same (hram : mode = .write ∨ mode = .erase → board.inRam location lengthInBytes →
      ∀ i < lengthInBytes, board.ownRam ((location + i) % 2 ^ 32) = false) :
    SameRecords loader (loader.accessRam board env mode location lengthInBytes buf).1 := by
  unfold Loader.accessRam
  split
  · rename_i hin
    cases mode with
    | check => exact .refl _
    | read => exact .refl _
    | write =>
      apply putRam_same
      rw [length_load]
      exact hram (.inl rfl) hin
    | erase =>
      apply putRam_same
      rw [length_replicate]
      exact hram (.inr rfl) hin
  · exact .refl _

/-- An access that spares the variables changes no record. -/
theorem accessMemory_same
    (hram : mode = .write ∨ mode = .erase → board.sparesOwnRam location lengthInBytes = true)
    (hconfig : mode = .write → loader.configFits board env location lengthInBytes = true) :
    SameRecords loader (loader.accessMemory board env location lengthInBytes buf mode).1 := by
  unfold Loader.accessMemory
  split
  · rename_i hnone
    apply accessRam_same
    intro hmode hin
    simpa [Board.sparesOwnRam, hnone, hin] using hram hmode
  · rename_i i device blockAddress hfind
    split
    · exact .refl _
    · rename_i pieces hpieces
      apply accessPieces_same
      intro hmode
      simpa [Loader.configFits, hfind, hpieces] using hconfig hmode

/-! ## Marks -/

/-- The address is in a piece outside the configuration. -/
def Covered (pieces : List Piece) (a : ℕ) : Prop :=
  ∃ piece ∈ pieces, piece.range.isConfig = false ∧ piece.Has a

theorem writeConfigPiece_storage (bufPtr : Memory) :
    (loader.writeConfigPiece env piece lengthInBytes bufPtr).1.storage = loader.storage := by
  have happend : ∀ (loader : Loader) (capacity : ℕ),
      (loader.appendConfig env capacity lengthInBytes bufPtr).1.storage = loader.storage := by
    intro loader capacity
    unfold Loader.appendConfig
    split
    · rfl
    · dsimp only
      split <;> rfl
  unfold Loader.writeConfigPiece
  dsimp only
  split
  · exact happend _ _
  · split
    · split
      · rfl
      · exact happend _ _
    · exact happend _ _

theorem writePiece_marks (data : List UInt8)
    (h : (loader.writePiece device piece data).1.storage.unverified a = true) :
    loader.storage.unverified a = true ∨ piece.Has a := by
  unfold Loader.writePiece at h
  rcases Storage.unverified_mark h with hin | hold
  · exact .inr hin
  · left
    rw [Storage.Shrinks.unverified_write] at hold
    split at hold
    · exact (Storage.Shrinks.eraseBlock ..).marked a hold
    · exact hold

/-- A turn marks bytes of its piece only, outside the configuration and when it writes. -/
theorem accessPiece_marks
    (h : (loader.accessPiece board env mode device location lengthInBytes piece
      buf).1.storage.unverified a = true) :
    loader.storage.unverified a = true ∨
      mode = .write ∧ piece.range.isConfig = false ∧ piece.Has a := by
  unfold Loader.accessPiece at h
  cases mode with
  | check =>
    dsimp only at h
    split at h <;> exact .inl h
  | read => exact .inl h
  | write =>
    dsimp only at h
    split at h
    · rw [writeConfigPiece_storage] at h
      exact .inl h
    · rename_i hconfig
      rcases writePiece_marks _ h with hold | hhas
      · exact .inl hold
      · exact .inr ⟨rfl, by simpa using hconfig, hhas⟩
  | erase =>
    dsimp only at h
    split at h
    · exact .inl h
    · exact .inl ((Storage.Shrinks.eraseBlock ..).marked a h)

theorem accessPieces_marks
    (h : (loader.accessPieces board env mode device location lengthInBytes pieces
      buf).1.storage.unverified a = true) :
    loader.storage.unverified a = true ∨ mode = .write ∧ Covered pieces a := by
  induction pieces generalizing loader buf with
  | nil => exact .inl h
  | cons piece pieces ih =>
    rw [Loader.accessPieces] at h
    dsimp only at h
    have hfirst : (loader.accessPiece board env mode device location lengthInBytes piece
        buf).1.storage.unverified a = true →
        loader.storage.unverified a = true ∨ mode = .write ∧ Covered (piece :: pieces) a := by
      intro ha
      rcases accessPiece_marks ha with hold | ⟨hmode, hconfig, hhas⟩
      · exact .inl hold
      · exact .inr ⟨hmode, piece, mem_cons_self, hconfig, hhas⟩
    split at h
    · rcases ih h with hold | ⟨hmode, later, hmem, hlater⟩
      · exact hfirst hold
      · exact .inr ⟨hmode, later, mem_cons_of_mem _ hmem, hlater⟩
    · exact hfirst h
    · exact hfirst h

theorem accessRam_storage :
    (loader.accessRam board env mode location lengthInBytes buf).1.storage = loader.storage := by
  have hput : ∀ bytes, (loader.putRam board env location bytes).storage = loader.storage := by
    intro bytes
    unfold Loader.putRam
    dsimp only
    split <;> rfl
  unfold Loader.accessRam
  split
  · cases mode with
    | check => rfl
    | read => rfl
    | write => exact hput _
    | erase => exact hput _
  · rfl

/-- Only writing marks bytes, of pieces outside the configuration. -/
theorem accessMemory_marks
    (h : (loader.accessMemory board env location lengthInBytes buf mode).1.storage.unverified a =
      true) :
    loader.storage.unverified a = true ∨ mode = .write ∧
      ∃ i device blockAddress pieces,
        findDeviceForPhysicalAddress board.devices location = some (i, device, blockAddress) ∧
          device.pieces location lengthInBytes = some pieces ∧ Covered pieces a := by
  unfold Loader.accessMemory at h
  split at h
  · rw [accessRam_storage] at h
    exact .inl h
  · rename_i i device blockAddress hfind
    split at h
    · exact .inl h
    · rename_i pieces hpieces
      rcases accessPieces_marks h with hold | ⟨hmode, hcovered⟩
      · exact .inl hold
      · exact .inr ⟨hmode, i, device, blockAddress, pieces, hfind, hpieces, hcovered⟩

theorem eraseBlock_blockAddress {region : BlockRegionInfo} {blockIndex : ℕ}
    (hregion : region ∈ device.regions) (hlt : blockIndex < region.numBlocks) (storage : Storage) :
    (storage.eraseBlock device (region.blockAddress blockIndex)).2 = true ∧
      ∀ a, region.blockAddress blockIndex ≤ a → a < region.blockAddress (blockIndex + 1) →
        (storage.eraseBlock device (region.blockAddress blockIndex)).1.unverified a = false := by
  have hsize := region.blockAddress_succ blockIndex
  have hpos := region.pos
  have hblock := BlockRegionInfo.contains_of_block hlt le_rfl (Nat.lt_add_of_pos_right hpos)
  have hself := BlockRegionInfo.blockIndex_of_block hlt le_rfl (Nat.lt_add_of_pos_right hpos)
  rw [Storage.eraseBlock, BlockDeviceInfo.find_region hregion hblock]
  dsimp only
  rw [hself]
  exact ⟨rfl, fun a hle hlt ↦ if_pos ⟨hle, by omega⟩⟩

/-- Erasing goes through all the pieces and clears the marks of all they have outside the
configuration. -/
theorem accessPieces_erase {all : List Piece}
    (h : device.pieces location lengthInBytes = some all) (hsub : ∀ piece ∈ pieces, piece ∈ all) :
    ∀ a, Covered pieces a → (loader.accessPieces board env .erase device location lengthInBytes
      pieces buf).1.storage.unverified a = false := by
  induction pieces generalizing loader buf with
  | nil =>
    rintro a ⟨piece, hmem, -⟩
    cases hmem
  | cons piece pieces ih =>
    obtain ⟨⟨region, hregion, hfits⟩, -⟩ := pieces_reached h piece (hsub piece mem_cons_self)
    have hrest : ∀ piece ∈ pieces, piece ∈ all :=
      fun later hlater ↦ hsub later (mem_cons_of_mem _ hlater)
    rintro a ⟨target, hmem, hconfig, hhas⟩
    rw [Loader.accessPieces]
    by_cases hskip : piece.range.isConfig = true
    · have hturn : loader.accessPiece board env .erase device location lengthInBytes piece buf =
          (loader, buf, .success) := by
        rw [Loader.accessPiece]
        exact if_pos hskip
      rw [hturn]
      rcases mem_cons.mp hmem with rfl | hlater
      · rw [hconfig] at hskip
        cases hskip
      · exact ih hrest a ⟨target, hlater, hconfig, hhas⟩
    · obtain ⟨hsuccess, hclear⟩ := eraseBlock_blockAddress hregion hfits.block loader.storage
      have hturn : loader.accessPiece board env .erase device location lengthInBytes piece buf =
          ({ loader with
            storage := (loader.storage.eraseBlock device
              (region.blockAddress piece.blockIndex)).1 }, buf, .success) := by
        rw [Loader.accessPiece]
        dsimp only
        rw [if_neg hskip, hfits.same, if_pos hsuccess]
      rw [hturn]
      dsimp only
      rcases mem_cons.mp hmem with rfl | hlater
      · -- the later turns mark nothing
        have hnow := hclear a (hfits.start.trans hhas.1) (hhas.2.trans_le hfits.stop)
        by_contra hmarked
        rw [Bool.not_eq_false] at hmarked
        rcases accessPieces_marks hmarked with hold | ⟨hmode, -⟩
        · rw [hnow] at hold
          cases hold
        · cases hmode
      · exact ih hrest a ⟨target, hlater, hconfig, hhas⟩

theorem accessMemory_erase {i sectAddr : ℕ}
    (hfind : findDeviceForPhysicalAddress board.devices location = some (i, device, sectAddr))
    (hpieces : device.pieces location lengthInBytes = some pieces) (hcovered : Covered pieces a) :
    (loader.accessMemory board env location lengthInBytes buf .erase).1.storage.unverified a =
      false := by
  rw [Loader.accessMemory, hfind]
  dsimp only
  rw [hpieces]
  exact accessPieces_erase hpieces (fun _ hmem ↦ hmem) a hcovered

end MicroFramework.TinyBooter
