import MicroFramework.Heap.Cluster

/-!
# The creation of arrays

`CLR_RT_HeapBlock_Array::CreateInstance`: the blocks for the header and the elements, and the
clearing of the elements.  Sizes are words of 32 bits.  The type system, the collector and the
creation of the objects in an array of value types are parameters.
-/

namespace MicroFramework.Heap

open List Option ClusterHeap

/-- What a row of `c_CLR_RT_DataTypeLookup` says of the elements of an array. -/
structure DataTypeLookup where
  sizeInBytes : UInt8
  numeric : Bool

def sizeofHeapBlock : UInt32 := 12

def sizeofArray : UInt32 := 20

def maxSize : UInt32 := 0x0000FFFF

/-- `c_NA` -/
def notApplicable : UInt8 := 0

/-- The rows of `c_CLR_RT_DataTypeLookup`. -/
def dataTypeLookup : DataType → DataTypeLookup
  | .boolean | .i1 | .u1 => ⟨1, true⟩
  | .char | .i2 | .u2 => ⟨2, true⟩
  | .i4 | .u4 | .r4 => ⟨4, true⟩
  | .i8 | .u8 | .r8 => ⟨8, true⟩
  | .dateTime | .timeSpan | .string | .object | .classType | .valueType | .szArray | .weakClass
  | .delegateHead => ⟨12, false⟩
  | _ => ⟨notApplicable, false⟩

inductive HResult
  | ok
  | wrongType
  | outOfMemory
  | other (code : UInt32)
  deriving DecidableEq

/-- `CLR_RT_ReflectionDef_Index` -/
structure ReflectionDef where
  isType : Bool
  levels : UInt16
  type : UInt32
  deriving DecidableEq

structure Engine where
  initializeFromIndex : UInt32 → Option DataType
  wellKnownArray : UInt32
  performGarbageCollection : ClusterHeap → ClusterHeap
  newObjectFromIndex : ClusterHeap → UInt32 → HResult × ClusterHeap

/-- `CLR_RT_HeapBlock_Array`, with the header of the block it was given. -/
structure ArrayBlock where
  id : BlockId
  reflectionData : ReflectionDef
  numOfElements : UInt32
  typeOfElement : DataType
  sizeOfElement : UInt8
  fReference : Bool

/-- A write to memory: the distance of its first byte from the start of the array, and its
length. -/
structure Store where
  offset : ℕ
  size : ℕ
  deriving DecidableEq

def convertFromSizeToHeapBlocks (x : UInt32) : UInt32 :=
  (x + sizeofHeapBlock - 1) / sizeofHeapBlock

def extractHeapBlocksForArray (engine : Engine) (heap : ClusterHeap) (dt : DataType)
    (length : UInt32) (reflex : ReflectionDef) : Option (Option ArrayBlock × ClusterHeap) := do
  let dtl := dataTypeLookup dt
  let totLength := sizeofArray + length * dtl.sizeInBytes.toUInt32
  let lengthHB := convertFromSizeToHeapBlocks totLength
  if lengthHB > maxSize then
    return (none, heap)
  let (taken, heap) ←
    heap.extractHeapBlocks engine.performGarbageCollection .szArray 0 lengthHB.toNat
  match taken with
  | none => return (none, heap)
  | some block =>
    let id ← heap.header block
    let array : ArrayBlock :=
      { id := id
        reflectionData := reflex
        numOfElements := length
        typeOfElement := dt
        sizeOfElement := dtl.sizeInBytes
        fReference := !dtl.numeric }
    return (some array, heap)

def ArrayBlock.getElement (array : ArrayBlock) (index : UInt32) : ℕ :=
  sizeofArray.toNat + (array.sizeOfElement.toUInt32 * index).toNat

/-- The loop of `ClearElements` over `length` references at `ptr`. -/
def clearReferences (engine : Engine) (type : UInt32) (fAllocate : Bool) :
    ℕ → ℕ → ClusterHeap → HResult × List Store × ClusterHeap
  | 0, _, heap => (.ok, [], heap)
  | length + 1, ptr, heap =>
    let setDataId : Store := ⟨ptr, 4⟩
    if fAllocate then
      let (hr, heap) := engine.newObjectFromIndex heap type
      let stores := [setDataId, ⟨ptr, sizeofHeapBlock.toNat⟩]
      if hr = .ok then
        let rest := clearReferences engine type fAllocate length (ptr + sizeofHeapBlock.toNat) heap
        (rest.1, stores ++ rest.2.1, rest.2.2)
      else (hr, stores, heap)
    else
      let rest := clearReferences engine type fAllocate length (ptr + sizeofHeapBlock.toNat) heap
      (rest.1, setDataId :: rest.2.1, rest.2.2)

/-- `ClearElements`, with the writes that it makes.  Its arguments are signed. -/
def clearElements (engine : Engine) (heap : ClusterHeap) (array : ArrayBlock)
    (index length : Int32) : HResult × List Store × ClusterHeap :=
  let data := array.getElement index.toUInt32
  let zeroFill : Store := ⟨data, (length.toUInt32 * array.sizeOfElement.toUInt32).toNat⟩
  if array.fReference then
    let fAllocate := array.reflectionData.levels = 1 ∧ array.typeOfElement = .valueType
    let rest := clearReferences engine array.reflectionData.type fAllocate
      length.toInt.toNat data heap
    (rest.1, zeroFill :: rest.2.1, rest.2.2)
  else (.ok, [zeroFill], heap)

/-- What `CreateInstance` leaves: its result, the array that `reference` refers to and the writes
made while its elements were cleared. -/
structure Creation where
  hr : HResult
  reference : Option ArrayBlock
  stores : List Store
  heap : ClusterHeap

def elementType (engine : Engine) (reflex : ReflectionDef) : Option DataType :=
  engine.initializeFromIndex (if reflex.levels = 1 then reflex.type else engine.wellKnownArray)

/-- `CreateInstance`.  There is no result where the allocator follows a null pointer or loops
on. -/
def createInstance (engine : Engine) (heap : ClusterHeap) (length : UInt32)
    (reflex : ReflectionDef) : Option Creation :=
  if !reflex.isType then some ⟨.wrongType, none, [], heap⟩
  else
    match elementType engine reflex with
    | none => some ⟨.wrongType, none, [], heap⟩
    | some dt =>
      if (dataTypeLookup dt).sizeInBytes = notApplicable then some ⟨.wrongType, none, [], heap⟩
      else do
        let (pArray, heap) ← extractHeapBlocksForArray engine heap dt length reflex
        match pArray with
        | none => return ⟨.outOfMemory, none, [], heap⟩
        | some array =>
          let cleared := clearElements engine heap array 0 length.toInt32
          return ⟨cleared.1, some array, cleared.2.1, cleared.2.2⟩

/-! ## The size of the block -/

/-- The bytes of the header and of `length` elements, without wrap-around. -/
def neededBytes (dt : DataType) (length : UInt32) : ℕ :=
  sizeofArray.toNat + length.toNat * (dataTypeLookup dt).sizeInBytes.toNat

/-- The header and the elements lie in the blocks of the array, and so does every write that
clears them. -/
structure ArrayBlock.Fits (array : ArrayBlock) (dt : DataType) (length : UInt32)
    (stores : List Store) : Prop where
  large : neededBytes dt length ≤ array.id.size * sizeofHeapBlock.toNat
  element : ∀ i < array.numOfElements.toNat,
    sizeofArray.toNat + (i + 1) * array.sizeOfElement.toNat ≤ array.id.size * sizeofHeapBlock.toNat
  cleared : ∀ s ∈ stores, s.offset + s.size ≤ array.id.size * sizeofHeapBlock.toNat

section Spec

variable {engine : Engine} {heap heap' : ClusterHeap} {dt : DataType} {length : UInt32}
  {reflex : ReflectionDef} {array : ArrayBlock}

/-- The number of blocks asked for is that of the bytes needed, reduced to a word. -/
theorem convertFromSizeToHeapBlocks_needed :
    (convertFromSizeToHeapBlocks
      (sizeofArray + length * (dataTypeLookup dt).sizeInBytes.toUInt32)).toNat =
        (neededBytes dt length + 11) % 2 ^ 32 / 12 := by
  simp only [convertFromSizeToHeapBlocks, sizeofArray, sizeofHeapBlock, neededBytes,
    UInt32.toNat_div, UInt32.toNat_sub, UInt32.toNat_add, UInt32.toNat_mul, UInt32.toNat_ofNat,
    UInt8.toNat_toUInt32, Nat.reducePow, Nat.reduceMod, Nat.reduceSub]
  generalize length.toNat * (dataTypeLookup dt).sizeInBytes.toNat = bytes
  rw [show (4294967295 + ((20 + bytes % 4294967296) % 4294967296 + 12) % 4294967296) % 4294967296 =
    (20 + bytes + 11) % 4294967296 by omega]

theorem extractHeapBlocksForArray_spec
    (h : extractHeapBlocksForArray engine heap dt length reflex = some (some array, heap')) :
    (neededBytes dt length + 11) % 2 ^ 32 / 12 ≤ 65535 ∧
      array.id.size = (neededBytes dt length + 11) % 2 ^ 32 / 12 ∧
      array.numOfElements = length ∧ array.sizeOfElement = (dataTypeLookup dt).sizeInBytes ∧
      array.fReference = !(dataTypeLookup dt).numeric := by
  unfold extractHeapBlocksForArray at h
  dsimp only at h
  have hblocks := @convertFromSizeToHeapBlocks_needed dt length
  generalize convertFromSizeToHeapBlocks
    (sizeofArray + length * (dataTypeLookup dt).sizeInBytes.toUInt32) = lengthHB at h hblocks
  split at h
  · cases h
  · next hmax =>
    have hle : lengthHB.toNat ≤ 65535 :=
      Nat.not_lt.mp fun hlt ↦ hmax (UInt32.lt_iff_toNat_lt.mpr hlt)
    obtain ⟨⟨taken, heap₁⟩, hextract, h⟩ := bind_eq_some_iff.mp h
    cases taken with
    | none => cases h
    | some block =>
      obtain ⟨id, hid, h⟩ := bind_eq_some_iff.mp h
      cases h
      rw [header_extractHeapBlocks hextract] at hid
      cases hid
      refine ⟨by omega, ?_, rfl, rfl, rfl⟩
      rw [← hblocks]
      exact Nat.mod_eq_of_lt (by omega)

variable {count ptr : ℕ} {fAllocate : Bool} {s : Store} {type : UInt32}

/-- The references cleared at `ptr` lie side by side. -/
theorem clearReferences_stores
    (hs : s ∈ (clearReferences engine type fAllocate count ptr heap).2.1) :
    s.offset + s.size ≤ ptr + count * 12 := by
  induction count generalizing ptr heap with
  | zero => simp [clearReferences] at hs
  | succ count ih =>
    have hblock : sizeofHeapBlock.toNat = 12 := rfl
    simp only [clearReferences, hblock] at hs
    split_ifs at hs
    · simp only [mem_append, mem_cons, not_mem_nil, or_false] at hs
      rcases hs with (rfl | rfl) | hs
      · dsimp only
        omega
      · dsimp only
        omega
      · have := ih hs
        omega
    · simp only [mem_cons, not_mem_nil, or_false] at hs
      rcases hs with rfl | rfl <;>
      · dsimp only
        omega
    · rcases mem_cons.mp hs with rfl | hs
      · dsimp only
        omega
      · have := ih hs
        omega

theorem clearReferences_ok (hnew : ∀ heap, (engine.newObjectFromIndex heap type).1 = .ok) :
    (clearReferences engine type fAllocate count ptr heap).1 = .ok := by
  induction count generalizing ptr heap with
  | zero => rfl
  | succ count ih =>
    simp only [clearReferences, hnew, if_true]
    split_ifs <;> exact ih

theorem sizeInBytes_of_not_numeric (hsize : (dataTypeLookup dt).sizeInBytes ≠ notApplicable)
    (hnumeric : (dataTypeLookup dt).numeric = false) :
    (dataTypeLookup dt).sizeInBytes = 12 := by
  cases dt <;> simp_all [dataTypeLookup]

/-- The writes of clearing the whole array end with its last element, unless the size of the
elements wraps around. -/
theorem clearElements_stores (hwrap : neededBytes dt length < 2 ^ 32)
    (hsize : array.sizeOfElement = (dataTypeLookup dt).sizeInBytes)
    (hreference : array.fReference = true → array.sizeOfElement = 12)
    (hs : s ∈ (clearElements engine heap array 0 length.toInt32).2.1) :
    s.offset + s.size ≤ neededBytes dt length := by
  have hdata : array.getElement (Int32.toUInt32 0) = 20 := by
    have hzero : (Int32.toUInt32 0).toNat = 0 := rfl
    simp [ArrayBlock.getElement, sizeofArray, hzero]
  have hneeded : neededBytes dt length = 20 + length.toNat * array.sizeOfElement.toNat := by
    rw [hsize]
    rfl
  have hfill : (length.toInt32.toUInt32 * array.sizeOfElement.toUInt32).toNat =
      length.toNat * array.sizeOfElement.toNat := by
    rw [UInt32.toUInt32_toInt32, UInt32.toNat_mul, UInt8.toNat_toUInt32]
    exact Nat.mod_eq_of_lt (by omega)
  simp only [clearElements, hdata, hfill] at hs
  split at hs
  · next href =>
    rcases mem_cons.mp hs with rfl | hs
    · exact hneeded.ge
    · have hlast := clearReferences_stores hs
      have hcount : length.toInt32.toInt.toNat ≤ length.toNat := by
        change length.toBitVec.toInt.toNat ≤ length.toBitVec.toNat
        rw [BitVec.toInt_eq_toNat_cond]
        split <;> omega
      have helement : array.sizeOfElement.toNat = 12 := by rw [hreference href]; rfl
      rw [hneeded, helement]
      omega
  · obtain rfl := mem_singleton.mp hs
    exact hneeded.ge

theorem createInstance_ok {creation : Creation} (helement : elementType engine reflex = some dt)
    (h : createInstance engine heap length reflex = some creation) (hok : creation.hr = .ok) :
    ∃ array heap', creation.reference = some array ∧
      (dataTypeLookup dt).sizeInBytes ≠ notApplicable ∧
      extractHeapBlocksForArray engine heap dt length reflex = some (some array, heap') ∧
      creation.stores = (clearElements engine heap' array 0 length.toInt32).2.1 := by
  unfold createInstance at h
  rw [helement] at h
  dsimp only at h
  split_ifs at h with htype hsize
  · cases h
    cases hok
  · cases h
    cases hok
  · obtain ⟨⟨pArray, heap₁⟩, hextract, h⟩ := bind_eq_some_iff.mp h
    cases pArray with
    | none =>
      cases h
      cases hok
    | some array =>
      cases h
      exact ⟨array, heap₁, rfl, hsize, hextract, rfl⟩

end Spec

/-! ## When the block is large enough -/

def oneFreeBlock : Cluster where
  memory _ := ⟨rawId .freeBlock HeapBlock.pinned 65535, some .tail, some .head⟩
  first := some (.block 0)
  null := none
  last := some (.block 0)
  payloadStart := 0
  payloadEnd := 65535

def freeHeap : ClusterHeap := ⟨[oneFreeBlock], none, false⟩

/-- An engine whose type definitions have these data types, and where no object creation fails. -/
def permissiveEngine (dataType : UInt32 → Option DataType) : Engine where
  initializeFromIndex := dataType
  wellKnownArray := 0
  performGarbageCollection heap := heap
  newObjectFromIndex heap _ := (.ok, heap)

variable {c : Cluster}

theorem takeBlocks_linked {dataType : DataType} {flags : UInt32} {length res : ℕ}
    {next prev : Node} (hnext : c.next (.block res) = some next)
    (hprev : c.prev (.block res) = some prev) :
    ∃ taken, c.takeBlocks dataType flags length res = some taken := by
  unfold Cluster.takeBlocks
  simp only [hnext, hprev, bind_eq_bind, bind_some]
  split
  · exact ⟨_, rfl⟩
  · exact ⟨_, rfl⟩

theorem findFree_first {length : ℕ} {first following : Node}
    (hfirst : c.first = some first) (hnext : c.next first = some following)
    (hsize : length ≤ c.dataSize first) : c.findFree 0 length = some (some first) := by
  simp [Cluster.findFree, Cluster.fuel, Library.search, hfirst, hnext, hsize]

theorem extractHeapBlocks_first {c' : Cluster} {length address : ℕ}
    {performGarbageCollection : ClusterHeap → ClusterHeap}
    (hextract : c.extractBlocks .szArray 0 length = some (some address, c')) :
    extractHeapBlocks performGarbageCollection ⟨[c], none, false⟩ .szArray 0 length =
      some (some ⟨0, address⟩, ⟨[c'], some 0, false⟩) := by
  simp [extractHeapBlocks, extractPhase, tryClusters,
    range_one, hextract]

theorem extractHeapBlocks_freeHeap {length : ℕ} (hlength : length ≤ 65535)
    (performGarbageCollection : ClusterHeap → ClusterHeap) :
    ∃ block heap id, freeHeap.extractHeapBlocks performGarbageCollection .szArray 0 length =
      some (some block, heap) ∧ heap.header block = some id := by
  obtain ⟨⟨address, c⟩, htake⟩ :=
    @takeBlocks_linked oneFreeBlock .szArray 0 length 0 .tail .head rfl rfl
  have hextract : oneFreeBlock.extractBlocks .szArray 0 length = some (some address, c) := by
    rw [Cluster.extractBlocks, findFree_first rfl rfl hlength]
    simp only [htake, map_some]
  exact ⟨_, _, _, extractHeapBlocks_first hextract, rfl⟩

/-- A request that wraps around to few enough blocks is served. -/
theorem createInstance_freeHeap {dt : DataType} {length : UInt32}
    (hsize : (dataTypeLookup dt).sizeInBytes ≠ notApplicable)
    (hblocks : (neededBytes dt length + 11) % 2 ^ 32 / 12 ≤ 65535) :
    ∃ creation, createInstance (permissiveEngine fun _ ↦ some dt) freeHeap length ⟨true, 1, 0⟩ =
      some creation ∧ creation.hr = .ok := by
  rw [← convertFromSizeToHeapBlocks_needed] at hblocks
  obtain ⟨block, heap', id, hextract, hid⟩ :=
    extractHeapBlocks_freeHeap hblocks (permissiveEngine fun _ ↦ some dt).performGarbageCollection
  have hmax : ¬ convertFromSizeToHeapBlocks
      (sizeofArray + length * (dataTypeLookup dt).sizeInBytes.toUInt32) > maxSize :=
    fun hlt ↦ Nat.not_lt.mpr hblocks (UInt32.lt_iff_toNat_lt.mp hlt)
  have htaken : ∃ array, extractHeapBlocksForArray (permissiveEngine fun _ ↦ some dt) freeHeap dt
      length ⟨true, 1, 0⟩ = some (some array, heap') := by
    unfold extractHeapBlocksForArray
    dsimp only
    rw [if_neg hmax, hextract]
    simp only [bind_eq_bind, bind_some, hid]
    exact ⟨_, rfl⟩
  obtain ⟨array, htaken⟩ := htaken
  have helement : elementType (permissiveEngine fun _ ↦ some dt) ⟨true, 1, 0⟩ = some dt := rfl
  unfold createInstance
  dsimp only
  rw [helement]
  simp only [Bool.not_true, Bool.false_eq_true, if_false, hsize, htaken, bind_eq_bind,
    bind_some]
  refine ⟨_, rfl, ?_⟩
  dsimp only [clearElements]
  split
  · exact clearReferences_ok fun _ ↦ rfl
  · rfl

/-- `CreateInstance` gives a block that holds the array if and only if the size of the array in
bytes, rounded up, is less than `2 ^ 32` or wraps around to more blocks than an array can have. -/
theorem createInstance_fits_iff (dt : DataType) (length : UInt32) :
    (∀ engine heap reflex creation, elementType engine reflex = some dt →
      createInstance engine heap length reflex = some creation → creation.hr = .ok →
        ∃ array, creation.reference = some array ∧ array.Fits dt length creation.stores) ↔
      neededBytes dt length + 11 < 2 ^ 32 ∨
        65536 * 12 ≤ (neededBytes dt length + 11) % 2 ^ 32 := by
  constructor
  · intro hfits
    by_contra hcond
    rw [not_or, not_lt, not_le] at hcond
    have hblocks : (neededBytes dt length + 11) % 2 ^ 32 / 12 ≤ 65535 := by omega
    have hsize : (dataTypeLookup dt).sizeInBytes ≠ notApplicable := by
      intro hzero
      have hneeded : neededBytes dt length = 20 := by
        rw [neededBytes, hzero]
        rfl
      omega
    obtain ⟨creation, hcreate, hok⟩ := createInstance_freeHeap hsize hblocks
    obtain ⟨array, heap', hreference, -, hextract, -⟩ := createInstance_ok rfl hcreate hok
    obtain ⟨array', hreference', hfits'⟩ := hfits _ _ _ creation rfl hcreate hok
    obtain rfl : array = array' := some.inj (hreference.symm.trans hreference')
    obtain ⟨-, hid, -⟩ := extractHeapBlocksForArray_spec hextract
    have hlarge := hfits'.large
    rw [hid, show sizeofHeapBlock.toNat = 12 from rfl] at hlarge
    omega
  · intro hcond engine heap reflex creation helement hcreate hok
    obtain ⟨array, heap', hreference, hsize, hextract, hstores⟩ :=
      createInstance_ok helement hcreate hok
    obtain ⟨hblocks, hid, hnum, helementSize, hfReference⟩ :=
      extractHeapBlocksForArray_spec hextract
    have hword : neededBytes dt length + 11 < 2 ^ 32 := by omega
    have hlarge : neededBytes dt length ≤ array.id.size * sizeofHeapBlock.toNat := by
      rw [hid, show sizeofHeapBlock.toNat = 12 from rfl]
      omega
    refine ⟨array, hreference, hlarge, fun i hi ↦ ?_, fun s hs ↦ ?_⟩
    · rw [hnum] at hi
      apply le_trans _ hlarge
      rw [helementSize, neededBytes]
      exact Nat.add_le_add_left (Nat.mul_le_mul_right _ hi) _
    · rw [hstores] at hs
      apply le_trans (clearElements_stores (by omega) helementSize _ hs) hlarge
      intro href
      rw [helementSize]
      apply sizeInBytes_of_not_numeric hsize
      rw [hfReference] at href
      simpa using href

/-- An array of `2 ^ 30` integers of four bytes is given two blocks. -/
theorem createInstance_int32_wraps :
    ∃ creation array, createInstance (permissiveEngine fun _ ↦ some .i4) freeHeap 0x40000000
      ⟨true, 1, 0⟩ = some creation ∧ creation.hr = .ok ∧ creation.reference = some array ∧
        array.id.size = 2 ∧ ¬ array.Fits .i4 0x40000000 creation.stores := by
  have hneeded : neededBytes .i4 0x40000000 = 4294967316 := by decide
  obtain ⟨creation, hcreate, hok⟩ :=
    @createInstance_freeHeap .i4 0x40000000 (by decide) (by rw [hneeded]; decide)
  obtain ⟨array, heap', hreference, -, hextract, -⟩ := createInstance_ok rfl hcreate hok
  have hid : array.id.size = 2 := by
    apply (extractHeapBlocksForArray_spec hextract).2.1.trans
    rw [hneeded]
    decide
  refine ⟨creation, array, hcreate, hok, hreference, hid, fun hfits ↦ ?_⟩
  have hlarge := hfits.large
  rw [hneeded, hid] at hlarge
  exact absurd hlarge (by decide)

end MicroFramework.Heap
