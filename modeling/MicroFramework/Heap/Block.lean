import Mathlib.Data.List.Chain
import MicroFramework.Library.Tiling

/-!
# Heap blocks

A managed heap is an array of blocks of fixed size, and an object is a run of them.  The first
block of the run starts with a header `m_id`: the data type, eight flag bits and the number of
blocks in the run.  The two words after it, `m_data`, are the list pointers of a block that is a
list node.  Addresses count heap blocks.
-/

namespace MicroFramework.Heap

/-- `CLR_DataType`, the values a block header can hold; `classType` is DATATYPE_CLASS. -/
inductive DataType
  | void | boolean | i1 | u1 | char | i2 | u2 | i4 | u4 | r4 | i8 | u8 | r8 | dateTime | timeSpan
  | string | object | classType | valueType | szArray | byRef
  | freeBlock | cachedBlock | assembly | weakClass | reflection | arrayByRef
  | delegateHead | delegateListHead | objectToEvent | binaryBlobHead
  | thread | subThread | stackFrame | timerHead | lockHead | lockOwnerHead | lockRequestHead
  | waitForObjectHead | finalizerHead | memoryStreamHead | memoryStreamData
  | serializerHead | serializerDuplicate | serializerState | endpointHead
  | ioPort | i2cXAction | appDomainHead | transparentProxy | appDomainAssembly
  deriving DecidableEq, Repr

namespace HeapBlock

def alive : UInt32 := 0x01
def keepAlive : UInt32 := 0x02
def event : UInt32 := 0x04
def pinned : UInt32 := 0x08
def initializeToZero : UInt32 := 0x00100

end HeapBlock

@[ext]
structure BlockId where
  dataType : DataType
  flags : UInt8
  size : ℕ
  deriving DecidableEq, Repr

/-- `CLR_RT_HEAPBLOCK_RAW_ID`: eight bits of flags and sixteen of size are kept. -/
def rawId (dataType : DataType) (flags : UInt32) (size : ℕ) : BlockId where
  dataType := dataType
  flags := flags.toUInt8
  size := size % 2 ^ 16

namespace BlockId

def isFlagSet (id : BlockId) (flags : UInt32) : Bool :=
  id.flags &&& flags.toUInt8 != 0

def setFlags (id : BlockId) (flags : UInt32) : BlockId :=
  { id with flags := id.flags ||| flags.toUInt8 }

def resetFlags (id : BlockId) (flags : UInt32) : BlockId :=
  { id with flags := id.flags &&& ~~~flags.toUInt8 }

def isAlive (id : BlockId) : Bool :=
  id.isFlagSet HeapBlock.alive

def isEvent (id : BlockId) : Bool :=
  id.isFlagSet HeapBlock.event

def markAlive (id : BlockId) : BlockId :=
  id.setFlags HeapBlock.alive

def markDead (id : BlockId) : BlockId :=
  id.resetFlags HeapBlock.alive

def isFree (id : BlockId) : Bool :=
  id.dataType == .freeBlock

section

variable (id : BlockId)

include id

@[simp]
theorem markAlive_size : id.markAlive.size = id.size := rfl

@[simp]
theorem markDead_size : id.markDead.size = id.size := rfl

@[simp]
theorem markAlive_dataType : id.markAlive.dataType = id.dataType := rfl

@[simp]
theorem markDead_dataType : id.markDead.dataType = id.dataType := rfl

@[simp]
theorem markAlive_isFree : id.markAlive.isFree = id.isFree := rfl

@[simp]
theorem markDead_isFree : id.markDead.isFree = id.isFree := rfl

@[simp]
theorem isAlive_markAlive : id.markAlive.isAlive = true := by
  have hmask (flags : UInt8) : (flags ||| 1) &&& 1 ≠ 0 := by
    intro hzero
    have hbit : ((flags ||| 1) &&& 1).toBitVec.getLsbD 0 = false := by rw [hzero]; rfl
    simp at hbit
  simpa [isAlive, markAlive, isFlagSet, setFlags, HeapBlock.alive] using hmask id.flags

@[simp]
theorem isAlive_markDead : id.markDead.isAlive = false := by
  have hmask (flags : UInt8) : flags &&& ~~~1 &&& 1 = 0 := by
    rw [UInt8.and_assoc]
    exact UInt8.and_zero
  simpa [isAlive, markDead, isFlagSet, resetFlags, HeapBlock.alive] using hmask id.flags

@[simp]
theorem isEvent_markAlive : id.markAlive.isEvent = id.isEvent := by
  have hbits : ∀ x : BitVec 8, (x ||| 1#8) &&& 4#8 = x &&& 4#8 := by decide +kernel
  have hmask (flags : UInt8) : (flags ||| 1) &&& 4 = flags &&& 4 :=
    UInt8.toBitVec_inj.mp (hbits flags.toBitVec)
  simp [isEvent, markAlive, isFlagSet, setFlags, HeapBlock.alive, HeapBlock.event, hmask]

end

end BlockId

/-- A node of a list: the two ends of `m_freeList` or a block. -/
inductive Node
  | head
  | tail
  | block (address : ℕ)
  deriving DecidableEq, Repr

/-- One heap block of memory, with `m_data` as `nodeLink`. -/
structure Cell where
  id : BlockId
  next : Option Node
  prev : Option Node
  deriving DecidableEq, Repr

def Cell.zero : Cell := ⟨⟨.void, 0, 0⟩, none, none⟩

/-!
## Layouts: what allocation and sweeping mean

A cluster's payload seen as the list of its block headers, in address order.  Allocation replaces
one free block by the allocated block and what is left over; sweeping replaces every maximal run
of dead blocks by one free block and lets the collector's mark lapse on the others.
-/

open Library

def freeId (size : ℕ) : BlockId :=
  rawId .freeBlock HeapBlock.pinned size

/-- What a block taken from the free block `free` leaves of it, in address order. -/
def carve (dataType : DataType) (flags : UInt32) (length : ℕ) (free : BlockId) : List BlockId :=
  let taken := rawId dataType flags length
  if free.size = length then [taken]
  else if flags &&& HeapBlock.event ≠ 0 then [freeId (free.size - length), taken]
  else [taken, freeId (free.size - length)]

def carveOffset (flags : UInt32) (length : ℕ) (free : BlockId) : ℕ :=
  if flags &&& HeapBlock.event ≠ 0 then free.size - length else 0

/-- A surviving block after the sweep: only event blocks stay marked. -/
def settle (block : BlockId) : BlockId :=
  if block.isEvent = false then block.markDead else block

/-- The free block for a run of `pending` dead units, if there is any. -/
def flush : ℕ → List BlockId
  | 0 => []
  | pending + 1 => [freeId (pending + 1)]

/-- Sweep, with `pending` dead units seen since the last surviving block. -/
def sweepFrom (pending : ℕ) : List BlockId → List BlockId
  | [] => flush pending
  | block :: rest =>
    if block.isAlive then flush pending ++ settle block :: sweepFrom 0 rest
    else sweepFrom (pending + block.size) rest

/-- Replace every maximal run of dead blocks by one free block. -/
def sweep (layout : List BlockId) : List BlockId :=
  sweepFrom 0 layout

@[simp]
theorem freeId_isFree (size : ℕ) : (freeId size).isFree = true := rfl

@[simp]
theorem freeId_isAlive (size : ℕ) : (freeId size).isAlive = false := by
  have hflags : HeapBlock.pinned.toUInt8 &&& HeapBlock.alive.toUInt8 = 0 := by decide
  simp [freeId, rawId, BlockId.isAlive, BlockId.isFlagSet, hflags]

theorem freeId_size {size : ℕ} (h : size ≤ 65535) : (freeId size).size = size := by
  simp only [freeId, rawId]
  omega

@[simp]
theorem settle_size (block : BlockId) : (settle block).size = block.size := by
  unfold settle
  split <;> simp

@[simp]
theorem settle_isFree (block : BlockId) : (settle block).isFree = block.isFree := by
  unfold settle
  split <;> simp

variable {dataType : DataType} {flags : UInt32} {length : ℕ}

theorem rawId_isFree
    (h : dataType ≠ .freeBlock) : (rawId dataType flags length).isFree = false := by
  simpa [rawId, BlockId.isFree] using h

theorem rawId_size (h : length ≤ 65535) : (rawId dataType flags length).size = length := by
  simp only [rawId]
  omega

theorem mem_flush {pending : ℕ} {block : BlockId} (h : block ∈ flush pending) :
    1 ≤ pending ∧ block = freeId pending := by
  cases pending with
  | zero => simp [flush] at h
  | succ pending => simpa [flush] using h

/-- Allocation does not change how much memory the layout covers. -/
theorem extent_carve {free : BlockId} (hfit : length ≤ free.size) (hsize : free.size ≤ 65535) :
    extent BlockId.size (carve dataType flags length free) = free.size := by
  have htaken : (rawId dataType flags length).size = length := rawId_size (by omega)
  have hrest : (freeId (free.size - length)).size = free.size - length := freeId_size (by omega)
  unfold carve
  by_cases hwhole : free.size = length
  · simp [hwhole, htaken]
  · by_cases hevent : flags &&& HeapBlock.event ≠ 0
    · simp [hwhole, hevent, htaken, hrest, hfit]
    · simp only [hwhole, hevent, if_false, extent_cons, extent_nil, htaken, hrest]
      omega

section Sweep

variable {layout : List BlockId}

variable {pending : ℕ}

theorem isFree_of_isAlive {block : BlockId} {rest : List BlockId}
    (hfree : ∀ b ∈ block :: rest, b.isFree = true → b.isAlive = false)
    (halive : block.isAlive = true) : block.isFree = false := by
  by_contra hblock
  have hdead := hfree block (by simp) (by simpa using hblock)
  simp [hdead] at halive

section

variable (hfree : ∀ block ∈ layout, block.isFree = true → block.isAlive = false)

include hfree

/-- After a sweep no two free blocks are adjacent. -/
theorem sweepFrom_coalesced :
    (sweepFrom pending layout).IsChain fun a b ↦ ¬ (a.isFree = true ∧ b.isFree = true) := by
  induction layout generalizing pending with
  | nil => cases pending <;> simp [sweepFrom, flush]
  | cons block rest ih =>
    have hrest := fun pending ↦ @ih pending fun b hb ↦ hfree b (by simp [hb])
    unfold sweepFrom
    by_cases halive : block.isAlive
    · have hused : block.isFree = false := isFree_of_isAlive hfree halive
      have htail : (settle block :: sweepFrom 0 rest).IsChain
          fun a b ↦ ¬ (a.isFree = true ∧ b.isFree = true) := by
        rw [List.isChain_cons]
        exact ⟨fun b _ ↦ by simp [hused], hrest 0⟩
      rw [if_pos halive]
      cases pending with
      | zero => exact htail
      | succ pending =>
        rw [flush, List.singleton_append, List.isChain_cons_cons]
        exact ⟨by simp [hused], htail⟩
    · rw [if_neg halive]
      exact hrest _

theorem dead_of_mem_sweepFrom {block : BlockId}
    (h : block ∈ sweepFrom pending layout) (hblock : block.isFree = true) :
    block.isAlive = false := by
  induction layout generalizing pending with
  | nil =>
    obtain ⟨-, rfl⟩ := mem_flush h
    exact freeId_isAlive _
  | cons first rest ih =>
    have hrest := fun pending ↦ @ih pending fun b hb ↦ hfree b (by simp [hb])
    unfold sweepFrom at h
    by_cases halive : first.isAlive
    · rw [if_pos halive, List.mem_append, List.mem_cons] at h
      rcases h with hflush | rfl | h
      · obtain ⟨-, rfl⟩ := mem_flush hflush
        exact freeId_isAlive _
      · have hdead := hfree first (by simp) (by simpa using hblock)
        simp [hdead] at halive
      · exact hrest 0 h
    · rw [if_neg halive] at h
      exact hrest _ h

end

/-- The free memory after a sweep is the memory that was dead before it. -/
theorem covers_sweepFrom {start a : ℕ} (h : pending + extent BlockId.size layout ≤ 65535)
    (hfree : ∀ block ∈ layout, block.isFree = true → block.isAlive = false) :
    Covers BlockId.size (fun b ↦ b.isFree = true) start (sweepFrom pending layout) a ↔
      (start ≤ a ∧ a < start + pending) ∨
        Covers BlockId.size (fun b ↦ b.isAlive = false) (start + pending) layout a := by
  induction layout generalizing pending start with
  | nil =>
    cases pending with
    | zero => simp [sweepFrom, flush, Covers]
    | succ pending =>
      have hsize := @freeId_size (pending + 1) (by simpa using h)
      simp [sweepFrom, flush, Covers, hsize]
  | cons block rest ih =>
    have hrest := fun b hb ↦ hfree b (List.mem_cons_of_mem block hb)
    rw [extent_cons] at h
    unfold sweepFrom
    by_cases halive : block.isAlive
    · have hused : block.isFree = false := isFree_of_isAlive hfree halive
      have htail : Covers BlockId.size (fun b ↦ b.isFree = true) (start + pending)
          (settle block :: sweepFrom 0 rest) a ↔
          Covers BlockId.size (fun b ↦ b.isAlive = false) (start + pending) (block :: rest) a := by
        rw [covers_cons, covers_cons, ih (by omega) hrest]
        simp [hused, halive]
      rw [if_pos halive, ← htail]
      cases pending with
      | zero => simp [flush]
      | succ pending =>
        have hsize := @freeId_size (pending + 1) (by omega)
        rw [flush, List.singleton_append, covers_cons, hsize]
        simp
    · rw [if_neg halive, ih (by omega) hrest, covers_cons, ← Nat.add_assoc, ← or_assoc]
      refine or_congr_left ?_
      simp only [halive, true_and]
      omega

/-- The blocks in use after a sweep are those that were alive, in their places. -/
theorem located_sweepFrom {start : ℕ} (h : pending + extent BlockId.size layout ≤ 65535)
    (hfree : ∀ block ∈ layout, block.isFree = true → block.isAlive = false) :
    (located BlockId.size start (sweepFrom pending layout)).filter (fun p ↦ !p.2.isFree) =
      ((located BlockId.size (start + pending) layout).filter fun p ↦ p.2.isAlive).map
        fun p ↦ (p.1, settle p.2) := by
  induction layout generalizing pending start with
  | nil => cases pending <;> simp [sweepFrom, flush]
  | cons block rest ih =>
    have hrest := fun b hb ↦ hfree b (List.mem_cons_of_mem block hb)
    rw [extent_cons] at h
    unfold sweepFrom
    by_cases halive : block.isAlive
    · have hused : block.isFree = false := isFree_of_isAlive hfree halive
      have htail : (located BlockId.size (start + pending)
          (settle block :: sweepFrom 0 rest)).filter (fun p ↦ !p.2.isFree) =
          ((located BlockId.size (start + pending) (block :: rest)).filter
            fun p ↦ p.2.isAlive).map fun p ↦ (p.1, settle p.2) := by
        simp [hused, halive, @ih 0 _ (by omega) hrest]
      rw [if_pos halive, ← htail]
      cases pending with
      | zero => rfl
      | succ pending =>
        have hsize := @freeId_size (pending + 1) (by omega)
        simp [flush, hsize]
    · rw [if_neg halive, ih (by omega) hrest]
      simp [halive, Nat.add_assoc]

end Sweep

end MicroFramework.Heap
