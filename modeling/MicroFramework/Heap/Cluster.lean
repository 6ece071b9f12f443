import MicroFramework.Heap.Block
import MicroFramework.Library.DoublyLinked

/-!
# Heap clusters

`CLR_RT_HeapCluster`: a payload of blocks and the list that threads its free blocks.  The two ends
of the list share a word, `m_null`: it is the predecessor of the head and the successor of the
tail.  The validation and the debug fill of blocks are compiled out and left out.
-/

namespace MicroFramework.Heap

open Library HeapBlock

/-- `CLR_RT_HeapCluster`, with the memory its payload lies in. -/
structure Cluster where
  memory : ℕ → Cell
  first : Option Node
  null : Option Node
  last : Option Node
  payloadStart : ℕ
  payloadEnd : ℕ

namespace Cluster

def header (c : Cluster) (address : ℕ) : BlockId :=
  (c.memory address).id

def next (c : Cluster) : Node → Option Node
  | .head => c.first
  | .tail => c.null
  | .block address => (c.memory address).next

def prev (c : Cluster) : Node → Option Node
  | .head => c.null
  | .tail => c.last
  | .block address => (c.memory address).prev

/-- `CLR_RT_HeapBlock::DataSize`; the list loops never ask for the size of an end. -/
def dataSize (c : Cluster) : Node → ℕ
  | .block address => (c.header address).size
  | _ => 0

def setNext (c : Cluster) (node : Node) (value : Option Node) : Cluster :=
  match node with
  | .head => { c with first := value }
  | .tail => { c with null := value }
  | .block address =>
    { c with memory := Function.update c.memory address { c.memory address with next := value } }

def setPrev (c : Cluster) (node : Node) (value : Option Node) : Cluster :=
  match node with
  | .head => { c with null := value }
  | .tail => { c with last := value }
  | .block address =>
    { c with memory := Function.update c.memory address { c.memory address with prev := value } }

def setDataId (c : Cluster) (address : ℕ) (id : BlockId) : Cluster :=
  { c with memory := Function.update c.memory address { c.memory address with id := id } }

/-- `CLR_RT_HeapBlock::InitializeToZero`: everything in the block but its header. -/
def initializeToZero (c : Cluster) (address : ℕ) : Cluster :=
  { c with
    memory := fun a ↦
      if a = address then { c.memory address with next := none, prev := none }
      else if address < a ∧ a < address + (c.header address).size then Cell.zero
      else c.memory a }

/-- Enough for every loop: a walk over the payload advances by at least one block a turn. -/
def fuel (c : Cluster) : ℕ :=
  c.payloadEnd - c.payloadStart + 1

/-- The search of `CLR_RT_HeapCluster::ExtractBlocks`: event blocks are taken from the end of the
free list, others from its start. -/
def findFree (c : Cluster) (flags : UInt32) (length : ℕ) : Option (Option Node) :=
  let enough : Node → Bool := fun ptr ↦ c.dataSize ptr ≥ length
  if flags &&& event ≠ 0 then
    c.last.bind fun ptr ↦ search c.prev enough c.fuel ptr
  else
    c.first.bind fun ptr ↦ search c.next enough c.fuel ptr

/-- The cutting and relinking of `CLR_RT_HeapCluster::ExtractBlocks` at the free block `res`. -/
def takeBlocks (c : Cluster) (dataType : DataType) (flags : UInt32) (length res : ℕ) :
    Option (ℕ × Cluster) := do
  let next ← c.next (.block res)
  let prev ← c.prev (.block res)
  let available := (c.header res).size - length
  let (res, c) :=
    if available ≠ 0 then
      let rest := rawId .freeBlock pinned available
      if flags &&& event ≠ 0 then
        (res + available, c.setDataId res rest)
      else
        let ptr := res + length
        let c := c.setDataId ptr rest
        let c := (c.setNext (.block ptr) next).setPrev (.block ptr) prev
        (res, (c.setNext prev (some (.block ptr))).setPrev next (some (.block ptr)))
    else
      (res, (c.setNext prev next).setPrev next prev)
  let c := c.setDataId res (rawId dataType flags length)
  if flags &&& HeapBlock.initializeToZero ≠ 0 then
    some (res, c.initializeToZero res)
  else
    some (res, c)

/-- `CLR_RT_HeapCluster::ExtractBlocks`.  The outer option is `none` where the code would follow
a null pointer or loop on. -/
def extractBlocks (c : Cluster) (dataType : DataType) (flags : UInt32) (length : ℕ) :
    Option (Option ℕ × Cluster) :=
  match c.findFree flags length with
  | none => none
  | some none => some (none, c)
  | some (some (.block res)) =>
    (c.takeBlocks dataType flags length res).map fun taken ↦ (some taken.1, taken.2)
  | some (some _) => none

/-- The inner loop of `CLR_RT_HeapCluster::RecoverFromGC`: the end and the total length of the
run of dead blocks at `next`. -/
def deadRun (c : Cluster) : ℕ → ℕ → ℕ → Option (ℕ × ℕ)
  | 0, _, _ => none
  | fuel + 1, next, lenTot =>
    let len := (c.header next).size
    let next := next + len
    let lenTot := lenTot + len
    if next < c.payloadEnd ∧ (c.header next).isAlive = false then c.deadRun fuel next lenTot
    else some (next, lenTot)

/-- The outer loop of `CLR_RT_HeapCluster::RecoverFromGC`, with the last node linked so far. -/
def sweepLoop : ℕ → Cluster → ℕ → Node → Option (Cluster × Node)
  | 0, _, _, _ => none
  | fuel + 1, c, ptr, last =>
    if ptr < c.payloadEnd then
      if (c.header ptr).isAlive = false then
        match c.deadRun fuel ptr 0 with
        | none => none
        | some (next, lenTot) =>
          let c := c.setDataId ptr (rawId .freeBlock pinned lenTot)
          let c := (c.setNext last (some (.block ptr))).setPrev (.block ptr) (some last)
          sweepLoop fuel c next (.block ptr)
      else
        let c :=
          if (c.header ptr).isEvent = false then c.setDataId ptr (c.header ptr).markDead else c
        sweepLoop fuel c (ptr + (c.header ptr).size) last
    else
      some (c, last)

def recoverFromGC (c : Cluster) : Option Cluster :=
  -- opening the list clears `m_null` through the head, closing it does so through the tail
  let c := c.setPrev .head none
  match sweepLoop (c.fuel + 1) c c.payloadStart .head with
  | none => none
  | some (c, last) =>
    let c := c.setNext last (some .tail)
    let c := c.setPrev .tail (some last)
    some (c.setNext .tail none)

/-- The cluster as `CLR_RT_HeapCluster::HeapCluster_Initialize` prepares it when there is nothing
to salvage: an empty list, and every block of the payload a free block of its own. -/
def prepared (c : Cluster) : Cluster where
  memory := fun a ↦
    if c.payloadStart ≤ a ∧ a < c.payloadEnd then
      { c.memory a with id := rawId .freeBlock 0 1 }
    else c.memory a
  first := some .tail
  null := none
  last := some .head
  payloadStart := c.payloadStart
  payloadEnd := c.payloadEnd

def heapClusterInitialize (c : Cluster) : Option Cluster :=
  c.prepared.recoverFromGC

/-- Walking the headers from the start of the payload arrives at `address`. -/
def IsBlock (c : Cluster) (address : ℕ) : Prop :=
  address < c.payloadEnd ∧ ∃ blocks, Tiles BlockId.size c.header c.payloadStart blocks address

/-- `MarkAlive` and `MarkDead` on the block at an address. -/
def setAlive (c : Cluster) (address : ℕ) (alive : Bool) : Cluster :=
  c.setDataId address (if alive then (c.header address).markAlive else (c.header address).markDead)

section Access

variable (c : Cluster) (node other : Node) (value : Option Node) (address a : ℕ) (id : BlockId)

@[simp]
theorem header_setNext : (c.setNext node value).header = c.header := by
  funext a
  cases node with
  | block address =>
    by_cases h : a = address
    · subst h
      simp [setNext, header]
    · simp [setNext, header, h]
  | _ => rfl

@[simp]
theorem header_setPrev : (c.setPrev node value).header = c.header := by
  funext a
  cases node with
  | block address =>
    by_cases h : a = address
    · subst h
      simp [setPrev, header]
    · simp [setPrev, header, h]
  | _ => rfl

@[simp]
theorem header_setDataId : (c.setDataId address id).header = Function.update c.header address id := by
  funext a
  by_cases h : a = address
  · subst h
    simp [setDataId, header]
  · simp [setDataId, header, h]

@[simp]
theorem next_setDataId : (c.setDataId address id).next = c.next := by
  funext node
  cases node with
  | block a =>
    by_cases h : a = address
    · subst h
      simp [setDataId, next]
    · simp [setDataId, next, h]
  | _ => rfl

@[simp]
theorem prev_setDataId : (c.setDataId address id).prev = c.prev := by
  funext node
  cases node with
  | block a =>
    by_cases h : a = address
    · subst h
      simp [setDataId, prev]
    · simp [setDataId, prev, h]
  | _ => rfl

theorem next_setNext :
    (c.setNext node value).next other = if other = node then value else c.next other := by
  cases node with
  | block address =>
    cases other with
    | block a =>
      by_cases h : a = address
      · subst h
        simp [setNext, next]
      · simp [setNext, next, h]
    | _ => simp [setNext, next]
  | _ => cases other <;> simp [setNext, next]

theorem prev_setPrev :
    (c.setPrev node value).prev other = if other = node then value else c.prev other := by
  cases node with
  | block address =>
    cases other with
    | block a =>
      by_cases h : a = address
      · subst h
        simp [setPrev, prev]
      · simp [setPrev, prev, h]
    | _ => simp [setPrev, prev]
  | _ => cases other <;> simp [setPrev, prev]

/-- Only writing the successor of the tail reaches a predecessor: that of the head. -/
theorem prev_setNext (h : node ≠ .tail) : (c.setNext node value).prev = c.prev := by
  funext other
  cases node with
  | block address =>
    cases other with
    | block a =>
      by_cases ha : a = address
      · subst ha
        simp [setNext, prev]
      · simp [setNext, prev, ha]
    | _ => rfl
  | head => cases other <;> rfl
  | tail => exact absurd rfl h

theorem next_setPrev (h : node ≠ .head) : (c.setPrev node value).next = c.next := by
  funext other
  cases node with
  | block address =>
    cases other with
    | block a =>
      by_cases ha : a = address
      · subst ha
        simp [setPrev, next]
      · simp [setPrev, next, ha]
    | _ => rfl
  | tail => cases other <;> rfl
  | head => exact absurd rfl h

theorem setDataId_header : c.setDataId address (c.header address) = c := by simp [setDataId, header]

theorem setNext_tail_none {c : Cluster} (h : c.null = none) : c.setNext .tail none = c := by
  cases c
  simp_all [setNext]

@[simp]
theorem payloadStart_setNext : (c.setNext node value).payloadStart = c.payloadStart := by
  cases node <;> rfl

@[simp]
theorem payloadEnd_setNext : (c.setNext node value).payloadEnd = c.payloadEnd := by
  cases node <;> rfl

@[simp]
theorem payloadStart_setPrev : (c.setPrev node value).payloadStart = c.payloadStart := by
  cases node <;> rfl

@[simp]
theorem payloadEnd_setPrev : (c.setPrev node value).payloadEnd = c.payloadEnd := by
  cases node <;> rfl

@[simp]
theorem payloadStart_setDataId : (c.setDataId address id).payloadStart = c.payloadStart := rfl

@[simp]
theorem payloadEnd_setDataId : (c.setDataId address id).payloadEnd = c.payloadEnd := rfl

/-- Zeroing a block keeps its own header and everything outside the block. -/
theorem memory_initializeToZero (h : a < address ∨ address + (c.header address).size ≤ a) :
    (c.initializeToZero address).memory a = if a = address then
      { c.memory address with next := none, prev := none } else c.memory a := by
  unfold initializeToZero
  by_cases ha : a = address
  · simp [ha]
  · have hout : ¬ (address < a ∧ a < address + (c.header address).size) := by omega
    simp [ha, hout]

@[simp]
theorem header_initializeToZero_self :
    (c.initializeToZero address).header address = c.header address := by
  simp [initializeToZero, header]

end Access

end Cluster

/-!
## Blocks from the clusters of a heap

`CLR_RT_ExecutionEngine::ExtractHeapBlocks`: the cluster that served last is asked first, then all
of them in order, and after a garbage collection once more.  The collector is a parameter.
-/

def HeapBlock.specialGCAllocation : UInt32 := 0x00400
def HeapBlock.noGcOnFailure : UInt32 := 0x00200
def HeapBlock.noGcOnFailedAllocation : UInt32 :=
  specialGCAllocation ||| noGcOnFailure

/-- What the execution engine knows of a heap: its clusters, by position the one that served last,
and whether a collection is going on. -/
structure ClusterHeap where
  clusters : List Cluster
  lastHcUsed : Option ℕ
  underGC : Bool

namespace ClusterHeap

/-- A position in the list of clusters and an address in that cluster. -/
structure BlockAt where
  cluster : ℕ
  address : ℕ
  deriving DecidableEq

def header (heap : ClusterHeap) (block : BlockAt) : Option BlockId :=
  heap.clusters[block.cluster]?.map fun c ↦ c.header block.address

/-- The clusters at these positions are asked one after the other. -/
def tryClusters (dataType : DataType) (flags : UInt32) (length : ℕ) :
    ClusterHeap → List ℕ → Option (Option BlockAt × ClusterHeap)
  | heap, [] => some (none, heap)
  | heap, i :: rest => do
    let c ← heap.clusters[i]?
    let (taken, c') ← c.extractBlocks dataType flags length
    let heap' := { heap with clusters := heap.clusters.set i c' }
    match taken with
    | some address => some (some ⟨i, address⟩, heap')
    | none => tryClusters dataType flags length heap' rest

def extractPhase (heap : ClusterHeap) (dataType : DataType) (flags : UInt32) (length : ℕ) :
    Option (Option BlockAt × ClusterHeap) := do
  let all := List.range heap.clusters.length
  if flags &&& HeapBlock.event ≠ 0 then
    let (taken, heap) ← tryClusters dataType flags length heap all.reverse
    match taken with
    | some block => return (some block, heap)
    | none => return (none, { heap with lastHcUsed := none })
  else
    let (taken, heap) ← tryClusters dataType flags length heap heap.lastHcUsed.toList
    match taken with
    | some block => return (some block, heap)
    | none =>
      let (taken, heap) ← tryClusters dataType flags length heap all
      return (taken, { heap with lastHcUsed := taken.map BlockAt.cluster })

def extractHeapBlocks (performGarbageCollection : ClusterHeap → ClusterHeap) (heap : ClusterHeap)
    (dataType : DataType) (flags : UInt32) (length : ℕ) :
    Option (Option BlockAt × ClusterHeap) := do
  if heap.underGC && flags &&& HeapBlock.specialGCAllocation == 0 then
    return (none, heap)
  let (taken, heap) ← heap.extractPhase dataType flags length
  match taken with
  | some block => return (some block, heap)
  | none =>
    if flags &&& HeapBlock.noGcOnFailedAllocation ≠ 0 then
      return (none, heap)
    else
      (performGarbageCollection heap).extractPhase dataType flags length

section Spec

variable {heap heap' : ClusterHeap} {dataType : DataType} {flags : UInt32} {length : ℕ}
  {block : BlockAt} {positions : List ℕ}

theorem header_takeBlocks {c c' : Cluster} {res address : ℕ}
    (h : c.takeBlocks dataType flags length res = some (address, c')) :
    c'.header address = rawId dataType flags length := by
  unfold Cluster.takeBlocks at h
  simp only [Option.bind_eq_bind, Option.bind_eq_some_iff] at h
  obtain ⟨next, -, prev, -, h⟩ := h
  split at h <;>
  · obtain ⟨rfl, rfl⟩ := Prod.mk.inj (Option.some.inj h)
    simp [Cluster.header, Cluster.initializeToZero, Cluster.setDataId]

theorem header_extractBlocks {c c' : Cluster} {address : ℕ}
    (h : c.extractBlocks dataType flags length = some (some address, c')) :
    c'.header address = rawId dataType flags length := by
  unfold Cluster.extractBlocks at h
  split at h
  · cases h
  · cases h
  · obtain ⟨⟨res, c''⟩, htake, heq⟩ := Option.map_eq_some_iff.mp h
    cases heq
    exact header_takeBlocks htake
  · cases h

/-- The block that a cluster gives has the header that was asked for. -/
theorem header_tryClusters
    (h : tryClusters dataType flags length heap positions = some (some block, heap')) :
    heap'.header block = some (rawId dataType flags length) := by
  induction positions generalizing heap with
  | nil => simp [tryClusters] at h
  | cons i rest ih =>
    simp only [tryClusters, Option.bind_eq_bind, Option.bind_eq_some_iff] at h
    obtain ⟨c, hc, ⟨taken, c'⟩, hextract, h⟩ := h
    cases taken with
    | none => exact ih h
    | some address =>
      cases h
      have hlt : i < heap.clusters.length := (List.getElem?_eq_some_iff.mp hc).1
      simp [header, hlt, header_extractBlocks hextract]

theorem header_extractPhase
    (h : heap.extractPhase dataType flags length = some (some block, heap')) :
    heap'.header block = some (rawId dataType flags length) := by
  unfold extractPhase at h
  split at h
  · simp only [Option.bind_eq_bind, Option.bind_eq_some_iff] at h
    obtain ⟨⟨taken, heap₁⟩, htry, h⟩ := h
    cases taken with
    | none => cases h
    | some block =>
      cases h
      exact header_tryClusters htry
  · simp only [Option.bind_eq_bind, Option.bind_eq_some_iff] at h
    obtain ⟨⟨taken, heap₁⟩, htry, h⟩ := h
    cases taken with
    | some block =>
      cases h
      exact header_tryClusters htry
    | none =>
      obtain ⟨⟨taken, heap₂⟩, htry, h⟩ := Option.bind_eq_some_iff.mp h
      cases taken with
      | none => cases h
      | some block =>
        cases h
        exact @header_tryClusters _ heap₂ _ _ _ _ _ htry

theorem header_extractHeapBlocks {performGarbageCollection : ClusterHeap → ClusterHeap}
    (h : extractHeapBlocks performGarbageCollection heap dataType flags length =
      some (some block, heap')) :
    heap'.header block = some (rawId dataType flags length) := by
  unfold extractHeapBlocks at h
  split at h
  · cases h
  · obtain ⟨⟨taken, heap₁⟩, hphase, h⟩ := Option.bind_eq_some_iff.mp h
    cases taken with
    | some block =>
      cases h
      exact header_extractPhase hphase
    | none =>
      split_ifs at h
      · cases h
      · exact header_extractPhase h

end Spec

end ClusterHeap

end MicroFramework.Heap
