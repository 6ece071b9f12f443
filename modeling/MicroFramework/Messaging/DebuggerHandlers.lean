import MicroFramework.WireProtocol.Packet

/-!
# The handlers of the debugger

Where the debugger shares the port of the messaging, `Initialize` is given its handlers as second
tables.  A handler casts the payload to the structure of its command and reads fields of it without a
look at the size of the packet: which fields, depends on what it has read and on what it finds in the
rest of the runtime.
-/

namespace MicroFramework.Messaging

open Support WireProtocol

/-! ## Memory -/

def wordAt (bytes : List UInt8) (offset : ℕ) : UInt32 :=
  UInt32.ofNat (leValue ((bytes.drop offset).take 4))

/-- `CLR_RT_Memory::Allocate`: the room in the block, when the heap has a run of the blocks that
the request is rounded up to.  The sums are taken in 32 bits. -/
def allocate (heap : UInt32 → Bool) (length : UInt32) : Option ℕ :=
  let totLength := 16 + length
  let blocks := (totLength + 11) / 12
  if 0xFFFF < blocks then none
  else if heap blocks then some (blocks.toNat * 12 - 16)
  else none

/-- What a handler of the debugger finds in the rest of the runtime: the answers to its questions in
their order, how many bytes an access to memory takes from the payload before it ends, the reply that
is sent and what the handler returns. -/
structure Answers where
  yes : ℕ → Bool
  taken : ℕ
  reply : Option (Bool × List UInt8)
  result : Bool

/-- What the code meets around it: the heap, when `App_ProcessHeader` and when a handler asks it,
whether there is room for a cached copy, whether the port takes what is written to it, what the
debugger finds, and the memory behind the payload, or at address zero when there is none. -/
structure Surroundings where
  headerHeap : UInt32 → Bool
  heap : UInt32 → Bool
  cacheRoom : Bool
  written : Bool
  answers : Answers
  beyond : ℕ → UInt8

def peek (env : Surroundings) (payload : Option (List UInt8)) (offset n : ℕ) : List UInt8 :=
  (List.range n).map fun i ↦ ((payload.getD [])[offset + i]?).getD (env.beyond (offset + i))

/-! ## The handlers -/

inductive DebuggerHandler
  | monitorPing | monitorReadMemory | monitorWriteMemory | monitorCheckMemory | monitorEraseMemory
  | monitorExecute | monitorReboot | monitorMemoryMap | monitorFlashSectorMap | monitorDeploymentMap
  | executionQueryCLRCapabilities | executionBasePtr | executionChangeConditions
  | executionAllocate | executionSetCurrentAppDomain | executionBreakpoints
  | executionBreakpointStatus
  | threadCreateEx | threadList | threadStack | threadKill | threadSuspend | threadResume
  | threadGetException | threadUnwind | threadGet
  | stackInfo | stackSetIP
  | valueResizeScratchPad | valueGetStack | valueGetField | valueGetArray | valueGetBlock
  | valueGetScratchPad | valueSetBlock | valueSetArray | valueAllocateObject | valueAllocateString
  | valueAllocateArray | valueAssign
  | typeSysAssemblies | typeSysAppDomains
  | resolveAppDomain | resolveAssembly | resolveType | resolveField | resolveMethod
  | resolveVirtualMethod
  | deploymentStatus | infoSetJMC | profilingCommand
  deriving DecidableEq

namespace DebuggerHandler

def sizeofBreakpointDef : UInt32 := 36

/-- The fields that a handler reads, as offset and number of bytes. -/
def reads (env : Surroundings) (msg : Packet) (payload : Option (List UInt8)) :
    DebuggerHandler → List (ℕ × ℕ)
  | monitorPing => if payload.isNone then [] else [(4, 4)]
  | monitorReadMemory =>
    -- m_length is read before the deployment device is looked for
    (4, 4) :: if env.answers.yes 0 then [(0, 4)] else []
  | monitorWriteMemory =>
    let length := wordAt (peek env payload 4 4) 0
    if env.answers.yes 0 then [(0, 4), (4, 4), (8, min env.answers.taken length.toNat)] else []
  | monitorEraseMemory => if env.answers.yes 0 then [(0, 4), (4, 4)] else []
  | monitorReboot =>
    -- a release build answers nobody on a socket
    if payload.isNone || env.answers.yes 0 then [] else [(0, 4)]
  | executionBreakpoints =>
    let num := (msg.size - 4) / sizeofBreakpointDef
    let len := num * sizeofBreakpointDef
    if num ≠ 0 ∧ (allocate env.heap len).isSome then [(4, len.toNat)] else []
  | executionSetCurrentAppDomain | resolveAppDomain =>
    -- only a build with application domains reads it
    if env.answers.yes 0 then [(0, 4)] else []
  | threadCreateEx => (8, 4) :: (0, 4) :: if env.answers.yes 0 then [(4, 4)] else []
  | stackSetIP => (0, 4) :: (4, 4) :: if env.answers.yes 0 then [(8, 4), (12, 4)] else []
  | valueGetStack =>
    let kind := wordAt (peek env payload 8 4) 0
    (0, 4) :: (4, 4) ::
      if env.answers.yes 0 then (8, 4) :: if kind ≤ 2 then [(12, 4)] else [] else []
  | valueGetField =>
    let blk := wordAt (peek env payload 0 4) 0
    let offset := wordAt (peek env payload 4 4) 0
    (0, 4) :: (if blk = 0 then [] else [(4, 4)]) ++
      if blk ≠ 0 ∧ offset ≠ 0 ∧ env.answers.yes 0 = false then [] else [(8, 4)]
  | valueSetBlock =>
    let blk := wordAt (peek env payload 0 4) 0
    (0, 4) :: (4, 4) :: if blk = 0 then [] else [(8, 8)]
  | valueSetArray =>
    let array := wordAt (peek env payload 0 4) 0
    (0, 4) :: if array ≠ 0 ∧ env.answers.yes 0 then
      (4, 4) :: if env.answers.yes 1 then [(8, 8)] else [] else []
  | valueAllocateObject | valueAllocateString =>
    (0, 4) :: if env.answers.yes 0 then [(4, 4)] else []
  | valueAllocateArray => (0, 4) :: if env.answers.yes 0 then [(8, 4), (4, 4), (12, 4)] else []
  | resolveVirtualMethod => (4, 4) :: if env.answers.yes 0 then [(0, 4)] else []
  | infoSetJMC =>
    let kind := wordAt (peek env payload 4 4) 0
    (0, 4) :: (4, 4) :: if kind = 1 ∨ kind = 2 ∨ kind = 5 then [(8, 4)] else []
  | profilingCommand =>
    -- the fields of Profiling_ChangeConditions follow the byte of the command
    (0, 1) :: if peek env payload 0 1 = [1] then [(1, 4), (5, 4)] else []
  | monitorCheckMemory | executionChangeConditions | threadUnwind | stackInfo | valueGetArray
  | valueAssign => [(0, 4), (4, 4)]
  | monitorExecute | executionQueryCLRCapabilities | executionAllocate | threadStack | threadKill
  | threadSuspend | threadResume | threadGetException | threadGet | valueResizeScratchPad
  | valueGetBlock | valueGetScratchPad | resolveAssembly | resolveType | resolveField
  | resolveMethod => [(0, 4)]
  | monitorMemoryMap | monitorFlashSectorMap | monitorDeploymentMap | executionBasePtr
  | executionBreakpointStatus | threadList | typeSysAssemblies | typeSysAppDomains
  | deploymentStatus => []

/-- The end of the last field that a handler reads. -/
def extent (env : Surroundings) (msg : Packet) (payload : Option (List UInt8))
    (handler : DebuggerHandler) : ℕ :=
  ((handler.reads env msg payload).map fun read ↦ read.1 + read.2).foldr max 0

theorem extent_le_iff {env : Surroundings} {msg : Packet} {payload : Option (List UInt8)}
    {handler : DebuggerHandler} {n : ℕ} :
    handler.extent env msg payload ≤ n ↔
      ∀ read ∈ handler.reads env msg payload, read.1 + read.2 ≤ n := by
  unfold extent
  induction handler.reads env msg payload with
  | nil => simp
  | cons read reads ih =>
    rw [List.map_cons, List.foldr_cons, max_le_iff, ih, List.forall_mem_cons]

end DebuggerHandler

/-- `c_Debugger_Lookup_Request` of the full build with source level debugging and profiling; the
smaller builds have some of its entries. -/
def debuggerLookupRequest : List (DebuggerHandler × UInt32) :=
  [(.executionQueryCLRCapabilities, 0x00020008), (.monitorPing, 0x00000000),
    (.monitorReadMemory, 0x00000002), (.monitorWriteMemory, 0x00000003),
    (.monitorCheckMemory, 0x00000004), (.monitorEraseMemory, 0x00000005),
    (.monitorExecute, 0x00000006), (.monitorReboot, 0x00000007), (.monitorMemoryMap, 0x00000008),
    (.monitorFlashSectorMap, 0x0000000C), (.monitorDeploymentMap, 0x0000000B),
    (.executionBasePtr, 0x00020000), (.executionChangeConditions, 0x00020001),
    (.executionAllocate, 0x00020004), (.executionSetCurrentAppDomain, 0x00020009),
    (.executionBreakpoints, 0x00020005), (.executionBreakpointStatus, 0x00020007),
    (.threadCreateEx, 0x00020018), (.threadList, 0x00020011), (.threadStack, 0x00020012),
    (.threadKill, 0x00020013), (.threadSuspend, 0x00020014), (.threadResume, 0x00020015),
    (.threadGetException, 0x00020016), (.threadUnwind, 0x00020017), (.threadGet, 0x00021000),
    (.stackInfo, 0x00020020), (.stackSetIP, 0x00020021), (.valueResizeScratchPad, 0x00020030),
    (.valueGetStack, 0x00020031), (.valueGetField, 0x00020032), (.valueGetArray, 0x00020033),
    (.valueGetBlock, 0x00020034), (.valueGetScratchPad, 0x00020035), (.valueSetBlock, 0x00020036),
    (.valueSetArray, 0x00020037), (.valueAllocateObject, 0x00020038),
    (.valueAllocateString, 0x00020039), (.valueAllocateArray, 0x0002003A),
    (.valueAssign, 0x0002003B), (.typeSysAssemblies, 0x00020040), (.typeSysAppDomains, 0x00020044),
    (.resolveAppDomain, 0x00020055), (.resolveAssembly, 0x00020050), (.resolveType, 0x00020051),
    (.resolveField, 0x00020052), (.resolveMethod, 0x00020053), (.resolveVirtualMethod, 0x00020054),
    (.deploymentStatus, 0x000200B0), (.infoSetJMC, 0x000200C0), (.profilingCommand, 0x00030000)]

def debuggerLookupReply : List (DebuggerHandler × UInt32) := [(.monitorPing, 0x00000000)]

end MicroFramework.Messaging
