import Mathlib.Data.UInt

/-!
# The sector cache

`FAT_SectorCache`: a number of lines that each hold a run of sectors of the block device.  The
sector that is asked for is looked up in the lines; on a miss it is read into a line without a
buffer or into the one used least recently, which is written back first.  Byte addresses are words
of 32 bits.  A read or a write of the device and an allocation of a buffer can fail; the answer to a
write is not looked at.
-/

namespace MicroFramework.Fat

/-- What `Initialize` sets.  The sectors the cache accepts lie in whole lines that the byte
addresses of the device reach. -/
structure CacheGeometry where
  bytesPerSector : ℕ
  sectorsPerLine : ℕ
  baseByteAddress : ℕ
  sectorCount : ℕ
  bytesPerSector_pos : 0 < bytesPerSector
  sectorsPerLine_pos : 0 < sectorsPerLine
  reached : baseByteAddress + (sectorCount + sectorsPerLine) * bytesPerSector ≤ 2 ^ 32

namespace CacheGeometry

variable (g : CacheGeometry)

def lineSize : ℕ := g.sectorsPerLine * g.bytesPerSector

def address (sector : ℕ) : ℕ := (g.baseByteAddress + sector * g.bytesPerSector) % 2 ^ 32

end CacheGeometry

/-- `FAT_CacheLine`; the two parts of `m_flags` are fields of their own. -/
structure CacheLine where
  buffer : Option (ℕ → UInt8)
  begin : ℕ
  bsByteAddress : ℕ
  dirty : Bool
  lruCounter : UInt32

def lruCounterMask : UInt32 := 0x7FFFFFFF

/-- The cache with `lines` lines and the bytes of the device behind it. -/
structure SectorCache (lines : ℕ) where
  cacheLines : Fin lines → CacheLine
  lruCounter : UInt32
  device : ℕ → UInt8

/-- The answer of the device to a write: where it is refused, these bytes stand in the place of the
line afterwards. -/
inductive WriteAnswer
  | performed
  | refused (left : ℕ → UInt8)

/-- What stands in the place of a line after it is written. -/
def WriteAnswer.bytes (buffer : ℕ → UInt8) : WriteAnswer → ℕ → UInt8
  | .performed => buffer
  | .refused left => left

/-- Whether the next allocation and the next read of the device succeed, and the answer to the next
write. -/
structure Environment where
  malloc : Bool
  read : Bool
  write : WriteAnswer

structure Pointer (lines : ℕ) where
  line : Fin lines
  offset : ℕ

namespace SectorCache

variable {lines : ℕ} (g : CacheGeometry)

/-- `Initialize` -/
def empty (device : ℕ → UInt8) : SectorCache lines where
  cacheLines _ := ⟨none, 0, 0, false, 0⟩
  lruCounter := 1
  device := device

def setLine (s : SectorCache lines) (i : Fin lines) (line : CacheLine) : SectorCache lines :=
  { s with cacheLines := Function.update s.cacheLines i line }

def covers (line : CacheLine) (sectorIndex : ℕ) : Bool :=
  line.buffer.isSome && decide (line.begin ≤ sectorIndex) &&
    decide (sectorIndex < line.begin + g.sectorsPerLine)

def getCacheLine (s : SectorCache lines) (sectorIndex : ℕ) : Option (Fin lines) :=
  (List.finRange lines).find? fun i ↦ covers g (s.cacheLines i) sectorIndex

def flushLine (s : SectorCache lines) (i : Fin lines) (answer : WriteAnswer) : SectorCache lines :=
  let line := s.cacheLines i
  match line.buffer with
  | some buffer =>
    if line.dirty then
      { s.setLine i { line with dirty := false } with
        device := fun a ↦
          if line.bsByteAddress ≤ a ∧ a < line.bsByteAddress + g.lineSize then
            answer.bytes buffer (a - line.bsByteAddress)
          else s.device a }
    else s
  | none => s

/-- The loop of `GetUnusedCacheLine`: a line without a buffer, or the candidate. -/
def unusedLoop (s : SectorCache lines) :
    List (Fin lines) → UInt32 → Option (Fin lines) → Option (Fin lines)
  | [], _, topCandidate => topCandidate
  | i :: rest, minLRUCounter, topCandidate =>
    if (s.cacheLines i).buffer.isNone then some i
    else
      let counter := (s.cacheLines i).lruCounter
      if counter < minLRUCounter then unusedLoop s rest counter (some i)
      else unusedLoop s rest minLRUCounter topCandidate

/-- `GetUnusedCacheLine`, with the line written back.  There is no result where the candidate is
`NULL`. -/
def getUnusedCacheLine (s : SectorCache lines) (answer : WriteAnswer) :
    Option (Fin lines × SectorCache lines) :=
  (unusedLoop s (List.finRange lines) 0x7FFFFFFF none).map fun i ↦ (i, flushLine g s i answer)

def useLine (s : SectorCache lines) (i : Fin lines) (sectorIndex : ℕ) (forWrite : Bool) :
    SectorCache lines × Pointer lines :=
  let line := s.cacheLines i
  let line := if forWrite then { line with dirty := true } else line
  let pointer : Pointer lines := ⟨i, (sectorIndex - line.begin) * g.bytesPerSector⟩
  if line.lruCounter ≠ s.lruCounter then
    let counter := s.lruCounter + 1
    let s := { s with lruCounter := counter }
    (s.setLine i { line with lruCounter := counter &&& lruCounterMask }, pointer)
  else (s.setLine i line, pointer)

/-- `GetSector` on a miss, after a line was found for the sector: the line is filled, or the sector
is not to be had. -/
def fillLine (s : SectorCache lines) (i : Fin lines) (sectorIndex : ℕ) (env : Environment) :
    Bool × SectorCache lines :=
  if (s.cacheLines i).buffer.isNone && !env.malloc then (false, s)
  else
    let begin := sectorIndex - sectorIndex % g.sectorsPerLine
    let address := g.address begin
    let line : CacheLine :=
      { buffer := some fun o ↦ s.device (address + o)
        begin := begin
        bsByteAddress := address
        dirty := false
        lruCounter := 0 }
    if env.read then (true, s.setLine i line)
    else (false, s.setLine i { line with buffer := none })

def getSector (s : SectorCache lines) (sectorIndex : ℕ) (forWrite : Bool) (env : Environment) :
    Option (SectorCache lines × Option (Pointer lines)) :=
  if sectorIndex > g.sectorCount then some (s, none)
  else
    match getCacheLine g s sectorIndex with
    | some i =>
      let used := useLine g s i sectorIndex forWrite
      some (used.1, some used.2)
    | none =>
      match getUnusedCacheLine g s env.write with
      | none => none
      | some (i, s) =>
        let filled := fillLine g s i sectorIndex env
        if filled.1 then
          let used := useLine g filled.2 i sectorIndex forWrite
          some (used.1, some used.2)
        else some (filled.2, none)

def load (s : SectorCache lines) (p : Pointer lines) (o : ℕ) : Option UInt8 :=
  (s.cacheLines p.line).buffer.map fun buffer ↦ buffer (p.offset + o)

/-- Stores into the sector at a pointer: at each distance the byte stored there, if any. -/
def store (s : SectorCache lines) (p : Pointer lines) (stores : ℕ → Option UInt8) :
    SectorCache lines :=
  let line := s.cacheLines p.line
  s.setLine p.line
    { line with
      buffer := line.buffer.map fun buffer a ↦
        if p.offset ≤ a ∧ a < p.offset + g.bytesPerSector then
          (stores (a - p.offset)).getD (buffer a)
        else buffer a }

def flushAll (s : SectorCache lines) (answers : ℕ → WriteAnswer) : SectorCache lines :=
  (List.finRange lines).foldl (fun s i ↦ flushLine g s i (answers i)) s

def flushSector (s : SectorCache lines) (sectorIndex : ℕ) (answer : WriteAnswer) :
    SectorCache lines :=
  match getCacheLine g s sectorIndex with
  | some i => flushLine g s i answer
  | none => s

def markSectorDirty (s : SectorCache lines) (sectorIndex : ℕ) : SectorCache lines :=
  match getCacheLine g s sectorIndex with
  | some i => s.setLine i { s.cacheLines i with dirty := true }
  | none => s

/-! ## Runs -/

/-- A use of the cache.  A sector got for writing is stored to before the next use, and
`EraseSector` stores zeros in the whole of it. -/
inductive Use
  | read (sectorIndex : ℕ) (env : Environment)
  | write (sectorIndex : ℕ) (stores : ℕ → Option UInt8) (env : Environment)
  | erase (sectorIndex : ℕ) (env : Environment)
  | markSectorDirty (sectorIndex : ℕ)
  | flushSector (sectorIndex : ℕ) (answer : WriteAnswer)
  | flushAll (answers : ℕ → WriteAnswer)

abbrev Contents := ℕ → ℕ → UInt8

def Contents.stored (latest : Contents) (sectorIndex : ℕ) (stores : ℕ → Option UInt8) :
    Contents :=
  Function.update latest sectorIndex fun o ↦ (stores o).getD (latest sectorIndex o)

/-- `GetSector` for writing, followed by the stores if there is a buffer to store into. -/
def writeSector (state : SectorCache lines × Contents) (sectorIndex : ℕ)
    (stores : ℕ → Option UInt8) (env : Environment) : Option (SectorCache lines × Contents) :=
  (getSector g state.1 sectorIndex true env).map fun got ↦
    match got.2 with
    | some p => (store g got.1 p stores, state.2.stored sectorIndex stores)
    | none => (got.1, state.2)

/-- One use of the cache, together with what the contents of the sectors should be.  There is no
next state where the code follows a null pointer. -/
def step (state : SectorCache lines × Contents) : Use → Option (SectorCache lines × Contents)
  | .read sectorIndex env =>
    (getSector g state.1 sectorIndex false env).map fun got ↦ (got.1, state.2)
  | .write sectorIndex stores env => writeSector g state sectorIndex stores env
  | .erase sectorIndex env => writeSector g state sectorIndex (fun _ ↦ some 0) env
  | .markSectorDirty sectorIndex => some (markSectorDirty g state.1 sectorIndex, state.2)
  | .flushSector sectorIndex answer => some (flushSector g state.1 sectorIndex answer, state.2)
  | .flushAll answers => some (flushAll g state.1 answers, state.2)

end SectorCache

end MicroFramework.Fat
