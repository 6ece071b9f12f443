import Mathlib.Data.Nat.Bitwise
import MicroFramework.Compression.Code
import MicroFramework.Library.RingBuffer

/-!
# The compressor

`LZ77_Compressor::Execute` looks up the bytes at the current position in the window and writes them
as a match or as a single byte.  It compares while it reads ahead into the window it searches; a
byte read too far is put back with `UnreadChar`, which restores the old byte of the cell from
`oldchars`.

The run is a sequence of states: at the head of the main loop, with the byte just read in `ch`, and
at the head of the search for the best match.  EOF is `none`, and what is written before the
compressor runs, the space for the header, is left out of `m_outfile`.
-/

namespace MicroFramework.Compression

/-- The block of items being written and the output so far. -/
structure Output where
  flagByte : UInt8
  dataBytes : List UInt8
  flagCount : ℕ
  outfile : List UInt8

namespace Output

def writeFlagByte (o : Output) : Output :=
  if 0 < o.flagCount then
    { flagByte := 0
      dataBytes := []
      flagCount := 0
      outfile := o.outfile ++ o.flagByte :: o.dataBytes }
  else o

def checkFlagByte (o : Output) : Output :=
  let o := { o with flagCount := o.flagCount + 1 }
  if o.flagCount = 8 then o.writeFlagByte else o

def saveUncompByte (o : Output) (ch : UInt8) : Output :=
  { o with
    flagByte := o.flagByte ||| UInt8.ofNat (1 <<< o.flagCount)
    dataBytes := o.dataBytes ++ [ch] }.checkFlagByte

/-- Write the two bytes of a match. -/
def saveCode (o : Output) (count offset : ℕ) : Output :=
  let iCompCode := compCode count offset
  { o with
    dataBytes := o.dataBytes ++ [compCodeLoByte iCompCode, compCodeHiByte iCompCode] }.checkFlagByte

end Output

structure Compressor where
  window : ℕ → UInt8
  currPos : ℕ
  infilePos : ℕ
  out : Output

namespace Compressor

def getNextChar (infile : List UInt8) (s : Compressor) : Option UInt8 × Compressor :=
  match infile[s.infilePos]? with
  | some ch =>
    (some ch,
      { s with
        infilePos := s.infilePos + 1
        currPos := addIndex s.currPos
        window := Function.update s.window (addIndex s.currPos) ch })
  | none => (none, s)

def unreadChar (s : Compressor) (ch : UInt8) : Compressor :=
  { s with
    infilePos := s.infilePos - 1
    window := Function.update s.window s.currPos ch
    currPos := dropIndex s.currPos }

/-- The window byte the next read displaces. -/
def nextOld (s : Compressor) : UInt8 :=
  s.window (addIndex s.currPos)

/-- Look backwards for the byte at the current position. -/
def findPrevious (s : Compressor) (count shifter : ℕ) : ℕ × ℕ :=
  if s.window shifter ≠ s.window s.currPos ∧ count < winSize then
    s.findPrevious (count + 1) (dropIndex shifter)
  else (count, shifter)
  termination_by winSize - count

end Compressor

/-- The local variables of the search for the best match. -/
structure Search where
  comp : Compressor
  ch : Option UInt8
  oldchars0 : UInt8
  oldchars1 : UInt8
  oldchars2 : UInt8
  savePos : ℕ
  count : ℕ
  offset : ℕ
  shifter : ℕ
  newPos : ℕ
  bestcount : ℕ
  bestoffset : ℕ

namespace Search

/-- `ch = GetNextChar()`. -/
def readNext (infile : List UInt8) (S : Search) : Search :=
  { S with
    ch := (S.comp.getNextChar infile).1
    comp := (S.comp.getNextChar infile).2 }

/-- `UnreadChar( oldchars[ 2 ] )`. -/
def unread (S : Search) : Search :=
  { S with comp := S.comp.unreadChar S.oldchars2 }

def extendBody (S : Search) : Search :=
  { S with
    count := S.count + 1
    oldchars1 := if S.count + 1 = 2 then S.comp.nextOld else S.oldchars1
    oldchars2 := S.comp.nextOld
    shifter := addIndex S.shifter }

def extendLoop (infile : List UInt8) (S : Search) : Search :=
  let R := S.readNext infile
  if R.ch = some (R.comp.window R.shifter) ∧ S.count < maxLen then
    extendLoop infile R.extendBody
  else R
  termination_by maxLen - S.count
  decreasing_by simp only [extendBody, readNext, maxLen] at *; omega

/-- The first match, the one at `shifter`; `oldchars1` is not read before it is set. -/
def firstMatch (infile : List UInt8) (s : Compressor) (ch : Option UInt8) (shifter : ℕ) : Search :=
  let S : Search :=
    { comp := s
      ch := ch
      oldchars0 := s.nextOld
      oldchars1 := 0
      oldchars2 := s.nextOld
      savePos := s.currPos
      count := 1
      offset := shifter
      shifter := addIndex shifter
      newPos := 0
      bestcount := 0
      bestoffset := 0 }
  let S := S.extendLoop infile
  let S := { S with bestcount := S.count, bestoffset := S.offset }
  let S :=
    if S.ch ≠ none ∧ (S.ch ≠ some (S.comp.window S.shifter) ∨ S.count = maxLen) then S.unread
    else S
  { S with shifter := dropIndex S.offset }

def goesOn (S : Search) : Prop :=
  S.shifter ≠ S.comp.currPos ∧ S.bestcount < maxLen ∧
    ¬ inBetween S.savePos S.comp.currPos S.shifter

instance (S : Search) : Decidable S.goesOn :=
  inferInstanceAs (Decidable (_ ∧ _ ∧ _))

/-- Drop `shifter` to the next byte equal to the one at `savePos`, or to `m_currPos`; within
`winSize` turns it has met one of them. -/
def skip (S : Search) : ℕ → ℕ → ℕ
  | 0, shifter => shifter
  | turns + 1, shifter =>
    if shifter ≠ S.comp.currPos ∧ S.comp.window shifter ≠ S.comp.window S.savePos then
      S.skip turns (dropIndex shifter)
    else shifter

/-- The body of the loop that compares a candidate; it reads on where the best match ends. -/
def compareBody (infile : List UInt8) (S : Search) : Search :=
  let R :=
    if S.bestcount - 1 ≤ S.count then
      { S with
        oldchars1 := if S.count = 1 then S.comp.nextOld else S.oldchars1
        oldchars2 := S.comp.nextOld }.readNext infile
    else S
  { R with
    shifter := addIndex S.shifter
    newPos := addIndex S.newPos
    count := S.count + 1 }

def compareLoop (infile : List UInt8) (S : Search) : Search :=
  if S.ch ≠ none ∧ S.comp.window S.shifter = S.comp.window S.newPos ∧ S.count < maxLen then
    compareLoop infile (S.compareBody infile)
  else S
  termination_by maxLen - S.count
  decreasing_by
    rename_i h
    simp only [compareBody, maxLen] at *
    omega

/-- Put a byte back that was read beyond the matches. -/
def settle (S : Search) : Search :=
  if S.ch ≠ none ∧ (maxLen ≤ S.count ∨
      S.comp.window S.shifter ≠ S.comp.window S.newPos ∧ S.bestcount ≤ S.count) then S.unread
  else S

/-- Keep the better match. -/
def improve (S : Search) : Search :=
  if S.bestcount < S.count then { S with bestcount := S.count, bestoffset := S.offset } else S

def candidate (infile : List UInt8) (S : Search) : Search :=
  let S := { S with count := 0, offset := S.shifter, newPos := S.savePos }.compareLoop infile
  let S := S.settle.improve
  { S with shifter := dropIndex S.offset }

/-- Write a single byte and take back what was read beyond it. -/
def writeByte (S : Search) : Compressor :=
  let s := S.comp
  let s := { s with out := s.out.saveUncompByte (s.window S.savePos) }
  let s := { s with infilePos := s.infilePos - S.bestcount }
  let savePos := addIndex S.savePos
  let s := { s with window := Function.update s.window savePos S.oldchars0 }
  let s := { s with currPos := dropIndex s.currPos }
  if S.bestcount = 2 then
    { s with
      window := Function.update s.window (addIndex savePos) S.oldchars1
      currPos := dropIndex s.currPos }
  else s

def writeMatch (S : Search) : Compressor :=
  let s := S.comp
  let s := { s with out := s.out.saveCode S.bestcount S.bestoffset }
  if S.ch ≠ none then s.unreadChar S.oldchars2 else s

/-- After the search: write the result and read on. -/
def finish (infile : List UInt8) (S : Search) : Option UInt8 × Compressor :=
  let S := if S.ch ≠ none then S.readNext infile else S
  let s := if S.bestcount < 3 then S.writeByte else S.writeMatch
  if S.ch ≠ none ∧ S.bestcount ≤ maxLen then s.getNextChar infile else (S.ch, s)

end Search

/-- Where the compressor is: at the head of the main loop or of the search. -/
inductive Execution
  | reading (ch : Option UInt8) (s : Compressor)
  | searching (S : Search)

namespace Execution

/-- One step of `Execute`; `none` when the main loop is left. -/
def step (infile : List UInt8) : Execution → Option Execution
  | .reading none _ => none
  | .reading (some ch) s =>
    let literal :=
      let r := { s with out := s.out.saveUncompByte ch }.getNextChar infile
      .reading r.1 r.2
    if infile.length - s.infilePos < 2 then some literal
    else
      let r := s.findPrevious 1 (dropIndex s.currPos)
      if r.1 = winSize then some literal
      else some (.searching (.firstMatch infile s (some ch) r.2))
  | .searching S =>
    let finished := .reading (S.finish infile).1 (S.finish infile).2
    if S.goesOn then
      let shifter := S.skip winSize S.shifter
      if shifter = S.comp.currPos then some finished
      else some (.searching ({ S with shifter := shifter }.candidate infile))
    else some finished

/-- `Execute` before the first turn of its main loop. -/
def create (infile : List UInt8) : Execution :=
  let s : Compressor :=
    { window := fun _ ↦ space
      currPos := dropIndex 0
      infilePos := 0
      out := ⟨0, [], 0, []⟩ }
  .reading (s.getNextChar infile).1 (s.getNextChar infile).2

/-- The run after `n` steps, or where it stopped. -/
def after (infile : List UInt8) : ℕ → Execution
  | 0 => create infile
  | n + 1 => ((after infile n).step infile).getD (after infile n)

def comp : Execution → Compressor
  | .reading _ s => s
  | .searching S => S.comp

/-- The output, with the last block. -/
def outfile (e : Execution) : List UInt8 :=
  e.comp.out.writeFlagByte.outfile

end Execution

/-!
## Items

What the compressor writes is a list of items in blocks of eight, and what the decompressor makes
of the blocks is what it makes of the items one by one.  Its output is the compressor's input if
and only if every item is faithful: a byte is the next one, and a match copies the next bytes.
-/

open Library

/-- A single byte, or a match of `count` bytes at a window index. -/
inductive Item
  | byte (ch : UInt8)
  | code (count offset : ℕ)
  deriving DecidableEq, Repr

namespace Item

def isByte : Item → Bool
  | byte _ => true
  | code _ _ => false

/-- How many bytes the item stands for. -/
def length : Item → ℕ
  | byte _ => 1
  | code count _ => count

def bytes : Item → List UInt8
  | byte ch => [ch]
  | code count offset =>
    [compCodeLoByte (compCode count offset), compCodeHiByte (compCode count offset)]

/-- The item can be written. -/
def Fits : Item → Prop
  | byte _ => True
  | code count offset => 3 ≤ count ∧ count ≤ maxLen ∧ offset < winSize

end Item

def span (items : List Item) : ℕ :=
  (items.map Item.length).sum

@[simp]
theorem span_nil : span [] = 0 := rfl

@[simp]
theorem span_cons (i : Item) (items : List Item) : span (i :: items) = i.length + span items := by
  simp [span]

@[simp]
theorem span_append (left right : List Item) : span (left ++ right) = span left + span right := by
  simp [span]

theorem Item.Fits.length_pos {i : Item} (h : i.Fits) : 1 ≤ i.length := by
  cases i with
  | byte ch => exact Nat.le_refl 1
  | code count offset =>
    have hcount : 3 ≤ count := h.1
    show 1 ≤ count
    omega

section Flags

structure Flags (flagByte : UInt8) (items : List Item) : Prop where
  fits : items.length ≤ 8
  bit : ∀ k < 8, bitSet flagByte k = (items[k]?.map Item.isByte).getD false

theorem bitSet_eq_testBit (flagByte : UInt8) (k : ℕ) :
    bitSet flagByte k = flagByte.toNat.testBit k := by
  rw [bitSet, Nat.one_shiftLeft, Nat.and_two_pow]
  cases flagByte.toNat.testBit k with
  | false => simp
  | true =>
    simp only [Bool.toNat_true, Nat.one_mul]
    exact decide_eq_true (Nat.two_pow_pos k)

theorem bitSet_or (flagByte : UInt8) {n : ℕ} (hn : n < 8) (k : ℕ) :
    bitSet (flagByte ||| UInt8.ofNat (1 <<< n)) k = (bitSet flagByte k || k == n) := by
  have hone : (UInt8.ofNat (1 <<< n)).toNat = 2 ^ n := by
    rw [UInt8.toNat_ofNat', Nat.one_shiftLeft, Nat.mod_eq_of_lt]
    exact Nat.pow_lt_pow_right (by decide) hn
  rw [bitSet_eq_testBit, bitSet_eq_testBit, UInt8.toNat_or, hone, Nat.testBit_or,
    Nat.testBit_two_pow, BEq.comm]
  rfl

theorem bitSet_zero (k : ℕ) : bitSet 0 k = false := by simp [bitSet]

theorem Flags.nil : Flags 0 [] := ⟨Nat.zero_le _, fun k _ ↦ bitSet_zero k⟩

variable {flagByte : UInt8} {items : List Item}

theorem Flags.add (h : Flags flagByte items) (hroom : items.length < 8) {flagByte' : UInt8} {i : Item}
    (hbit : ∀ k < 8, bitSet flagByte' k = (bitSet flagByte k || (k == items.length && i.isByte))) :
    Flags flagByte' (items ++ [i]) := by
  refine ⟨?_, fun k hk ↦ ?_⟩
  · rw [List.length_append, List.length_singleton]
    exact hroom
  · rw [hbit k hk, h.bit k hk]
    by_cases hlast : k = items.length
    · subst hlast
      simp
    · by_cases hlt : k < items.length
      · simp [hlast, List.getElem?_append_left hlt]
      · have hout : (items ++ [i])[k]? = none := by
          rw [List.getElem?_eq_none_iff, List.length_append, List.length_singleton]
          omega
        have hnone : items[k]? = none := by
          rw [List.getElem?_eq_none_iff]
          omega
        simp [hlast, hout, hnone]

theorem Flags.byte (h : Flags flagByte items) (hroom : items.length < 8) (ch : UInt8) :
    Flags (flagByte ||| UInt8.ofNat (1 <<< items.length)) (items ++ [.byte ch]) :=
  h.add hroom fun k hk ↦ by rw [bitSet_or flagByte hroom k, Item.isByte, Bool.and_true]

theorem Flags.code (h : Flags flagByte items) (hroom : items.length < 8) (count offset : ℕ) :
    Flags flagByte (items ++ [.code count offset]) :=
  h.add hroom fun k _ ↦ by rw [Item.isByte, Bool.and_false, Bool.or_false]

end Flags

section Writing

def blockBytes (block : UInt8 × List Item) : List UInt8 :=
  block.1 :: block.2.flatMap Item.bytes

/-- The blocks of a finished output: full ones, and one more at the end. -/
structure Blocks (bytes : List UInt8) (items : List Item) (blocks : List (UInt8 × List Item)) :
    Prop where
  items_eq : items = blocks.flatMap Prod.snd
  bytes_eq : bytes = blocks.flatMap blockBytes
  flags : ∀ b ∈ blocks, Flags b.1 b.2
  full : ∀ b ∈ blocks.dropLast, b.2.length = 8

/-- What has been written so far: full blocks, and the items of the block in progress. -/
def Output.Writes (o : Output) (items : List Item) : Prop :=
  ∃ (blocks : List (UInt8 × List Item)) (pending : List Item),
    items = blocks.flatMap Prod.snd ++ pending ∧
    o.outfile = blocks.flatMap blockBytes ∧
    (∀ b ∈ blocks, Flags b.1 b.2 ∧ b.2.length = 8) ∧
    Flags o.flagByte pending ∧ o.flagCount = pending.length ∧ pending.length < 8 ∧
    o.dataBytes = pending.flatMap Item.bytes

variable {o : Output} {items : List Item}

theorem Output.writes_nil : Output.Writes ⟨0, [], 0, []⟩ [] :=
  ⟨[], [], rfl, rfl, by simp, .nil, rfl, by decide, rfl⟩

theorem Output.Writes.check {blocks : List (UInt8 × List Item)} {pending : List Item}
    (hitems : items = blocks.flatMap Prod.snd ++ pending)
    (hout : o.outfile = blocks.flatMap blockBytes)
    (hblocks : ∀ b ∈ blocks, Flags b.1 b.2 ∧ b.2.length = 8) (hflags : Flags o.flagByte pending)
    (hcount : o.flagCount + 1 = pending.length) (hdata : o.dataBytes = pending.flatMap Item.bytes) :
    o.checkFlagByte.Writes items := by
  unfold Output.checkFlagByte
  by_cases hfull : o.flagCount + 1 = 8
  · rw [if_pos hfull, Output.writeFlagByte, if_pos (Nat.succ_pos _)]
    refine ⟨blocks ++ [(o.flagByte, pending)], [], by simp [hitems], ?_, fun b hb ↦ ?_, .nil, rfl,
      by decide, rfl⟩
    · simp [hout, hdata, blockBytes]
    · rcases List.mem_append.mp hb with hb | hb
      · exact hblocks b hb
      · obtain rfl := List.mem_singleton.mp hb
        exact ⟨hflags, by show pending.length = 8; omega⟩
  · rw [if_neg hfull]
    have hfits := hflags.fits
    exact ⟨blocks, pending, hitems, hout, hblocks, hflags, hcount, by omega, hdata⟩

theorem Output.Writes.byte (h : o.Writes items) (ch : UInt8) :
    (o.saveUncompByte ch).Writes (items ++ [.byte ch]) := by
  obtain ⟨blocks, pending, hitems, hout, hblocks, hflags, hcount, hlt, hdata⟩ := h
  have hadded := hflags.byte hlt ch
  rw [← hcount] at hadded
  exact Output.Writes.check (by rw [hitems, List.append_assoc]) hout hblocks
    hadded (by simp [hcount]) (by simp [hdata, Item.bytes])

theorem Output.Writes.code (h : o.Writes items) (count offset : ℕ) :
    (o.saveCode count offset).Writes (items ++ [.code count offset]) := by
  obtain ⟨blocks, pending, hitems, hout, hblocks, hflags, hcount, hlt, hdata⟩ := h
  exact Output.Writes.check (by rw [hitems, List.append_assoc]) hout hblocks
    (hflags.code hlt count offset) (by simp [hcount]) (by simp [hdata, Item.bytes])

/-- The last block is written as it is. -/
theorem Output.Writes.finished (h : o.Writes items) :
    ∃ blocks, Blocks o.writeFlagByte.outfile items blocks := by
  obtain ⟨blocks, pending, hitems, hout, hblocks, hflags, hcount, hlt, hdata⟩ := h
  unfold Output.writeFlagByte
  by_cases hempty : 0 < o.flagCount
  · rw [if_pos hempty]
    refine ⟨blocks ++ [(o.flagByte, pending)], by simp [hitems], by simp [hout, hdata, blockBytes],
      fun b hb ↦ ?_, fun b hb ↦ ?_⟩
    · rcases List.mem_append.mp hb with hb | hb
      · exact (hblocks b hb).1
      · obtain rfl := List.mem_singleton.mp hb
        exact hflags
    · rw [List.dropLast_concat] at hb
      exact (hblocks b hb).2
  · rw [if_neg hempty]
    have hnil : pending = [] := List.length_eq_zero_iff.mp (by omega)
    exact ⟨blocks, by simp [hitems, hnil], hout, fun b hb ↦ (hblocks b hb).1,
      fun b hb ↦ (hblocks b ((List.dropLast_sublist blocks).subset hb)).2⟩

end Writing

end MicroFramework.Compression
