import Mathlib.Data.List.Basic
import Mathlib.Tactic.Ring
import MicroFramework.Graphics.Bitmap

/-!
# Decompressing one-bit bitmaps

Every byte of a compressed bitmap is a run of equal bits or seven literal bits.  The bits are the
pixels row by row.  Items end anywhere in a word and in a row, so the inner loop writes as many
bits as the item, the word and the row all still have.  A write stores the source of the item in
the whole rest of the word; the pixels behind the item are overwritten by the next one.
-/

namespace MicroFramework.Graphics

open BitmapDescription List Nat

/-! ## The items of the data -/

def compressedRun : UInt8 := 0x80
def compressedRunSet : UInt8 := 0x40
def compressedRunLengthMask : UInt8 := 0x3f
def uncompressedRunLength : ℕ := 7
def compressedRunOffset : ℕ := uncompressedRunLength + 1

/-- The bits that a byte of the data stands for, in the order of the pixels. -/
def itemBits (b : UInt8) : List Bool :=
  if b &&& compressedRun ≠ 0 then
    replicate ((b &&& compressedRunLengthMask).toNat + compressedRunOffset)
      (b &&& compressedRunSet ≠ 0)
  else (List.range uncompressedRunLength).map b.toNat.testBit

/-- The bit sequence that the data stands for. -/
def expand (data : List UInt8) : List Bool :=
  data.flatMap itemBits

/-! ## The loops -/

/-- The local variables of `Decompress` and the words of the bitmap.  The mask is the part of the
current word that is not written yet. -/
structure DecompressState where
  mask : BitVec 32
  cBitsDst : ℕ
  pd : ℕ
  pbyteDst : ℕ
  cBitsScanLine : ℕ
  cLines : ℕ
  dSrc : BitVec 32
  words : List (BitVec 32)

/-- The literal bits, shifted so that the next one of them stands at the next bit of the word. -/
def literalSource (b : UInt8) (cBitsDst cBitsTotal : ℕ) : BitVec 32 :=
  let shift : ℤ := (32 - cBitsDst) - (uncompressedRunLength - cBitsTotal)
  if 0 < shift then BitVec.ofNat 32 b.toNat <<< shift.toNat
  else BitVec.ofNat 32 b.toNat >>> (-shift).toNat

inductive Progress where
  /-- All lines are written; `Decompress` returns. -/
  | finished (words : List (BitVec 32))
  | running (st : DecompressState)

/-- One turn of the inner loop, with `cBitsTotal` bits left in the item.  A word outside the bitmap
is an error.  Shifting the mask by 32 is undefined in the source, but then the word is full and the
mask is set anew. -/
def decompressTurn (bm : BitmapDescription) (fRun : Bool) (b : UInt8) (cBitsTotal : ℕ)
    (st : DecompressState) : Option (Progress × ℕ) :=
  let dSrc := if fRun then st.dSrc else literalSource b st.cBitsDst cBitsTotal
  let cBits := min st.cBitsScanLine (min cBitsTotal st.cBitsDst)
  match st.words[st.pbyteDst]? with
  | none => none
  | some word =>
    let words := st.words.set st.pbyteDst ((word &&& ~~~st.mask) ||| (dSrc &&& st.mask))
    let cBitsTotal := cBitsTotal - cBits
    let cBitsDst := st.cBitsDst - cBits
    let cBitsScanLine := st.cBitsScanLine - cBits
    if cBitsScanLine = 0 then
      if st.cLines - 1 = 0 then some (.finished words, cBitsTotal)
      else
        let pd := st.pd + bm.getWidthInWords
        some (.running
          { mask := BitVec.allOnes 32, cBitsDst := 32, pd := pd, pbyteDst := pd,
            cBitsScanLine := bm.width, cLines := st.cLines - 1, dSrc := dSrc, words := words },
          cBitsTotal)
    else if cBitsDst = 0 then
      some (.running
        { st with
          mask := BitVec.allOnes 32, cBitsDst := 32, pbyteDst := st.pbyteDst + 1,
          cBitsScanLine := cBitsScanLine, dSrc := dSrc, words := words },
        cBitsTotal)
    else
      some (.running
        { st with
          mask := st.mask <<< cBits, cBitsDst := cBitsDst, cBitsScanLine := cBitsScanLine,
          dSrc := dSrc, words := words },
        cBitsTotal)

/-- The inner loop: the first argument bounds the number of turns. -/
def decompressItem (bm : BitmapDescription) (fRun : Bool) (b : UInt8) :
    ℕ → ℕ → DecompressState → Option Progress
  | 0, _, _ => none
  | turns + 1, cBitsTotal, st =>
    if cBitsTotal = 0 then some (.running st)
    else
      match decompressTurn bm fRun b cBitsTotal st with
      | none => none
      | some (.finished words, _) => some (.finished words)
      | some (.running st, cBitsTotal) => decompressItem bm fRun b turns cBitsTotal st

/-- `dSrc` of a run; for literal bits it is set in every turn. -/
def itemSource (fRun : Bool) (b : UInt8) (dSrc : BitVec 32) : BitVec 32 :=
  if fRun then (if b &&& compressedRunSet ≠ 0 then BitVec.allOnes 32 else 0) else dSrc

def itemTotal (fRun : Bool) (b : UInt8) : ℕ :=
  if fRun then (b &&& compressedRunLengthMask).toNat + compressedRunOffset
  else uncompressedRunLength

/-- The outer loop over the bytes of the data; every turn of an inner loop takes a bit. -/
def decompressLoop (bm : BitmapDescription) :
    List UInt8 → DecompressState → Option (List (BitVec 32))
  | [], st => some st.words
  | byte :: data, st =>
    let fRun : Bool := byte &&& compressedRun ≠ 0
    let b := byte &&& ~~~compressedRun
    let dSrc := itemSource fRun b st.dSrc
    match decompressItem bm fRun b (itemTotal fRun b + 1) (itemTotal fRun b)
      { st with dSrc := dSrc } with
    | none => none
    | some (.finished words) => some words
    | some (.running st) => decompressLoop bm data st

def decompress (bm : BitmapDescription) (data : List UInt8) (words : List (BitVec 32)) :
    Option (List (BitVec 32)) :=
  decompressLoop bm data
    { mask := BitVec.allOnes 32, cBitsDst := 32, pd := 0, pbyteDst := 0, cBitsScanLine := bm.width,
      cLines := bm.height, dSrc := 0, words := words }

/-! ## Pixels -/

/-- The word that holds the pixel with this number, counted row by row. -/
def wordOf (bm : BitmapDescription) (p : ℕ) : ℕ :=
  p / bm.width * bm.getWidthInWords + p % bm.width / 32

def pixel (bm : BitmapDescription) (words : List (BitVec 32)) (p : ℕ) : Bool :=
  (words.getD (wordOf bm p) 0).getLsbD (p % bm.width % 32)

/-- The variables when the next pixel is `p`. -/
def stateAt (bm : BitmapDescription) (p : ℕ) (dSrc : BitVec 32) (words : List (BitVec 32)) :
    DecompressState where
  mask := BitVec.allOnes 32 <<< (p % bm.width % 32)
  cBitsDst := 32 - p % bm.width % 32
  pd := p / bm.width * bm.getWidthInWords
  pbyteDst := wordOf bm p
  cBitsScanLine := bm.width - p % bm.width
  cLines := bm.height - p / bm.width
  dSrc := dSrc
  words := words

structure OneBit (bm : BitmapDescription) (words : List (BitVec 32)) : Prop where
  bits : bm.bitsPerPixel = 1
  width_pos : 0 < bm.width
  width_le : bm.width ≤ maxWidth
  height_pos : 0 < bm.height
  length : words.length = bm.getWidthInWords * bm.height

variable {bm : BitmapDescription} {words start : List (BitVec 32)}

theorem words_pos (h : OneBit bm words) {c : ℕ}
    (hc : c < bm.width) : c / 32 < bm.getWidthInWords := by
  rw [getWidthInWords_one h.bits h.width_le]
  omega

variable {p n w i : ℕ}

theorem row_lt (hp : p < bm.width * bm.height) : p / bm.width < bm.height := Nat.div_lt_of_lt_mul hp

variable {q cBitsTotal h : ℕ}

/-- Two pixels in one word are in one row. -/
theorem wordOf_inj (h : OneBit bm words) (heq : wordOf bm q = wordOf bm p) :
    q / bm.width = p / bm.width ∧ q % bm.width / 32 = p % bm.width / 32 := by
  have hp := words_pos h (mod_lt p h.width_pos)
  have hq := words_pos h (mod_lt q h.width_pos)
  have hpos : 0 < bm.getWidthInWords := (zero_le _).trans_lt hp
  have hrow : ∀ r c : ℕ, c < bm.getWidthInWords →
      (r * bm.getWidthInWords + c) / bm.getWidthInWords = r := by
    intro r c hc
    rw [add_comm, add_mul_div_right _ _ hpos, div_eq_of_lt hc, zero_add]
  unfold wordOf at heq
  have hrows : q / bm.width = p / bm.width := by
    rw [← hrow (q / bm.width) _ hq, ← hrow (p / bm.width) _ hp, heq]
  rw [hrows] at heq
  exact ⟨hrows, add_left_cancel heq⟩

theorem wordOf_lt (h : OneBit bm words) (hp : p < bm.width * bm.height) :
    wordOf bm p < words.length := by
  have hcol := words_pos h (mod_lt p h.width_pos)
  calc
    wordOf bm p < p / bm.width * bm.getWidthInWords + bm.getWidthInWords :=
      Nat.add_lt_add_left hcol _
    _ = (p / bm.width + 1) * bm.getWidthInWords := by ring
    _ ≤ bm.height * bm.getWidthInWords := mul_le_mul_right _ (row_lt hp)
    _ = words.length := by rw [h.length, mul_comm]

/-! ## One turn -/

/-- The number of pixels that the next turn writes. -/
def chunk (bm : BitmapDescription) (p cBitsTotal : ℕ) : ℕ :=
  min (bm.width - p % bm.width) (min cBitsTotal (32 - p % bm.width % 32))

theorem chunk_le (bm : BitmapDescription) (p cBitsTotal : ℕ) :
    chunk bm p cBitsTotal ≤ bm.width - p % bm.width ∧ chunk bm p cBitsTotal ≤ cBitsTotal ∧
      chunk bm p cBitsTotal ≤ 32 - p % bm.width % 32 := by
  unfold chunk
  omega

theorem chunk_pos (hwidth : 0 < bm.width) (p : ℕ)
    (ht : 0 < cBitsTotal) : 0 < chunk bm p cBitsTotal := by
  have := mod_lt p hwidth
  unfold chunk
  omega

/-- Inside a row the quotient stays and the remainder advances. -/
theorem div_mod_add (h : p % w + n < w) : (p + n) / w = p / w ∧ (p + n) % w = p % w + n := by
  have hw : 0 < w := (zero_le _).trans_lt h
  have heq : p + n = p % w + n + w * (p / w) := by
    have := div_add_mod p w
    omega
  rw [heq, add_mul_div_left _ _ hw, add_mul_mod_self_left, div_eq_of_lt h,
    mod_eq_of_lt h, zero_add]
  exact ⟨rfl, rfl⟩

/-- At the end of a row the next pixel is the first of the next row. -/
theorem div_mod_end (hw : 0 < w) (h : p % w + n = w) :
    (p + n) / w = p / w + 1 ∧ (p + n) % w = 0 := by
  have heq : p + n = w * (p / w + 1) := by
    have := div_add_mod p w
    rw [mul_add, mul_one]
    omega
  rw [heq, Nat.mul_div_cancel_left _ hw, Nat.mul_mod_right]
  exact ⟨rfl, rfl⟩

theorem end_iff (hw : 0 < w) (hrow : p % w + n = w) : p + n = w * h ↔ p / w + 1 = h := by
  rw [← (div_mod_end hw hrow).1]
  have hmod := (div_mod_end hw hrow).2
  constructor
  · intro heq
    rw [heq, Nat.mul_div_cancel_left _ hw]
  · intro heq
    rw [← heq, Nat.mul_div_cancel' (Nat.dvd_of_mod_eq_zero hmod)]

def turnSource (bm : BitmapDescription) (fRun : Bool) (b : UInt8) (p cBitsTotal : ℕ)
    (dSrc : BitVec 32) : BitVec 32 :=
  if fRun then dSrc else literalSource b (32 - p % bm.width % 32) cBitsTotal

/-- The word after a write: the part under the mask comes from the source. -/
def turnWords (bm : BitmapDescription) (p : ℕ) (src : BitVec 32) (words : List (BitVec 32)) :
    List (BitVec 32) :=
  let mask := BitVec.allOnes 32 <<< (p % bm.width % 32)
  words.set (wordOf bm p) ((words.getD (wordOf bm p) 0 &&& ~~~mask) ||| (src &&& mask))

/-- A turn moves to the pixel behind the chunk, or ends behind the last one. -/
theorem decompressTurn_stateAt
    (h : OneBit bm words) (fRun : Bool) (b : UInt8) (cBitsTotal : ℕ) (dSrc : BitVec 32)
    (hp : p < bm.width * bm.height) :
    decompressTurn bm fRun b cBitsTotal (stateAt bm p dSrc words) =
      let src := turnSource bm fRun b p cBitsTotal dSrc
      let next := p + chunk bm p cBitsTotal
      some (if next = bm.width * bm.height then .finished (turnWords bm p src words)
        else .running (stateAt bm next src (turnWords bm p src words)),
        cBitsTotal - chunk bm p cBitsTotal) := by
  have hword : words[wordOf bm p]? = some (words.getD (wordOf bm p) 0) := by
    rw [getD_eq_getElem?_getD, getElem?_eq_getElem (wordOf_lt h hp), Option.getD_some]
  have hcol := Nat.mod_lt p h.width_pos
  have hrow := row_lt hp
  obtain ⟨hn_row, -, hn_word⟩ := chunk_le bm p cBitsTotal
  have hchunk : min (bm.width - p % bm.width) (min cBitsTotal (32 - p % bm.width % 32)) =
    chunk bm p cBitsTotal := rfl
  unfold decompressTurn
  simp only [stateAt, hword, hchunk]
  by_cases hend : bm.width - p % bm.width - chunk bm p cBitsTotal = 0
  · -- the row is full
    have hsum : p % bm.width + chunk bm p cBitsTotal = bm.width := by omega
    obtain ⟨hdiv, hmod⟩ := div_mod_end h.width_pos hsum
    have hiff := end_iff (h := bm.height) h.width_pos hsum
    rw [if_pos hend]
    by_cases hlast : p / bm.width + 1 = bm.height
    · rw [if_pos (by omega), if_pos (hiff.mpr hlast)]
      rfl
    · rw [if_neg (by omega), if_neg fun heq ↦ hlast (hiff.mp heq)]
      simp only [wordOf, hdiv, hmod, Nat.zero_mod, Nat.zero_div, BitVec.shiftLeft_zero,
        Nat.sub_zero, Nat.sub_sub, Nat.add_zero, Nat.add_mul, Nat.one_mul, turnWords, turnSource]
  · have hsum : p % bm.width + chunk bm p cBitsTotal < bm.width := by omega
    obtain ⟨hdiv, hmod⟩ := div_mod_add hsum
    have hnext : p + chunk bm p cBitsTotal ≠ bm.width * bm.height := by
      intro heq
      rw [heq, Nat.mul_div_cancel_left _ h.width_pos] at hdiv
      omega
    rw [if_neg hend, if_neg hnext]
    by_cases hfull : 32 - p % bm.width % 32 - chunk bm p cBitsTotal = 0
    · -- the word is full
      have hbit : (p % bm.width + chunk bm p cBitsTotal) % 32 = 0 := by omega
      have hcell : (p % bm.width + chunk bm p cBitsTotal) / 32 = p % bm.width / 32 + 1 := by omega
      rw [if_pos hfull]
      simp only [wordOf, hdiv, hmod, hbit, hcell, BitVec.shiftLeft_zero, Nat.sub_zero, Nat.sub_sub,
        Nat.add_assoc, turnWords, turnSource]
    · have hbit : (p % bm.width + chunk bm p cBitsTotal) % 32 =
          p % bm.width % 32 + chunk bm p cBitsTotal := by omega
      have hcell : (p % bm.width + chunk bm p cBitsTotal) / 32 = p % bm.width / 32 := by omega
      rw [if_neg hfull]
      simp only [wordOf, hdiv, hmod, hbit, hcell, BitVec.shiftLeft_add, Nat.sub_sub, turnWords,
        turnSource]

/-! ## What a write does to the pixels -/

theorem getLsbD_merge (old src : BitVec 32) (n : ℕ) (hi : i < 32) :
    ((old &&& ~~~(BitVec.allOnes 32 <<< n)) ||| (src &&& BitVec.allOnes 32 <<< n)).getLsbD i =
      if i < n then old.getLsbD i else src.getLsbD i := by
  have hmask : (BitVec.allOnes 32 <<< n).getLsbD i = !decide (i < n) := by
    simp only [BitVec.getLsbD_shiftLeft, BitVec.getLsbD_allOnes, hi, show i - n < 32 by omega,
      decide_true, Bool.true_and, Bool.and_true]
  rw [BitVec.getLsbD_or, BitVec.getLsbD_and, BitVec.getLsbD_and, BitVec.getLsbD_not, hmask]
  by_cases hin : i < n <;> simp [hi, hin]

theorem pixel_turnWords (h : OneBit bm words) (hp : p < bm.width * bm.height) (src : BitVec 32) (q : ℕ) :
    pixel bm (turnWords bm p src words) q =
      if wordOf bm q = wordOf bm p ∧ p % bm.width % 32 ≤ q % bm.width % 32 then
        src.getLsbD (q % bm.width % 32)
      else pixel bm words q := by
  have hlt := wordOf_lt h hp
  unfold pixel turnWords
  by_cases hq : wordOf bm q = wordOf bm p
  · rw [hq, getD_eq_getElem?_getD, getElem?_set_self hlt, Option.getD_some,
      getLsbD_merge _ _ _ (mod_lt _ (by decide))]
    by_cases hle : p % bm.width % 32 ≤ q % bm.width % 32
    · rw [if_neg (by omega), if_pos ⟨rfl, hle⟩]
    · rw [if_pos (by omega), if_neg fun hand ↦ hle hand.2]
  · rw [if_neg fun hand ↦ hq hand.1, getD_eq_getElem?_getD,
      getElem?_set_ne fun heq ↦ hq heq.symm, ← getD_eq_getElem?_getD]

/-- The first pixels are these bits, and words that hold none of them are as at the start. -/
structure Drawn (bm : BitmapDescription) (start words : List (BitVec 32)) (bits : List Bool) :
    Prop where
  length : words.length = start.length
  pixel : ∀ q bit, bits[q]? = some bit → pixel bm words q = bit
  other : ∀ i, (∀ q < bits.length, wordOf bm q ≠ i) → words[i]? = start[i]?

theorem Drawn.nil (bm : BitmapDescription) (words : List (BitVec 32)) :
    Drawn bm words words [] := by
  refine ⟨rfl, ?_, fun _ _ ↦ rfl⟩
  intro q bit hbit
  cases hbit

variable {bits rest : List Bool}

theorem Drawn.oneBit (hdrawn : Drawn bm start words bits) (h : OneBit bm start) : OneBit bm words :=
  { h with length := hdrawn.length.trans h.length }

/-- The pixels of the chunk stand one behind the other in the word of its first pixel. -/
theorem wordOf_chunk (bm : BitmapDescription) (p cBitsTotal : ℕ) (hi : i < chunk bm p cBitsTotal) :
    wordOf bm (p + i) = wordOf bm p ∧
      (p + i) % bm.width % 32 = p % bm.width % 32 + i := by
  obtain ⟨hrow, -, hword⟩ := chunk_le bm p cBitsTotal
  obtain ⟨hdiv, hmod⟩ := div_mod_add (w := bm.width) (p := p) (n := i) (by omega)
  have hcell : (p % bm.width + i) / 32 = p % bm.width / 32 := by omega
  have hbit : (p % bm.width + i) % 32 = p % bm.width % 32 + i := by omega
  constructor
  · rw [wordOf, hdiv, hmod, hcell, wordOf]
  · rw [hmod, hbit]

/-- A pixel before `p` in the same word is before `p` in that word. -/
theorem bit_lt_of_lt (h : OneBit bm words) (hq : q < p) (hword : wordOf bm q = wordOf bm p) :
    q % bm.width % 32 < p % bm.width % 32 := by
  obtain ⟨hdiv, hcell⟩ := wordOf_inj h hword
  have hp := div_add_mod p bm.width
  have hq' := div_add_mod q bm.width
  rw [hdiv] at hq'
  omega

theorem Drawn.turn (h : OneBit bm start) (hdrawn : Drawn bm start words bits)
    (hp : bits.length < bm.width * bm.height) (hrest : 0 < rest.length) (src : BitVec 32)
    (hsrc : ∀ i < chunk bm bits.length rest.length, ∀ bit, rest[i]? = some bit →
      src.getLsbD (bits.length % bm.width % 32 + i) = bit) :
    Drawn bm start (turnWords bm bits.length src words)
      (bits ++ rest.take (chunk bm bits.length rest.length)) := by
  have hone := hdrawn.oneBit h
  obtain ⟨-, hle, -⟩ := chunk_le bm bits.length rest.length
  constructor
  · rw [turnWords, length_set, hdrawn.length]
  · intro q bit hbit
    rw [pixel_turnWords hone hp]
    rcases lt_or_ge q bits.length with hq | hq
    · -- an old pixel
      rw [getElem?_append_left hq] at hbit
      rw [if_neg fun hand ↦ (bit_lt_of_lt hone hq hand.1).not_ge hand.2]
      exact hdrawn.pixel q bit hbit
    · obtain ⟨i, rfl⟩ := Nat.exists_eq_add_of_le hq
      rw [getElem?_append_right hq, Nat.add_sub_cancel_left, getElem?_take] at hbit
      split at hbit
      · rename_i hi
        obtain ⟨hword, hcol⟩ := wordOf_chunk bm bits.length rest.length hi
        rw [if_pos ⟨hword, by omega⟩, hcol]
        exact hsrc i hi bit hbit
      · cases hbit
  · intro i hi
    rw [length_append, length_take, min_eq_left hle] at hi
    have hpos := chunk_pos h.width_pos bits.length hrest
    have hword : wordOf bm bits.length ≠ i := hi bits.length (by omega)
    rw [turnWords, getElem?_set_ne hword]
    exact hdrawn.other i fun q hq ↦ hi q (by omega)

/-! ## The bits of an item -/

/-- What an item still has to write: a run has its bit in all of the source, and the literal bits
are the last of the seven. -/
def Feeds (fRun : Bool) (b : UInt8) (dSrc : BitVec 32) (rest : List Bool) : Prop :=
  if fRun then ∃ bit : Bool, (dSrc = if bit then BitVec.allOnes 32 else 0) ∧
    ∀ bit' ∈ rest, bit' = bit
  else ∃ done, done + rest.length = uncompressedRunLength ∧
    rest = ((List.range uncompressedRunLength).map b.toNat.testBit).drop done

variable {b : UInt8} {fRun : Bool}

variable {dSrc : BitVec 32}

theorem Feeds.drop {src : BitVec 32} (h : Feeds fRun b dSrc rest) (hsrc : fRun = true → src = dSrc)
    (hn : n ≤ rest.length) : Feeds fRun b src (rest.drop n) := by
  cases fRun with
  | true =>
    obtain ⟨bit, hdSrc, hrest⟩ := h
    rw [hsrc rfl]
    exact ⟨bit, hdSrc, fun bit' hmem ↦ hrest bit' (mem_of_mem_drop hmem)⟩
  | false =>
    obtain ⟨done, hdone, hrest⟩ := h
    refine ⟨done + n, ?_, ?_⟩
    · rw [length_drop]
      omega
    · rw [hrest, drop_drop]

theorem getLsbD_literalSource (b : UInt8) (hn : n < 32)
    (ht : cBitsTotal ≤ uncompressedRunLength) (hi : n + i < 32) :
    (literalSource b (32 - n) cBitsTotal).getLsbD (n + i) =
      b.toNat.testBit (uncompressedRunLength - cBitsTotal + i) := by
  have hb := b.toNat_lt
  have hbit : ∀ j, (BitVec.ofNat 32 b.toNat).getLsbD j = b.toNat.testBit j := by
    intro j
    rw [BitVec.getLsbD_ofNat]
    rcases lt_or_ge j 32 with hj | hj
    · simp [hj]
    · have hlow := Nat.testBit_lt_two_pow (hb.trans_le (Nat.pow_le_pow_right (by decide)
        (show 8 ≤ j by omega)))
      simp [hlow]
  unfold literalSource
  dsimp only
  split
  · rename_i hshift
    rw [BitVec.getLsbD_shiftLeft, hbit]
    unfold uncompressedRunLength at *
    have h1 : ¬ n + i < ((32 : ℤ) - ((32 - n : ℕ) : ℤ) - (((7 : ℕ) : ℤ) - cBitsTotal)).toNat := by
      omega
    have h2 : n + i - ((32 : ℤ) - ((32 - n : ℕ) : ℤ) - (((7 : ℕ) : ℤ) - cBitsTotal)).toNat =
        7 - cBitsTotal + i := by
      omega
    rw [h2, decide_eq_true hi, decide_eq_false h1]
    rfl
  · rename_i hshift
    rw [BitVec.getLsbD_ushiftRight, hbit]
    unfold uncompressedRunLength at *
    congr 1
    omega

/-- The source of a turn holds the bits of the item that come next. -/
theorem Feeds.source (h : Feeds fRun b dSrc rest) (bm : BitmapDescription) (p : ℕ)
    (hi : i < chunk bm p rest.length) {bit : Bool} (hbit : rest[i]? = some bit) :
    (turnSource bm fRun b p rest.length dSrc).getLsbD (p % bm.width % 32 + i) = bit := by
  obtain ⟨-, hle, hword⟩ := chunk_le bm p rest.length
  have hlt : p % bm.width % 32 + i < 32 := by omega
  cases fRun with
  | true =>
    obtain ⟨bit', rfl, hrest⟩ := h
    rw [hrest bit (mem_of_getElem? hbit), turnSource, if_pos rfl]
    cases bit' with
    | true => rw [if_pos rfl, BitVec.getLsbD_allOnes, decide_eq_true hlt]
    | false => exact BitVec.getLsbD_zero
  | false =>
    obtain ⟨done, hdone, hrest⟩ := h
    have hmod := mod_lt (p % bm.width) (show 0 < 32 by decide)
    rw [turnSource, if_neg Bool.false_ne_true, getLsbD_literalSource b hmod (by omega) hlt,
      ← hdone, Nat.add_sub_cancel]
    have hlit : done + i < uncompressedRunLength := by omega
    rw [hrest, getElem?_drop, getElem?_map, getElem?_range hlit,
      Option.map_some] at hbit
    exact Option.some.inj hbit

/-! ## The loops draw the bits -/

/-- The loops stand behind these bits: before the end of the bitmap with the variables for the next
pixel, or behind its last pixel. -/
def Reaches (bm : BitmapDescription) (start : List (BitVec 32)) (bits : List Bool) :
    Progress → Prop
  | .finished words =>
    bm.width * bm.height ≤ bits.length ∧ Drawn bm start words (bits.take (bm.width * bm.height))
  | .running st =>
    bits.length < bm.width * bm.height ∧
      ∃ words, st = stateAt bm bits.length st.dSrc words ∧ Drawn bm start words bits

theorem Reaches.append_finished (h : Reaches bm start bits (.finished words)) (rest : List Bool) :
    Reaches bm start (bits ++ rest) (.finished words) := by
  obtain ⟨hle, hdrawn⟩ := h
  refine ⟨?_, ?_⟩
  · rw [length_append]
    exact le_add_right_of_le hle
  · rw [take_append_of_le_length hle]
    exact hdrawn

theorem col_add_le (hp : p < w * h) (hn : n ≤ w - p % w) : p + n ≤ w * h := by
  have hrow : p / w < h := Nat.div_lt_of_lt_mul hp
  calc
    p + n = w * (p / w) + p % w + n := by rw [div_add_mod]
    _ ≤ w * (p / w) + w := by
      have hw : 0 < w := Nat.pos_of_mul_pos_right ((Nat.zero_le p).trans_lt hp)
      have := mod_lt p hw
      omega
    _ = w * (p / w + 1) := by ring
    _ ≤ w * h := mul_le_mul_left _ hrow

variable {st : DecompressState}

/-- One turn draws the next bits of the item and keeps the others for the next turn. -/
theorem Reaches.turn (h : OneBit bm start)
    (hst : Reaches bm start bits (.running st)) (hfeeds : Feeds fRun b st.dSrc rest)
    (hrest : 0 < rest.length) :
    ∃ progress done, 0 < done ∧ done ≤ rest.length ∧
      decompressTurn bm fRun b rest.length st = some (progress, (rest.drop done).length) ∧
      Reaches bm start (bits ++ rest.take done) progress ∧
      ∀ st', progress = .running st' → Feeds fRun b st'.dSrc (rest.drop done) := by
  obtain ⟨hp, words, hstate, hdrawn⟩ := hst
  obtain ⟨hrow, hle, -⟩ := chunk_le bm bits.length rest.length
  have hlen : (bits ++ rest.take (chunk bm bits.length rest.length)).length =
      bits.length + chunk bm bits.length rest.length := by
    rw [length_append, length_take, min_eq_left hle]
  have hfits := col_add_le hp hrow
  have hdrawn' := hdrawn.turn h hp hrest _ fun i hi bit hbit ↦ hfeeds.source bm bits.length hi hbit
  have hturn := decompressTurn_stateAt (hdrawn.oneBit h) fRun b rest.length st.dSrc hp
  rw [← hstate] at hturn
  dsimp only at hturn
  rw [← length_drop] at hturn
  refine ⟨_, _, chunk_pos h.width_pos _ hrest, hle, hturn, ?_, ?_⟩
  · split
    · rename_i hend
      refine ⟨by omega, ?_⟩
      rw [take_of_length_le (by omega)]
      exact hdrawn'
    · refine ⟨by omega, _, ?_, hdrawn'⟩
      rw [hlen]
      rfl
  · intro st' hrunning
    split at hrunning
    · cases hrunning
    · cases hrunning
      exact hfeeds.drop (fun hrun ↦ by rw [stateAt, turnSource, if_pos hrun]) hle

theorem Reaches.item (h : OneBit bm start) :
    ∀ (turns : ℕ) {bits rest : List Bool} {st : DecompressState},
      Reaches bm start bits (.running st) → Feeds fRun b st.dSrc rest → rest.length < turns →
        ∃ progress, decompressItem bm fRun b turns rest.length st = some progress ∧
          Reaches bm start (bits ++ rest) progress := by
  intro turns
  induction turns with
  | zero => exact fun _ _ hturns ↦ absurd hturns (not_lt_zero _)
  | succ turns ih =>
    intro bits rest st hst hfeeds hturns
    by_cases hrest : rest.length = 0
    · refine ⟨.running st, by rw [decompressItem, if_pos hrest], ?_⟩
      rw [length_eq_zero_iff.mp hrest, append_nil]
      exact hst
    · obtain ⟨progress, done, hpos, hle, hturn, hreaches, hnext⟩ :=
        hst.turn h hfeeds (pos_of_ne_zero hrest)
      have hsplit : bits ++ rest.take done ++ rest.drop done = bits ++ rest := by
        rw [append_assoc, take_append_drop]
      rw [decompressItem, if_neg hrest, hturn, ← hsplit]
      cases progress with
      | finished words => exact ⟨_, rfl, hreaches.append_finished _⟩
      | running st' =>
        apply ih hreaches (hnext st' rfl)
        rw [length_drop]
        omega

theorem feeds_itemBits (byte : UInt8) (dSrc : BitVec 32) :
    let fRun : Bool := byte &&& compressedRun ≠ 0
    let b := byte &&& ~~~compressedRun
    Feeds fRun b (itemSource fRun b dSrc) (itemBits byte) := by
  intro fRun b
  have hmask : ∀ m : UInt8, ~~~compressedRun &&& m = m → b &&& m = byte &&& m := by
    intro m hm
    rw [UInt8.and_assoc, hm]
  by_cases hrun : byte &&& compressedRun ≠ 0
  · have hflag : fRun = true := decide_eq_true hrun
    rw [Feeds, if_pos hflag, itemBits, if_pos hrun, itemSource, if_pos hflag,
      hmask compressedRunSet rfl]
    refine ⟨byte &&& compressedRunSet ≠ 0, ?_, fun bit ↦ eq_of_mem_replicate⟩
    simp
  · have hflag : fRun = false := decide_eq_false hrun
    have hbyte : b = byte := by
      have hzero : byte.toBitVec &&& compressedRun.toBitVec = 0#8 :=
        congrArg UInt8.toBitVec (not_not.mp hrun)
      apply UInt8.toBitVec_inj.mp
      calc
        byte.toBitVec &&& ~~~compressedRun.toBitVec =
            byte.toBitVec &&& compressedRun.toBitVec |||
              byte.toBitVec &&& ~~~compressedRun.toBitVec := by
          rw [hzero, BitVec.zero_or]
        _ = byte.toBitVec &&& (compressedRun.toBitVec ||| ~~~compressedRun.toBitVec) :=
          BitVec.and_or_distrib_left.symm
        _ = byte.toBitVec := BitVec.and_allOnes
    rw [Feeds, hflag, if_neg Bool.false_ne_true, itemBits, if_neg hrun, hbyte]
    exact ⟨0, by simp [uncompressedRunLength], rfl⟩

theorem length_itemBits (byte : UInt8) :
    (itemBits byte).length =
      itemTotal (byte &&& compressedRun ≠ 0) (byte &&& ~~~compressedRun) := by
  have hmask : byte &&& ~~~compressedRun &&& compressedRunLengthMask =
      byte &&& compressedRunLengthMask := by
    rw [UInt8.and_assoc]
    rfl
  unfold itemBits itemTotal
  rw [hmask]
  by_cases hrun : byte &&& compressedRun ≠ 0
  · rw [if_pos hrun, if_pos (decide_eq_true hrun), length_replicate]
  · rw [if_neg hrun, if_neg fun h ↦ hrun (of_decide_eq_true h), length_map, length_range]

/-- Where the loops stand does not depend on the source. -/
theorem Reaches.source (h : Reaches bm start bits (.running st)) (dSrc : BitVec 32) :
    Reaches bm start bits (.running { st with dSrc := dSrc }) := by
  obtain ⟨hp, words, hstate, hdrawn⟩ := h
  refine ⟨hp, words, ?_, hdrawn⟩
  rw [hstate]
  rfl

theorem Reaches.loop (h : OneBit bm start) (data : List UInt8) :
    ∀ {bits : List Bool} {st : DecompressState}, Reaches bm start bits (.running st) →
      ∃ words, decompressLoop bm data st = some words ∧
        Drawn bm start words ((bits ++ expand data).take (bm.width * bm.height)) := by
  induction data with
  | nil =>
    intro bits st ⟨hp, words, hstate, hdrawn⟩
    refine ⟨words, by rw [decompressLoop, hstate]; rfl, ?_⟩
    rw [expand, flatMap_nil, append_nil, take_of_length_le hp.le]
    exact hdrawn
  | cons byte data ih =>
    intro bits st hst
    have hsource := hst.source
      (itemSource (byte &&& compressedRun ≠ 0) (byte &&& ~~~compressedRun) st.dSrc)
    obtain ⟨progress, hitem, hreaches⟩ := Reaches.item h (_ + 1) hsource
      (feeds_itemBits byte st.dSrc) (lt_succ_self _)
    have hexpand : bits ++ expand (byte :: data) = bits ++ itemBits byte ++ expand data := by
      rw [expand, flatMap_cons, append_assoc]
      rfl
    rw [decompressLoop, hexpand]
    rw [length_itemBits] at hitem
    rw [hitem]
    cases progress with
    | finished words => exact ⟨words, rfl, (hreaches.append_finished _).2⟩
    | running st' => exact ih hreaches

theorem decompress_drawn (h : OneBit bm words) (data : List UInt8) :
    ∃ words', decompress bm data words = some words' ∧
      Drawn bm words words' ((expand data).take (bm.width * bm.height)) := by
  have hstart : Reaches bm words [] (.running
      { mask := BitVec.allOnes 32, cBitsDst := 32, pd := 0, pbyteDst := 0,
        cBitsScanLine := bm.width, cLines := bm.height, dSrc := 0, words := words }) := by
    refine ⟨mul_pos h.width_pos h.height_pos, words, ?_, Drawn.nil bm words⟩
    simp [stateAt, wordOf]
  exact hstart.loop h data

/-- The words of a one-bit bitmap whose description was made. -/
theorem oneBit_of_initializeDescription {width height : ℤ}
    (hbm : initializeDescription width height 1 = some bm)
    (hwidth : 1 ≤ width) (hheight : 1 ≤ height)
    (hwords : ((words.length * 4 : ℕ) : ℤ) = bm.getTotalSize) : OneBit bm words := by
  obtain ⟨hw, hh, hbits, hwidth_le, hheight_le, -, -⟩ := initializeDescription_spec hbm
  have hone : bm.bitsPerPixel = 1 := by omega
  have hrow := getWidthInWords_one hone hwidth_le
  have hsmall : bm.getWidthInWords * bm.height ≤ 16384 * 65535 := by
    apply Nat.mul_le_mul
    · rw [hrow]
      unfold maxWidth at hwidth_le
      omega
    · exact hheight_le
  rw [getTotalSize, hone, if_neg (by decide)] at hwords
  refine ⟨hone, by omega, hwidth_le, by omega, ?_⟩
  generalize bm.getWidthInWords * bm.height = size at *
  rw [Int.bmod_def] at hwords
  push_cast at hwords
  split at hwords <;> omega

/-- `Decompress` into the words of a bitmap whose description was made stays in them.  The first
pixels, read row by row, are the bits of the data, cut at the end of the bitmap; and a word that
holds none of these pixels stays as it is. -/
theorem decompress_draws {width height : ℤ} {bm : BitmapDescription} {words : List (BitVec 32)}
    (hbm : initializeDescription width height 1 = some bm)
    (hwidth : 1 ≤ width) (hheight : 1 ≤ height)
    (hwords : ((words.length * 4 : ℕ) : ℤ) = bm.getTotalSize) (data : List UInt8) :
    ∃ words', decompress bm data words = some words' ∧ words'.length = words.length ∧
      (∀ p bit, p < bm.width * bm.height → (expand data)[p]? = some bit →
        pixel bm words' p = bit) ∧
      ∀ i, (∀ p < (expand data).length, p < bm.width * bm.height → wordOf bm p ≠ i) →
        words'[i]? = words[i]? := by
  have hone := oneBit_of_initializeDescription hbm hwidth hheight hwords
  obtain ⟨words', hrun, hdrawn⟩ := decompress_drawn hone data
  refine ⟨words', hrun, hdrawn.length, ?_, ?_⟩
  · intro p bit hp hbit
    apply hdrawn.pixel
    rw [getElem?_take_of_lt hp]
    exact hbit
  · intro i hi
    apply hdrawn.other
    intro p hp
    rw [length_take] at hp
    exact hi p (by omega) (by omega)

/-- Two rows of 40 pixels.  A run goes from the first word into the second, and literal bits go from
the first row into the second; the last word is not reached. -/
theorem decompress_draws_rows :
    ∃ words', decompress ⟨40, 2, 1⟩ [0x55, 0xD9, 0x2A, 0x8F] [0, 0, 0, 5] = some words' ∧
      words'.length = 4 ∧
      (∀ p bit, p < 40 * 2 → (expand [0x55, 0xD9, 0x2A, 0x8F])[p]? = some bit →
        pixel ⟨40, 2, 1⟩ words' p = bit) ∧
      words'[3]? = some 5 := by
  have hbm : initializeDescription 40 2 1 = some ⟨40, 2, 1⟩ := rfl
  have hwords : ((length [(0 : BitVec 32), 0, 0, 5] * 4 : ℕ) : ℤ) =
      BitmapDescription.getTotalSize ⟨40, 2, 1⟩ := rfl
  obtain ⟨words', hrun, hlength, hpixel, hother⟩ :=
    decompress_draws hbm (by decide) (by decide) hwords [0x55, 0xD9, 0x2A, 0x8F]
  exact ⟨words', hrun, hlength, hpixel, hother 3 (by decide)⟩

/-- Behind the end of the data the pixels do not stay: a run of eight sets all of the word. -/
theorem decompress_sets_rest :
    ¬ ∀ (bm : BitmapDescription) (data : List UInt8) (words words' : List (BitVec 32)),
      OneBit bm words → decompress bm data words = some words' →
        ∀ p < bm.width * bm.height,
          pixel bm words' p = ((expand data)[p]?).getD (pixel bm words p) := by
  intro hclaim
  have hrun : decompress ⟨32, 1, 1⟩ [0xC0] [0] = some [BitVec.allOnes 32] := by decide
  have hpixel := hclaim ⟨32, 1, 1⟩ [0xC0] [0] [BitVec.allOnes 32]
    ⟨rfl, by decide, by decide, by decide, rfl⟩ hrun 8 (by decide)
  revert hpixel
  decide

end MicroFramework.Graphics
