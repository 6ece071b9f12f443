import Mathlib.Data.List.Basic

/-!
# Banks of flash for persisted objects

A bank is a range of erase blocks, seen as words.  A write clears bits, and it may fail after some
of its words.  The bank header is three words, found by its signature; to format a bank is to write
such a header at the first place where that works.
-/

namespace MicroFramework.Persistence

open Function

abbrev Word := BitVec 32

def erasedWord : Word := 0xFFFFFFFF

def invalidatedWord : Word := 0

def version : Word := 0x50535631

def inUseBank : Word := 0xFFFFFFFF

/-- A bank; `header` is the word at which `m_bankHeader` points.  The place for the next object,
`m_current`, is left out. -/
structure Bank where
  blocks : ℕ
  blockWords : ℕ
  words : ℕ → Word
  header : Option ℕ

def headerWords : List Word := [version, inUseBank, 0xFFFFFFFF]

namespace Bank

variable (b : Bank)

def size : ℕ := b.blocks * b.blockWords

def eraseBlock (index : ℕ) : Bank :=
  { b with
    words := fun i ↦
      if index * b.blockWords ≤ i ∧ i < (index + 1) * b.blockWords then erasedWord else b.words i }

def erase (blockIndex : ℕ) : Bool × Bank × ℕ :=
  if b.blocks ≤ blockIndex then (false, b, blockIndex)
  else (true, b.eraseBlock blockIndex, blockIndex + 1)

/-- Words are written one after the other; bits can only be cleared. -/
def writeWords (b : Bank) (at' : ℕ) : List Word → Bank
  | [] => b
  | word :: words =>
    writeWords { b with words := Function.update b.words at' (b.words at' &&& word) } (at' + 1) words

/-- `Write`: it succeeds, or it fails after some words. -/
def write (at' : ℕ) (words : List Word) : Option ℕ → Bool × Bank
  | none => (true, b.writeWords at' words)
  | some written => (false, b.writeWords at' (words.take written))

def invalidate (at' : ℕ) (match' : Word) (length : ℕ) : Bank :=
  { b with
    words := fun i ↦
      if at' ≤ i ∧ i < at' + length ∧ b.words i = match' then invalidatedWord else b.words i }

def isGood (at' : ℕ) : Bool :=
  b.words at' = version ∧ b.words (at' + 1) = inUseBank ∧ b.words (at' + 2) ≠ 0

def find : Option ℕ := (List.range (b.size - headerWords.length)).find? b.isGood

def initialize' : Bank := { b with header := b.find }

/-- The loop of `Format` over the places for the header, for at most some turns. -/
def formatLoop (faults : ℕ → Option ℕ) : ℕ → ℕ → Bank → Bank
  | 0, _, b => b
  | turns + 1, at', b =>
    match b.write at' headerWords (faults at') with
    | (true, b) => b.initialize'
    | (false, b) => formatLoop faults turns (at' + 1) (b.invalidate at' version headerWords.length)

/-- `Format`; `faults` says which writes fail, and after how many words. -/
def format (faults : ℕ → Option ℕ) : Bank :=
  formatLoop faults (b.size - headerWords.length) 0 b

/-- `SetSequence`; `succeeds` says whether one of its ten tries does. -/
def setSequence (sequenceNumber : Word) (succeeds : Bool) : Bank :=
  match b.header with
  | some header => if succeeds then b.writeWords (header + 2) [sequenceNumber] else b
  | none => b

/-- Behind a good header everything is erased. -/
def Fresh : Prop :=
  ∀ header, b.header = some header → b.isGood header = true →
    ∀ i, header + headerWords.length ≤ i → i < b.size → b.words i = erasedWord

section Format

variable {b} {at' : ℕ} {faults : ℕ → Option ℕ}

theorem isGood_version (h : b.isGood at' = true) : b.words at' = version := by
  simp only [isGood, decide_eq_true_eq] at h
  exact h.1

@[simp] theorem writeWords_size (words : List Word) : (b.writeWords at' words).size = b.size := by
  induction words generalizing b at' with
  | nil => rfl
  | cons word words ih => exact ih

theorem writeWords_outside (words : List Word) {i : ℕ} (hi : i < at' ∨ at' + words.length ≤ i) :
    (b.writeWords at' words).words i = b.words i := by
  induction words generalizing b at' with
  | nil => rfl
  | cons word words ih =>
    simp only [List.length_cons] at hi
    rw [writeWords, ih (by omega)]
    exact update_of_ne (by omega) ..

theorem writeWords_erased (words : List Word) {i : ℕ}
    (herased : ∀ i, at' ≤ i → i < at' + words.length → b.words i = erasedWord)
    (hi : i < words.length) : (b.writeWords at' words).words (at' + i) = words[i] := by
  induction words generalizing b at' i with
  | nil => simp at hi
  | cons word words ih =>
    rw [writeWords]
    cases i with
    | zero =>
      have hword : b.words at' = BitVec.allOnes 32 := herased at' (Nat.le_refl _) (by simp)
      change (writeWords _ (at' + 1) words).words at' = word
      rw [writeWords_outside words (.inl (Nat.lt_succ_self at'))]
      change Function.update b.words at' (b.words at' &&& word) at' = word
      rw [update_self, hword, BitVec.allOnes_and]
    | succ i =>
      have hindex : at' + (i + 1) = at' + 1 + i := by omega
      rw [hindex, List.getElem_cons_succ]
      refine ih (fun i' hi' hlt ↦ ?_) (by simpa using hi)
      simp only [List.length_cons] at herased
      change Function.update b.words at' (b.words at' &&& word) i' = erasedWord
      rw [update_of_ne (by omega)]
      exact herased i' (by omega) (by omega)

/-- Places that were tried are invalidated, and the others are erased. -/
structure Formatting (b : Bank) (at' : ℕ) : Prop where
  tried : ∀ i, i < at' → b.words i ≠ version
  erased : ∀ i, at' ≤ i → i < b.size → b.words i = erasedWord

/-- A write of the header that fails changes nothing but the word of the signature, if that. -/
theorem writeWords_take (h : Formatting b at') (hroom : at' + 3 ≤ b.size) (written i : ℕ) :
    (b.writeWords at' (headerWords.take written)).words i =
      if i = at' ∧ written ≠ 0 then version else b.words i := by
  by_cases hi : at' ≤ i ∧ i < at' + (headerWords.take written).length
  · obtain ⟨k, rfl⟩ := Nat.exists_eq_add_of_le hi.1
    have hk : k < (headerWords.take written).length := by omega
    have hlength : (headerWords.take written).length = min written 3 := by simp [headerWords]
    rw [writeWords_erased _ (fun i hi hlt ↦ h.erased i hi (by omega)) hk, List.getElem_take]
    rw [h.erased _ hi.1 (by omega)]
    obtain rfl | rfl | rfl : k = 0 ∨ k = 1 ∨ k = 2 := by omega
    · rw [if_pos ⟨rfl, by omega⟩]
      rfl
    · rw [if_neg (by omega)]
      rfl
    · rw [if_neg (by omega)]
      rfl
  · rw [writeWords_outside _ (by omega), if_neg]
    rintro ⟨rfl, hwritten⟩
    refine hi ⟨Nat.le_refl _, ?_⟩
    have hlength : (headerWords.take written).length = min written 3 := by simp [headerWords]
    omega

/-- After a write that failed the next place is as good as this one was. -/
theorem Formatting.next (h : Formatting b at') (hroom : at' + 3 ≤ b.size) (written : ℕ) :
    Formatting ((b.writeWords at' (headerWords.take written)).invalidate at' version
      headerWords.length) (at' + 1) where
  tried i hi := by
    simp only [invalidate]
    by_cases hcond : at' ≤ i ∧ i < at' + headerWords.length ∧
        (b.writeWords at' (headerWords.take written)).words i = version
    · rw [if_pos hcond]
      decide
    · rw [if_neg hcond]
      intro hversion
      by_cases hlt : i < at'
      · rw [writeWords_take h hroom, if_neg (by omega)] at hversion
        exact h.tried i hlt hversion
      · exact hcond ⟨by omega, by simp [headerWords]; omega, hversion⟩
  erased i hi hlt := by
    have hwritten : (b.writeWords at' (headerWords.take written)).size = b.size := writeWords_size _
    have hsize : i < b.size := lt_of_lt_of_eq hlt hwritten
    simp only [invalidate]
    have hword : (b.writeWords at' (headerWords.take written)).words i = erasedWord := by
      rw [writeWords_take h hroom, if_neg (by omega)]
      exact h.erased i (by omega) hsize
    rw [hword, if_neg]
    rintro ⟨-, -, heq⟩
    exact absurd heq (by decide)

/-- A header that was just written is the first good one, and behind it everything is erased. -/
theorem Formatting.written (h : Formatting b at') (hroom : at' + 3 ≤ b.size) :
    (b.writeWords at' headerWords).initialize'.Fresh := by
  intro header hheader hgood i hi hsize
  have hword : ∀ j, (b.writeWords at' headerWords).words j =
      if j = at' ∧ 3 ≠ 0 then version else b.words j := fun j ↦ writeWords_take h hroom 3 j
  have hversion : (b.writeWords at' headerWords).words header = version := isGood_version hgood
  have hwritten : (b.writeWords at' headerWords).size = b.size := writeWords_size _
  have hsize' : i < b.size := lt_of_lt_of_eq hsize hwritten
  have hlength : headerWords.length = 3 := rfl
  -- Before the header no word is a signature, and behind it none is.
  have heq : header = at' := by
    by_contra hne
    rw [hword, if_neg (by omega)] at hversion
    by_cases hlt : header < at'
    · exact h.tried header hlt hversion
    · rw [h.erased header (by omega) (by omega)] at hversion
      exact absurd hversion (by decide)
  change (b.writeWords at' headerWords).words i = erasedWord
  rw [hword, if_neg (by omega)]
  exact h.erased i (by omega) hsize'

theorem Formatting.formatLoop (turns : ℕ) (h : Formatting b at')
    (hturns : at' + turns = b.size - headerWords.length) :
    (formatLoop faults turns at' b).Fresh := by
  induction turns generalizing b at' with
  | zero =>
    intro header _ hgood i hi hsize
    have hversion : b.words header = version := isGood_version hgood
    have hlength : headerWords.length = 3 := rfl
    have hsize' : i < b.size := hsize
    by_cases hlt : header < at'
    · exact absurd hversion (h.tried header hlt)
    · have herased := h.erased header (by omega) (by omega)
      rw [hversion] at herased
      exact absurd herased (by decide)
  | succ turns ih =>
    have hlength : headerWords.length = 3 := rfl
    rw [Bank.formatLoop]
    cases hfault : faults at' with
    | none => exact h.written (by omega)
    | some written =>
      refine ih (h.next (by omega) written) ?_
      have hsize : ((b.writeWords at' (headerWords.take written)).invalidate at' version
          headerWords.length).size = b.size := writeWords_size _
      rw [hsize]
      omega

theorem format_fresh (herased : ∀ i, i < b.size → b.words i = erasedWord) :
    (b.format faults).Fresh := by
  have hstart : Formatting b 0 :=
    ⟨fun i hi ↦ absurd hi (Nat.not_lt_zero i), fun i _ hi ↦ herased i hi⟩
  exact hstart.formatLoop _ (Nat.zero_add _)

end Format

end Bank

end MicroFramework.Persistence
