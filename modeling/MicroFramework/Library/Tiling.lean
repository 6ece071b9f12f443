import Mathlib.Data.List.Pairwise
import Mathlib.Data.UInt

/-!
# Memory tiled by headed blocks

A stretch of memory is tiled when walking it from header to header, each header saying how long
its block is, ends exactly at the stretch's end.  The blocks are listed as their headers; where a
block lies follows from the sizes before it (`located`).
-/

namespace MicroFramework.Library

open List

variable {η : Type*} {size : η → ℕ}

/-- Walking from `start` reads the headers `blocks` and ends at `stop`. -/
def Tiles (size : η → ℕ) (header : ℕ → η) : ℕ → List η → ℕ → Prop
  | start, [], stop => start = stop
  | start, block :: rest, stop =>
    header start = block ∧ 1 ≤ size block ∧ Tiles size header (start + size block) rest stop

def extent (size : η → ℕ) (blocks : List η) : ℕ :=
  (blocks.map size).sum

/-- The blocks with their addresses. -/
def located (size : η → ℕ) : ℕ → List η → List (ℕ × η)
  | _, [] => []
  | start, block :: rest => (start, block) :: located size (start + size block) rest

@[simp]
theorem extent_nil : extent size [] = 0 := rfl

@[simp]
theorem extent_cons (block : η) (rest : List η) :
    extent size (block :: rest) = size block + extent size rest := by
  simp [extent]

@[simp]
theorem extent_append (left right : List η) :
    extent size (left ++ right) = extent size left + extent size right := by
  simp [extent]

@[simp]
theorem located_nil (start : ℕ) : located size start [] = [] := rfl

@[simp]
theorem located_cons (start : ℕ) (block : η) (rest : List η) :
    located size start (block :: rest) = (start, block) :: located size (start + size block) rest :=
  rfl

theorem located_append (start : ℕ) (left right : List η) :
    located size start (left ++ right) =
      located size start left ++ located size (start + extent size left) right := by
  induction left generalizing start with
  | nil => simp
  | cons block rest ih => simp [ih, Nat.add_assoc]

@[simp]
theorem length_located (start : ℕ) (blocks : List η) :
    (located size start blocks).length = blocks.length := by
  induction blocks generalizing start with
  | nil => rfl
  | cons block rest ih => simp [ih]

variable {blocks : List η} {place : ℕ × η} {start stop : ℕ}

theorem mem_of_mem_located (h : place ∈ located size start blocks) : place.2 ∈ blocks := by
  induction blocks generalizing start with
  | nil => simp at h
  | cons block rest ih =>
    rw [located_cons, mem_cons] at h
    rcases h with rfl | h
    · exact mem_cons_self
    · exact mem_cons_of_mem _ (ih h)

variable {block : η}

theorem exists_mem_located (start : ℕ) (h : block ∈ blocks) :
    ∃ a, (a, block) ∈ located size start blocks := by
  induction blocks generalizing start with
  | nil => simp at h
  | cons first rest ih =>
    rcases mem_cons.mp h with rfl | h
    · exact ⟨start, by simp⟩
    · obtain ⟨a, ha⟩ := ih (start + size first) h
      exact ⟨a, by simp [ha]⟩

/-- A listed address is where the blocks before it end. -/
theorem exists_split_of_mem_located (h : place ∈ located size start blocks) :
    ∃ left right, blocks = left ++ place.2 :: right ∧ place.1 = start + extent size left := by
  induction blocks generalizing start with
  | nil => simp at h
  | cons block rest ih =>
    rw [located_cons, mem_cons] at h
    rcases h with rfl | h
    · exact ⟨[], rest, rfl, rfl⟩
    · obtain ⟨left, right, hrest, hstart⟩ := ih h
      refine ⟨block :: left, right, by rw [hrest, cons_append], ?_⟩
      rw [hstart, extent_cons, Nat.add_assoc]

/-- A block lies inside the stretch. -/
theorem bounds_of_mem_located (h : place ∈ located size start blocks) :
    start ≤ place.1 ∧ place.1 + size place.2 ≤ start + extent size blocks := by
  induction blocks generalizing start with
  | nil => simp at h
  | cons block rest ih =>
    rw [located_cons, mem_cons] at h
    rw [extent_cons]
    rcases h with rfl | h
    · exact ⟨Nat.le_refl _, by simp only; omega⟩
    · have hrest := ih h
      omega

theorem located_pairwise (start : ℕ) (blocks : List η) :
    (located size start blocks).Pairwise fun p q ↦ p.1 + size p.2 ≤ q.1 := by
  induction blocks generalizing start with
  | nil => simp
  | cons block rest ih =>
    rw [located_cons, pairwise_cons]
    refine ⟨?_, ih _⟩
    intro place hplace
    exact (bounds_of_mem_located hplace).1

/-- Blocks of a multiple of `k` lie at multiples of `k`. -/
theorem dvd_of_mem_located {k : ℕ} (hstart : k ∣ start)
    (hsize : ∀ block ∈ blocks, k ∣ size block) (h : place ∈ located size start blocks) :
    k ∣ place.1 := by
  induction blocks generalizing start with
  | nil => simp at h
  | cons block rest ih =>
    rw [forall_mem_cons] at hsize
    rcases mem_cons.mp h with rfl | h
    · exact hstart
    · exact ih (Nat.dvd_add hstart hsize.1) hsize.2 h

variable {p q : ℕ × η}

/-- Blocks at different addresses lie apart. -/
theorem located_apart
    (hp : p ∈ located size start blocks) (hq : q ∈ located size start blocks) (hne : p.1 ≠ q.1) :
    p.1 + size p.2 ≤ q.1 ∨ q.1 + size q.2 ≤ p.1 := by
  have hpair : (located size start blocks).Pairwise fun p q ↦
      p.1 ≠ q.1 → p.1 + size p.2 ≤ q.1 ∨ q.1 + size q.2 ≤ p.1 :=
    (located_pairwise start blocks).imp fun h _ ↦ .inl h
  have hsymm : Std.Symm fun p q : ℕ × η ↦
      p.1 ≠ q.1 → p.1 + size p.2 ≤ q.1 ∨ q.1 + size q.2 ≤ p.1 :=
    ⟨fun p q h hne ↦ (h hne.symm).symm⟩
  exact hpair.forall_of_forall (fun p _ hp ↦ absurd rfl hp) hp hq hne

/-- An address belongs to one block. -/
theorem located_inj (hpos : ∀ block ∈ blocks, 1 ≤ size block) (hp : p ∈ located size start blocks)
    (hq : q ∈ located size start blocks)
    (heq : p.1 = q.1) : p = q := by
  have hpair : (located size start blocks).Pairwise fun p q ↦ p.1 = q.1 → p = q := by
    refine (located_pairwise start blocks).imp_of_mem fun {p q} hp _ h heq ↦ ?_
    have hsize := hpos _ (mem_of_mem_located hp)
    omega
  have hsymm : Std.Symm fun p q : ℕ × η ↦ p.1 = q.1 → p = q := ⟨fun p q h heq ↦ (h heq.symm).symm⟩
  exact hpair.forall_of_forall (fun _ _ _ ↦ rfl) hp hq heq

variable {header : ℕ → η}

theorem tiles_append {left right : List η} :
    Tiles size header start (left ++ right) stop ↔
      Tiles size header start left (start + extent size left) ∧
        Tiles size header (start + extent size left) right stop := by
  induction left generalizing start with
  | nil => simp [Tiles]
  | cons block rest ih => simp [Tiles, ih, Nat.add_assoc, and_assoc]

section

variable (h : Tiles size header start blocks stop)

include h

theorem Tiles.stop_eq : stop = start + extent size blocks := by
  induction blocks generalizing start with
  | nil => simpa [Tiles] using h.symm
  | cons block rest ih =>
    obtain ⟨-, -, hrest⟩ := h
    rw [ih hrest, extent_cons]
    omega

theorem Tiles.pos (hblock : block ∈ blocks) : 1 ≤ size block := by
  induction blocks generalizing start with
  | nil => simp at hblock
  | cons first rest ih =>
    obtain ⟨-, hpos, hrest⟩ := h
    rcases mem_cons.mp hblock with rfl | hblock
    · exact hpos
    · exact ih hrest hblock

theorem Tiles.length_le : blocks.length ≤ extent size blocks := by
  induction blocks generalizing start with
  | nil => simp
  | cons block rest ih =>
    obtain ⟨-, hpos, hrest⟩ := h
    have hlength := ih hrest
    rw [extent_cons, length_cons]
    omega

/-- The memory at a listed address holds the listed header. -/
theorem Tiles.header_eq
    (hplace : place ∈ located size start blocks) : header place.1 = place.2 := by
  induction blocks generalizing start with
  | nil => simp at hplace
  | cons block rest ih =>
    obtain ⟨hheader, -, hrest⟩ := h
    rw [located_cons, mem_cons] at hplace
    rcases hplace with rfl | hplace
    · exact hheader
    · exact ih hrest hplace

variable {header' : ℕ → η}

/-- Only the headers at the listed addresses matter. -/
theorem Tiles.congr
    (hagree : ∀ place ∈ located size start blocks, header' place.1 = header place.1) :
    Tiles size header' start blocks stop := by
  induction blocks generalizing start with
  | nil => exact h
  | cons block rest ih =>
    obtain ⟨hheader, hpos, hrest⟩ := h
    refine ⟨(hagree (start, block) (by simp)).trans hheader, hpos, ih hrest ?_⟩
    exact fun place hplace ↦ hagree place (by simp [hplace])

/-- A change of headers outside the stretch is not seen. -/
theorem Tiles.congr_of_bounds (hagree : ∀ a, start ≤ a → a < stop → header' a = header a) :
    Tiles size header' start blocks stop := by
  refine h.congr fun place hplace ↦ ?_
  have hbounds := bounds_of_mem_located hplace
  have hpos := h.pos (mem_of_mem_located hplace)
  have hstop := h.stop_eq
  exact hagree place.1 hbounds.1 (by omega)

theorem Tiles.unique {blocks' : List η} (h' : Tiles size header start blocks' stop) :
    blocks = blocks' := by
  induction blocks generalizing start blocks' with
  | nil =>
    cases blocks' with
    | nil => rfl
    | cons block rest =>
      have hstart : start = stop := h
      have hpos := h'.2.1
      have hstop := h'.stop_eq
      rw [extent_cons] at hstop
      omega
  | cons block rest ih =>
    cases blocks' with
    | nil =>
      have hstart : start = stop := h'
      have hpos := h.2.1
      have hstop := h.stop_eq
      rw [extent_cons] at hstop
      omega
    | cons block' rest' =>
      obtain ⟨hheader, -, hrest⟩ := h
      obtain ⟨hheader', -, hrest'⟩ := h'
      have hblock : block = block' := hheader.symm.trans hheader'
      subst hblock
      rw [ih hrest hrest']

/-- A walk that stops inside the stretch has read the first headers of the tiling. -/
theorem Tiles.exists_append {a : ℕ} {left : List η} (hleft : Tiles size header start left a)
    (ha : a < stop) : ∃ block right, blocks = left ++ block :: right := by
  induction left generalizing start blocks with
  | nil =>
    cases blocks with
    | nil =>
      have hstart : start = a := hleft
      have hstop : start = stop := h
      omega
    | cons block right => exact ⟨block, right, rfl⟩
  | cons first left ih =>
    obtain ⟨hfirst, hpos, hrest⟩ := hleft
    cases blocks with
    | nil =>
      have hstop : start = stop := h
      have hend := hrest.stop_eq
      omega
    | cons block blocks =>
      obtain ⟨hblock, -, hblocks⟩ := h
      have hsame : block = first := hblock.symm.trans hfirst
      subst hsame
      obtain ⟨next, right, rfl⟩ := ih hblocks hrest
      exact ⟨next, right, rfl⟩

end

def Covers (size : η → ℕ) (p : η → Prop) (start : ℕ) (blocks : List η) (a : ℕ) : Prop :=
  ∃ place ∈ located size start blocks, p place.2 ∧ place.1 ≤ a ∧ a < place.1 + size place.2

theorem covers_cons {p : η → Prop} {a : ℕ} {rest : List η} :
    Covers size p start (block :: rest) a ↔
      (p block ∧ start ≤ a ∧ a < start + size block) ∨
        Covers size p (start + size block) rest a := by
  simp [Covers]

end MicroFramework.Library
