import Mathlib.Data.List.Range
import MicroFramework.Support.LittleEndian

/-!
# Byte memory

Memory as a function from addresses to bytes, with loads and stores of byte strings and of
little-endian words of four bytes.  A store is seen by a load of the same place, and not by a load
of a place apart from it.
-/

namespace MicroFramework.Library

open Support List

abbrev Memory := ℕ → UInt8

def store (m : Memory) (a : ℕ) (bytes : List UInt8) : Memory := fun i ↦
  if h : a ≤ i ∧ i < a + bytes.length then bytes.get ⟨i - a, by omega⟩ else m i

def load (m : Memory) (a n : ℕ) : List UInt8 := (List.range n).map fun i ↦ m (a + i)

def loadWord (m : Memory) (a : ℕ) : ℕ := leValue (load m a 4)

/-- A store of the low 32 bits of `v`. -/
def storeWord (m : Memory) (a v : ℕ) : Memory := store m a (leBytes 4 v)

def copy (m : Memory) (target source n : ℕ) : Memory := store m target (load m source n)

variable {m m' : Memory} {a b i n v : ℕ} {bytes : List UInt8}

@[simp] theorem length_load (m : Memory) (a n : ℕ) : (load m a n).length = n := by simp [load]

theorem store_apply (h : i < bytes.length) : store m a bytes (a + i) = bytes[i] := by
  have hin : a ≤ a + i ∧ a + i < a + bytes.length := by omega
  simp [store, hin]

theorem store_of_apart (h : i < a ∨ a + bytes.length ≤ i) : store m a bytes i = m i := by
  have hout : ¬ (a ≤ i ∧ i < a + bytes.length) := by omega
  simp [store, hout]

@[simp] theorem getElem_load (h : i < (load m a n).length) : (load m a n)[i] = m (a + i) := by
  simp [load]

theorem load_congr (h : ∀ i, a ≤ i → i < a + n → m' i = m i) : load m' a n = load m a n := by
  refine map_congr_left fun i hi ↦ h (a + i) (by omega) ?_
  have hlt := mem_range.mp hi
  omega

theorem load_inj (h : load m a n = load m' b n) (hi : i < n) : m (a + i) = m' (b + i) :=
  map_inj_left.mp h i (mem_range.mpr hi)

theorem load_store (m : Memory) (a : ℕ) (bytes : List UInt8) :
    load (store m a bytes) a bytes.length = bytes := by
  apply ext_getElem
  · simp
  · intro i hi hbytes
    simp only [load, getElem_map, getElem_range]
    exact store_apply hbytes

theorem loadWord_congr (h : ∀ i, a ≤ i → i < a + 4 → m' i = m i) :
    loadWord m' a = loadWord m a := by
  rw [loadWord, load_congr h, loadWord]

@[simp] theorem loadWord_storeWord (m : Memory) (a : ℕ) (h : v < 2 ^ 32) :
    loadWord (storeWord m a v) a = v := by
  have hload := load_store m a (leBytes 4 v)
  rw [leBytes_length] at hload
  rw [loadWord, storeWord, hload]
  exact leValue_leBytes 4 v (by omega)

theorem storeWord_of_apart (h : i < a ∨ a + 4 ≤ i) : storeWord m a v i = m i :=
  store_of_apart (by rwa [leBytes_length])

theorem loadWord_storeWord_of_apart (h : b + 4 ≤ a ∨ a + 4 ≤ b) :
    loadWord (storeWord m a v) b = loadWord m b :=
  loadWord_congr fun i _ _ ↦ storeWord_of_apart (by omega)

theorem loadWord_lt (m : Memory) (a : ℕ) : loadWord m a < 2 ^ 32 := by
  have h := leValue_lt (load m a 4)
  rwa [length_load] at h

theorem copy_apply {target source : ℕ} (h : i < n) :
    copy m target source n (target + i) = m (source + i) := by
  rw [copy, store_apply (by simpa using h)]
  simp [load]

theorem copy_of_apart {target source : ℕ} (h : i < target ∨ target + n ≤ i) :
    copy m target source n i = m i :=
  store_of_apart (by rwa [length_load])

end MicroFramework.Library
