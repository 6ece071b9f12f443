import Mathlib.Data.Nat.ModEq

/-!
# Circular windows

A circular window of `n` cells shows the last `n` elements of a sequence, each in the cell of its
index modulo `n`.  Writing the next element moves the window on, and putting back the element it
displaced moves it back.
-/

namespace MicroFramework.Library

open Nat Function

variable {α : Type*} {n : ℕ} {w y : ℕ → α} {last : ℕ}

def Shows (n : ℕ) (w y : ℕ → α) (last : ℕ) : Prop :=
  ∀ i ≤ last, last < i + n → w (i % n) = y i

variable {i j start : ℕ}

/-- Indices less than `n` apart have different cells. -/
theorem cell_ne (hlt : i < j) (hnear : j < i + n) : i % n ≠ j % n := by
  intro heq
  have hdvd : n ∣ j - i := (modEq_iff_dvd' (Nat.le_of_lt hlt)).mp heq
  have hle := le_of_dvd (by omega) hdvd
  omega

/-- The cell that lies `i` cells behind another one, at most once around. -/
theorem cell_eq (hstart : start < n) (hi : i ≤ n) :
    (start + i) % n = if start + i < n then start + i else start + i - n := by
  split_ifs with h
  · exact mod_eq_of_lt h
  · rw [mod_eq_sub_mod (not_lt.mp h), mod_eq_of_lt (by omega)]

theorem cell_inj (hstart : start < n) (hi : i < n) (hj : j < n) :
    (start + i) % n = (start + j) % n ↔ i = j := by
  rw [cell_eq hstart hi.le, cell_eq hstart hj.le]
  split_ifs <;> omega

/-- Every cell is met on the way around. -/
theorem exists_cell {p : ℕ} (hstart : start < n) (hp : p < n) :
    ∃ i < n, (start + i) % n = p := by
  by_cases h : start ≤ p
  · refine ⟨p - start, by omega, ?_⟩
    rw [Nat.add_sub_cancel' h, mod_eq_of_lt hp]
  · refine ⟨p + n - start, by omega, ?_⟩
    rw [Nat.add_sub_cancel' (by omega), add_mod_right, mod_eq_of_lt hp]

namespace Shows

theorem write (h : Shows n w y last) :
    Shows n (Function.update w ((last + 1) % n) (y (last + 1))) y (last + 1) := by
  intro i hi hnear
  by_cases heq : i = last + 1
  · rw [heq, update_self]
  · rw [update_of_ne (cell_ne (by omega) hnear)]
    exact h i (by omega) (by omega)

theorem unwrite (h : Shows n w y (last + 1)) (hfull : n ≤ last + 1) :
    Shows n (Function.update w ((last + 1) % n) (y (last + 1 - n))) y last := by
  intro i hi hnear
  by_cases heq : i = last + 1 - n
  · have hcell : i % n = (last + 1) % n := by
      rw [heq, ← mod_eq_sub_mod hfull]
    rw [hcell, update_self, heq]
  · rw [update_of_ne (cell_ne (by omega) (by omega))]
    exact h i (by omega) (by omega)

/-- The cell of the next index holds the element that is about to be displaced. -/
theorem displaced (h : Shows n w y last) (hfull : n ≤ last + 1) (hpos : 0 < n) :
    w ((last + 1) % n) = y (last + 1 - n) := by
  rw [mod_eq_sub_mod hfull]
  exact h _ (by omega) (by omega)

end Shows

end MicroFramework.Library
