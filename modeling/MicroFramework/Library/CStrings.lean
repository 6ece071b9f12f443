import Mathlib.Data.List.TakeWhile

/-!
# Strings that end with a zero

The string in an array is what stands in front of the first zero.  Comparing two arrays up to a
length compares the starts of their strings.
-/

namespace MicroFramework.Library

open List

variable {α : Type*} [Zero α] [DecidableEq α] {a b : List α} {n : ℕ}

def cString (a : List α) : List α :=
  a.takeWhile (· ≠ 0)

/-- Whether the strings in two arrays agree in the first `n` places, by the places up to the first
difference or the first zero; a place behind the end of an array has no value. -/
def strncmpZero : ℕ → List α → List α → Option Bool
  | 0, _, _ => some true
  | _ + 1, [], _ => none
  | _ + 1, _, [] => none
  | n + 1, x :: a, y :: b =>
    if x ≠ y then some false
    else if x = 0 then some true
    else strncmpZero n a b

@[simp] theorem cString_zero_cons (a : List α) : cString (0 :: a) = [] := by simp [cString]

theorem cString_cons {x : α} (hx : x ≠ 0) (a : List α) : cString (x :: a) = x :: cString a := by
  simp [cString, hx]

theorem zero_notMem_cString (a : List α) : (0 : α) ∉ cString a := fun h ↦ by
  simpa using mem_takeWhile_imp h

theorem cString_append_zero {s : List α} (hs : (0 : α) ∉ s) (a : List α) :
    cString (s ++ 0 :: a) = s := by
  induction s with
  | nil => exact cString_zero_cons a
  | cons x s ih =>
    have hx : x ≠ 0 := fun h ↦ hs (h ▸ mem_cons_self)
    rw [cons_append, cString_cons hx, ih fun h ↦ hs (mem_cons_of_mem x h)]

/-- The string in an array with a zero is shorter than the array, and a zero stands behind it. -/
theorem getElem?_length_cString (h : (0 : α) ∈ a) : a[(cString a).length]? = some 0 := by
  induction a with
  | nil => cases h
  | cons x a ih =>
    by_cases hx : x = 0
    · subst hx
      rw [cString_zero_cons]
      rfl
    · have htail : (0 : α) ∈ a := (mem_cons.mp h).resolve_left fun h ↦ hx h.symm
      rw [cString_cons hx]
      exact ih htail

theorem length_cString_lt (h : (0 : α) ∈ a) : (cString a).length < a.length :=
  (List.getElem?_eq_some_iff.mp (getElem?_length_cString h)).1

theorem getElem?_ne_zero (h : n < (cString a).length) : a[n]? ≠ some 0 := by
  have hget : a[n]? = (cString a)[n]? := by
    obtain ⟨rest, hrest⟩ := takeWhile_prefix (p := fun x : α ↦ decide (x ≠ 0)) (l := a)
    calc a[n]? = (cString a ++ rest)[n]? := congrArg (·[n]?) hrest.symm
      _ = (cString a)[n]? := getElem?_append_left h
  rw [hget]
  intro hzero
  exact zero_notMem_cString a (mem_of_getElem? hzero)

/-- Two arrays with zeros are compared by the starts of their strings. -/
theorem strncmpZero_eq (ha : (0 : α) ∈ a) (hb : (0 : α) ∈ b) :
    strncmpZero n a b = some (decide ((cString a).take n = (cString b).take n)) := by
  induction n generalizing a b with
  | zero => simp [strncmpZero]
  | succ n ih =>
    cases a with
    | nil => cases ha
    | cons x a =>
      cases b with
      | nil => cases hb
      | cons y b =>
        rw [strncmpZero]
        by_cases hxy : x = y
        · subst hxy
          rw [if_neg (not_not.mpr rfl)]
          by_cases hx : x = 0
          · subst hx
            rw [if_pos rfl, cString_zero_cons, cString_zero_cons, decide_eq_true rfl]
          · have ha' : (0 : α) ∈ a := (mem_cons.mp ha).resolve_left fun h ↦ hx h.symm
            have hb' : (0 : α) ∈ b := (mem_cons.mp hb).resolve_left fun h ↦ hx h.symm
            rw [if_neg hx, ih ha' hb', cString_cons hx, cString_cons hx]
            simp
        · rw [if_pos hxy]
          have hne : (cString (x :: a)).take (n + 1) ≠ (cString (y :: b)).take (n + 1) := by
            intro heq
            by_cases hx : x = 0
            · have hy : y ≠ 0 := fun hy ↦ hxy (hx.trans hy.symm)
              rw [hx, cString_zero_cons, cString_cons hy] at heq
              cases heq
            · rw [cString_cons hx] at heq
              by_cases hy : y = 0
              · rw [hy, cString_zero_cons] at heq
                cases heq
              · rw [cString_cons hy] at heq
                exact hxy (List.cons.inj heq).1
          rw [decide_eq_false hne]

end MicroFramework.Library
