import Mathlib.Algebra.Order.Group.Nat
import Mathlib.Data.UInt

/-!
# Listing what is nested

The elements of a list are listed with their indices, each as a list of its own.  A position splits
the listing in what is before it and what is from it on.  An iterator enumerates a list when its
calls stop at the list's elements in their order.
-/

namespace MicroFramework.Library

open List

variable {α β : Type*} {f : ℕ → α → List β}

/-- What `f` lists for each element, counting from the index on. -/
def listing (f : ℕ → α → List β) : ℕ → List α → List β
  | _, [] => []
  | n, x :: xs => f n x ++ listing f (n + 1) xs

@[simp] theorem listing_nil (n : ℕ) : listing f n [] = [] := rfl

@[simp] theorem listing_cons (n : ℕ) (x : α) (xs : List α) :
    listing f n (x :: xs) = f n x ++ listing f (n + 1) xs := rfl

theorem listing_append (n : ℕ) (xs ys : List α) :
    listing f n (xs ++ ys) = listing f n xs ++ listing f (n + xs.length) ys := by
  induction xs generalizing n with
  | nil => rfl
  | cons x xs ih =>
    have hlength : n + 1 + xs.length = n + (x :: xs).length := by
      rw [length_cons, Nat.add_assoc, Nat.add_comm 1]
    calc listing f n (x :: xs ++ ys) = f n x ++ listing f (n + 1) (xs ++ ys) := listing_cons ..
      _ = f n x ++ (listing f (n + 1) xs ++ listing f (n + 1 + xs.length) ys) := by rw [ih]
      _ = listing f n (x :: xs) ++ listing f (n + (x :: xs).length) ys := by
        rw [hlength, listing_cons, append_assoc]

theorem listing_take_succ {xs : List α} {i : ℕ} {x : α} (h : xs[i]? = some x) :
    listing f 0 (xs.take (i + 1)) = listing f 0 (xs.take i) ++ f i x := by
  obtain ⟨hi, rfl⟩ := List.getElem?_eq_some_iff.mp h
  have hlength : 0 + (xs.take i).length = i := by
    rw [Nat.zero_add, length_take_of_le (Nat.le_of_lt hi)]
  calc listing f 0 (xs.take (i + 1)) = listing f 0 (xs.take i ++ [xs[i]]) := by
        rw [take_succ_eq_append_getElem hi]
    _ = listing f 0 (xs.take i) ++ listing f i [xs[i]] := by rw [listing_append, hlength]
    _ = listing f 0 (xs.take i) ++ f i xs[i] := by rw [listing_cons, listing_nil, append_nil]

theorem listing_take_drop {xs : List α} {i : ℕ} (h : i ≤ xs.length) :
    listing f 0 xs = listing f 0 (xs.take i) ++ listing f i (xs.drop i) := by
  conv_lhs => rw [← take_append_drop i xs]
  rw [listing_append, length_take, Nat.min_eq_left h, Nat.zero_add]

theorem listing_split {xs : List α} {i : ℕ} {x : α} (h : xs[i]? = some x) :
    listing f 0 xs = listing f 0 (xs.take i) ++ f i x ++ listing f (i + 1) (xs.drop (i + 1)) := by
  rw [← listing_take_succ h]
  exact listing_take_drop (List.getElem?_eq_some_iff.mp h).1

theorem mem_listing {n : ℕ} {xs : List α} {e : β} (h : e ∈ listing f n xs) :
    ∃ i x, xs[i]? = some x ∧ e ∈ f (n + i) x := by
  induction xs generalizing n with
  | nil => cases h
  | cons x xs ih =>
    rw [listing_cons, mem_append] at h
    rcases h with h | h
    · exact ⟨0, x, rfl, h⟩
    · obtain ⟨i, y, hy, he⟩ := ih h
      exact ⟨i + 1, y, hy, by rwa [Nat.add_assoc, Nat.add_comm 1 i] at he⟩

/-- A listing whose elements tell the index repeats none. -/
theorem nodup_listing (index : β → ℕ) (hindex : ∀ n x, ∀ e ∈ f n x, index e = n)
    (hnodup : ∀ n x, (f n x).Nodup) (n : ℕ) (xs : List α) : (listing f n xs).Nodup := by
  induction xs generalizing n with
  | nil => exact nodup_nil
  | cons x xs ih =>
    rw [listing_cons]
    refine (hnodup n x).append (ih (n + 1)) fun e he he' ↦ ?_
    obtain ⟨i, y, -, hin⟩ := mem_listing he'
    have := hindex _ _ _ he
    have := hindex _ _ _ hin
    omega

theorem length_listing {size : α → ℕ} (hsize : ∀ n x, (f n x).length = size x) (n : ℕ)
    (xs : List α) : (listing f n xs).length = (xs.map size).sum := by
  induction xs generalizing n with
  | nil => rfl
  | cons x xs ih => rw [listing_cons, length_append, hsize, ih, map_cons, sum_cons]

/-! ### Iterators -/

section iterators

variable {σ : Type*} {next : σ → Option (σ × Bool)} {read : σ → β}

/-- Calling `next` until it answers false stops at exactly these, in this order. -/
inductive Enumerates (next : σ → Option (σ × Bool)) (read : σ → β) : σ → List β → Prop
  | done {s s' : σ} (h : next s = some (s', false)) : Enumerates next read s []
  | more {s s' : σ} {rest : List β} (h : next s = some (s', true))
      (hrest : Enumerates next read s' rest) : Enumerates next read s (read s' :: rest)

theorem Enumerates.unique {s : σ} {l l' : List β} (h : Enumerates next read s l)
    (h' : Enumerates next read s l') : l = l' := by
  induction h generalizing l' with
  | done hnext =>
    cases h' with
    | done _ => rfl
    | more hnext' _ => cases hnext.symm.trans hnext'
  | more hnext _ ih =>
    cases h' with
    | done hnext' => cases hnext.symm.trans hnext'
    | more hnext' hrest' =>
      cases hnext.symm.trans hnext'
      rw [ih hrest']

/-- What one call does when `pending` is still to come. -/
inductive Takes (next : σ → Option (σ × Bool)) (read : σ → β) (Inv : σ → Prop)
    (pending : σ → List β) (s : σ) : Prop
  | done {s' : σ} (h : next s = some (s', false)) (hpending : pending s = [])
  | more {s' : σ} (h : next s = some (s', true)) (hinv : Inv s')
      (hpending : pending s = read s' :: pending s')

theorem enumerates_pending {Inv : σ → Prop} {pending : σ → List β}
    (htakes : ∀ s, Inv s → Takes next read Inv pending s) {s : σ} (hs : Inv s) :
    Enumerates next read s (pending s) := by
  induction hl : pending s generalizing s with
  | nil =>
    cases htakes s hs with
    | done h _ => exact .done h
    | more _ _ hpending => exact absurd (hl.symm.trans hpending) nofun
  | cons x rest ih =>
    cases htakes s hs with
    | done _ hpending => exact absurd (hl.symm.trans hpending) nofun
    | more h hinv hpending =>
      have hcons : x :: rest = read _ :: pending _ := hl.symm.trans hpending
      rw [(cons.inj hcons).1]
      exact .more h (ih hinv (cons.inj hcons).2.symm)

end iterators

/-!
## Ranges of lists

A list with some elements overwritten from a position on, and the reading of a range; writing back
what is there changes nothing, and a range is seen element by element.
-/

variable {β : Type*} {l xs ys : List β} {i j k : ℕ}

/-- The list with the elements from the position `i` on overwritten by `xs`. -/
def replaceRange (l : List β) (i : ℕ) (xs : List β) : List β :=
  l.take i ++ xs ++ l.drop (i + xs.length)

def readRange (l : List β) (i k : ℕ) : List β := (l.drop i).take k

theorem length_readRange (h : i + k ≤ l.length) : (readRange l i k).length = k := by
  rw [readRange, List.length_take, List.length_drop]
  omega

theorem replaceRange_nil (l : List β) (i : ℕ) : replaceRange l i [] = l := by
  simp [replaceRange]

theorem length_replaceRange (h : i + xs.length ≤ l.length) :
    (replaceRange l i xs).length = l.length := by
  rw [replaceRange, List.length_append, List.length_append, List.length_take, List.length_drop]
  omega

theorem getElem?_readRange (hj : j < k) : (readRange l i k)[j]? = l[i + j]? := by
  rw [readRange, List.getElem?_take_of_lt hj, List.getElem?_drop]

/-- The elements of a list that was written to. -/
theorem getElem?_replaceRange (h : i + xs.length ≤ l.length) (j : ℕ) :
    (replaceRange l i xs)[j]? = if i ≤ j ∧ j < i + xs.length then xs[j - i]? else l[j]? := by
  have htake : (l.take i).length = i := List.length_take_of_le (by omega)
  rw [replaceRange, List.append_assoc]
  by_cases hlt : j < i
  · rw [List.getElem?_append_left (by omega), List.getElem?_take_of_lt hlt, if_neg (by omega)]
  · rw [List.getElem?_append_right (by omega), htake]
    by_cases hin : j < i + xs.length
    · rw [List.getElem?_append_left (by omega), if_pos ⟨by omega, hin⟩]
    · rw [List.getElem?_append_right (by omega), List.getElem?_drop, if_neg (by omega)]
      congr 1
      omega

/-- Writing what is there changes nothing. -/
theorem replaceRange_self (h : readRange l i xs.length = xs) : replaceRange l i xs = l := by
  calc replaceRange l i xs
      = l.take i ++ readRange l i xs.length ++ l.drop (i + xs.length) := by rw [h, replaceRange]
    _ = l := by
      rw [readRange, List.append_assoc, ← List.drop_drop, List.take_append_drop,
        List.take_append_drop]

theorem replaceRange_append (hlen : i = xs.length) {zs : List β} (hk : zs.length = ys.length)
    (rest : List β) : replaceRange (xs ++ ys ++ rest) i zs = xs ++ zs ++ rest := by
  rw [replaceRange, hk, List.append_assoc xs ys, List.take_left' hlen.symm, ← List.append_assoc xs,
    List.drop_left' (by rw [List.length_append, hlen])]

end MicroFramework.Library
