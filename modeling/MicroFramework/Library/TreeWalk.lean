import Mathlib.Algebra.BigOperators.Group.List.Basic
import Mathlib.Data.UInt

/-!
# Walks in a tree of names

A walk from the root of a tree stays where it is, goes up or goes down to a name.  The place it
leads to is the list of names from the root; there is no way up from the root.
-/

namespace MicroFramework.Library

open List Option

variable {α : Type*}

inductive WalkStep (α : Type*) where
  | stay
  | up
  | down (name : α)

namespace WalkStep

def move : WalkStep α → List α → Option (List α)
  | stay, names => some names
  | up, names => if names = [] then none else some names.dropLast
  | down name, names => some (names ++ [name])

def isUp : WalkStep α → Bool
  | up => true
  | _ => false

def isDown : WalkStep α → Bool
  | down _ => true
  | _ => false

def cost (size : α → ℕ) : WalkStep α → ℕ
  | stay => 0
  | up => 0
  | down name => size name

end WalkStep

open WalkStep

def walk : List (WalkStep α) → List α → Option (List α)
  | [], names => some names
  | step :: steps, names => (step.move names).bind (walk steps)

variable {steps : List (WalkStep α)} {names result : List α}

theorem walk_cons {step : WalkStep α} :
    walk (step :: steps) names = some result ↔
      ∃ next, step.move names = some next ∧ walk steps next = some result := by
  rw [walk, bind_eq_some_iff]

theorem walk_map_down (names start : List α) :
    walk (names.map down) start = some (start ++ names) := by
  induction names generalizing start with
  | nil => rw [map_nil, walk, append_nil]
  | cons name names ih => rw [map_cons, walk, move, bind_some, ih, append_assoc, singleton_append]

/-- Every name of the place has been gone down to, or was there at the start. -/
theorem mem_of_walk (h : walk steps names = some result) :
    ∀ name ∈ result, name ∈ names ∨ down name ∈ steps := by
  induction steps generalizing names with
  | nil =>
    obtain rfl := some.inj h
    exact fun name hname ↦ .inl hname
  | cons step steps ih =>
    obtain ⟨next, hmove, hwalk⟩ := walk_cons.mp h
    intro name hname
    rcases ih hwalk name hname with hnext | hdown
    · cases step with
      | stay =>
        obtain rfl := some.inj hmove
        exact .inl hnext
      | up =>
        rw [move] at hmove
        split at hmove
        · cases hmove
        · obtain rfl := some.inj hmove
          exact .inl ((dropLast_sublist names).subset hnext)
      | down last =>
        obtain rfl := some.inj hmove
        rcases mem_append.mp hnext with hold | hlast
        · exact .inl hold
        · obtain rfl := mem_singleton.mp hlast
          exact .inr mem_cons_self
    · exact .inr (mem_cons_of_mem _ hdown)

/-- A walk never goes up more often than it has gone down. -/
theorem countP_up_le (h : walk steps names = some result) (k : ℕ) :
    (steps.take k).countP isUp ≤ names.length + (steps.take k).countP isDown := by
  induction steps generalizing names k with
  | nil => simp
  | cons step steps ih =>
    obtain ⟨next, hmove, hwalk⟩ := walk_cons.mp h
    cases k with
    | zero => simp
    | succ k =>
      have hrest := ih hwalk k
      rw [take_succ_cons, countP_cons, countP_cons]
      cases step with
      | stay =>
        obtain rfl := some.inj hmove
        simpa [isUp, isDown] using hrest
      | up =>
        rw [move] at hmove
        split at hmove
        · cases hmove
        · rename_i hne
          obtain rfl := some.inj hmove
          have hpos := length_pos_iff.mpr hne
          rw [length_dropLast] at hrest
          simp only [isUp, isDown, if_true, Bool.false_eq_true, if_false]
          omega
      | down last =>
        obtain rfl := some.inj hmove
        rw [length_append, length_singleton] at hrest
        simp only [isUp, isDown, if_true, Bool.false_eq_true, if_false]
        omega

theorem sum_dropLast_le (sizes : List ℕ) : sizes.dropLast.sum ≤ sizes.sum := by
  rcases eq_nil_or_concat sizes with rfl | ⟨sizes, last, rfl⟩
  · exact Nat.le_refl _
  · rw [concat_eq_append, dropLast_concat, sum_append]
    exact Nat.le_add_right _ _

/-- What going up does not raise, and going down by the size of the name at most, is bounded by the
sizes along the walk. -/
theorem measure_le_of_walk (size : α → ℕ) (measure : List α → ℕ)
    (hup : ∀ names, measure names.dropLast ≤ measure names)
    (hdown : ∀ names last, measure (names ++ [last]) ≤ measure names + size last)
    (h : walk steps names = some result) :
    measure result ≤ measure names + (steps.map (cost size)).sum := by
  induction steps generalizing names with
  | nil =>
    obtain rfl := some.inj h
    exact Nat.le_add_right _ _
  | cons step steps ih =>
    obtain ⟨next, hmove, hwalk⟩ := walk_cons.mp h
    have hrest := ih hwalk
    rw [map_cons, sum_cons]
    cases step with
    | stay =>
      obtain rfl := some.inj hmove
      rwa [cost, Nat.zero_add]
    | up =>
      rw [move] at hmove
      split at hmove
      · cases hmove
      · obtain rfl := some.inj hmove
        have hdrop := hup names
        rw [cost]
        omega
    | down last =>
      obtain rfl := some.inj hmove
      have happend := hdown names last
      rw [cost]
      omega

/-- The names of the place are no larger than those of the walk. -/
theorem sum_le_of_walk (size : α → ℕ) (h : walk steps names = some result) :
    (result.map size).sum ≤ (names.map size).sum + (steps.map (cost size)).sum := by
  refine measure_le_of_walk size (fun names ↦ (names.map size).sum) (fun names ↦ ?_)
    (fun names last ↦ ?_) h
  · rw [map_dropLast]
    exact sum_dropLast_le _
  · simp

/-- So are the names behind the first one, where the name that comes first costs nothing. -/
theorem tail_sum_le_of_walk (size : α → ℕ) (h : walk steps names = some result) :
    (result.tail.map size).sum ≤ (names.tail.map size).sum + (steps.map (cost size)).sum := by
  refine measure_le_of_walk size (fun names ↦ (names.tail.map size).sum) (fun names ↦ ?_)
    (fun names last ↦ ?_) h
  · rw [tail_dropLast, map_dropLast]
    exact sum_dropLast_le _
  · cases names <;> simp

end MicroFramework.Library
