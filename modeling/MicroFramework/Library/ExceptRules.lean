import Mathlib.Logic.Basic

/-!
# Computations that may fail

When a computation with errors gives a value, by its last operation.
-/

namespace MicroFramework.Library

universe u v

variable {ε : Type u} {α β : Type v}

theorem pure_eq_ok_iff {a b : α} : (pure a : Except ε α) = .ok b ↔ a = b :=
  ⟨Except.ok.inj, congrArg _⟩

theorem throw_ne_ok {e : ε} {b : α} : (throw e : Except ε α) ≠ .ok b := by
  intro h
  cases h

theorem error_ne_ok {e : ε} {b : α} : (.error e : Except ε α) ≠ .ok b := by
  intro h
  cases h

theorem bind_eq_ok_iff {m : Except ε α} {f : α → Except ε β} {b : β} :
    m >>= f = .ok b ↔ ∃ a, m = .ok a ∧ f a = .ok b := by
  cases m with
  | error e => exact iff_of_false (fun h ↦ by cases h) fun ⟨_, h, _⟩ ↦ by cases h
  | ok a => exact ⟨fun h ↦ ⟨a, rfl, h⟩, fun ⟨_, h, h'⟩ ↦ by cases h; exact h'⟩

theorem ite_eq_ok_iff {c : Prop} [Decidable c] {m m' : Except ε α} {a : α} :
    (if c then m else m') = .ok a ↔ c ∧ m = .ok a ∨ ¬ c ∧ m' = .ok a := by
  split
  · exact ⟨fun h ↦ .inl ⟨‹_›, h⟩, fun h ↦ h.elim And.right fun h ↦ absurd ‹_› h.1⟩
  · exact ⟨fun h ↦ .inr ⟨‹_›, h⟩, fun h ↦ h.elim (fun h ↦ absurd h.1 ‹_›) And.right⟩

end MicroFramework.Library
