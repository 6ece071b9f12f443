import Mathlib.Algebra.Order.Ring.Abs
import Mathlib.Tactic.Linarith
import Mathlib.Tactic.Ring
import MicroFramework.Arrays.Range

/-!
# The divider of the gradients

`DivHelper` counts `a * x / b` for `x = 0, 1, 2, …` with additions only.  An `int` that overflows
has no value.
-/

namespace MicroFramework.Graphics

open Arrays

/-- The value of an `int` expression. -/
def checked (z : ℤ) : Option ℤ := if IsInt32 z then some z else none

@[ext]
structure DivHelper where
  a : ℤ
  b : ℤ
  D : ℤ
  y : ℤ
  stride : ℤ
  DIncStride : ℤ
  DIncStridePlus1 : ℤ
  first : Bool
  deriving DecidableEq

namespace DivHelper

def reset (h : DivHelper) (initY : ℤ) : Option DivHelper := do
  let twiceA ← checked (2 * h.a)
  let twice ← checked (2 * h.stride)
  let odd ← checked (twice + 1)
  let product ← checked (h.b * odd)
  let D ← checked (twiceA - product)
  return { h with y := initY, D := D, first := true }

/-- The constructor.  For `b == 0` it leaves `stride` as it finds it. -/
def new (stale a b initY : ℤ) : Option DivHelper := do
  let stride := if b ≠ 0 then a.tdiv b else stale
  let product ← checked (b * stride)
  let rest ← checked (a - product)
  let DIncStride ← checked (2 * rest)
  let next ← checked (stride + 1)
  let product ← checked (b * next)
  let rest ← checked (a - product)
  let DIncStridePlus1 ← checked (2 * rest)
  reset ⟨a, b, 0, 0, stride, DIncStride, DIncStridePlus1, true⟩ initY

def next (h : DivHelper) : Option (ℤ × DivHelper) :=
  if h.first then
    if h.b = 0 then some (h.y, h) else some (h.y, { h with first := false })
  else if h.D > 0 then do
    let D ← checked (h.D + h.DIncStride)
    let y ← checked (h.y + h.stride)
    return (y, { h with D := D, y := y })
  else do
    let D ← checked (h.D + h.DIncStridePlus1)
    let step ← checked (h.stride + 1)
    let y ← checked (h.y + step)
    return (y, { h with D := D, y := y })

/-- What call `n` of `Next` returns, counted from zero. -/
def nth : ℕ → DivHelper → Option (ℤ × DivHelper)
  | 0, h => h.next
  | n + 1, h => h.next.bind fun p ↦ nth n p.2

/-- A helper of the gradient `a / b`, whatever was done with it. -/
inductive Built (a b : ℤ) : DivHelper → Prop
  | new {stale initY : ℤ} {h : DivHelper} : new stale a b initY = some h → Built a b h
  | next {h h' : DivHelper} {y : ℤ} : Built a b h → h.next = some (y, h') → Built a b h'
  | reset {h h' : DivHelper} {initY : ℤ} : Built a b h → h.reset initY = some h' → Built a b h'

/-- The helper was just made for the start `y₀`, or reset to it. -/
def Starts (a b y₀ : ℤ) (h : DivHelper) : Prop :=
  (∃ stale, new stale a b y₀ = some h) ∨ ∃ h₀, Built a b h₀ ∧ h₀.reset y₀ = some h

def WithinOne (a b y₀ : ℤ) (n : ℕ) (y : ℤ) : Prop := |b * (y - y₀) - a * n| ≤ b

instance (a b y₀ : ℤ) (n : ℕ) (y : ℤ) : Decidable (WithinOne a b y₀ n y) :=
  inferInstanceAs (Decidable (_ ≤ _))

variable {a b y₀ y c z w stale : ℤ} {h h' : DivHelper} {n : ℕ}

theorem checked_eq_some : checked z = some w ↔ IsInt32 z ∧ z = w := by
  simp [checked]

/-- The constants of the gradient are in place. -/
def Fixed (a b : ℤ) (h : DivHelper) : Prop :=
  ∃ D y first, h = ⟨a, b, D, y, a / b, 2 * (a - b * (a / b)), 2 * (a - b * (a / b + 1)), first⟩

/-- The step of a call behind the first one. -/
def step (h : DivHelper) : ℤ := if h.D > 0 then h.stride else h.stride + 1

theorem Fixed.reset (hfixed : Fixed a b h) (hreset : h.reset y₀ = some h') :
    Fixed a b h' ∧ h'.y = y₀ ∧ h'.first = true ∧ h'.D = 2 * a - b * (2 * (a / b) + 1) := by
  obtain ⟨D, y, first, rfl⟩ := hfixed
  simp only [DivHelper.reset, Option.bind_eq_bind, Option.bind_eq_some_iff,
    checked_eq_some] at hreset
  obtain ⟨_, ⟨-, rfl⟩, _, ⟨-, rfl⟩, _, ⟨-, rfl⟩, _, ⟨-, rfl⟩, _, ⟨-, rfl⟩, hreset⟩ := hreset
  cases hreset
  exact ⟨⟨_, _, _, rfl⟩, rfl, rfl, rfl⟩

theorem fixed_new (ha : 0 ≤ a) (hb : 0 < b) (hnew : new stale a b y₀ = some h) :
    ∃ h₀, Fixed a b h₀ ∧ h₀.reset y₀ = some h := by
  simp only [new, if_pos hb.ne', Int.tdiv_eq_ediv_of_nonneg ha, Option.bind_eq_bind,
    Option.bind_eq_some_iff, checked_eq_some] at hnew
  obtain ⟨_, ⟨-, rfl⟩, _, ⟨-, rfl⟩, _, ⟨-, rfl⟩, _, ⟨-, rfl⟩, _, ⟨-, rfl⟩, _, ⟨-, rfl⟩, _,
    ⟨-, rfl⟩, hnew⟩ := hnew
  exact ⟨_, ⟨_, _, _, rfl⟩, hnew⟩

/-- A call of `Next` behind the first one. -/
theorem next_step (hfirst : ¬ h.first = true) (hnext : h.next = some (y, h')) :
    y = h.y + h.step ∧
      h' = { h with D := h.D + (if h.D > 0 then h.DIncStride else h.DIncStridePlus1), y := y } := by
  unfold step
  rw [next, if_neg hfirst] at hnext
  split_ifs at hnext ⊢ <;>
    simp only [Option.bind_eq_bind, Option.bind_eq_some_iff, checked_eq_some] at hnext
  · obtain ⟨_, ⟨-, rfl⟩, _, ⟨-, rfl⟩, hnext⟩ := hnext
    cases hnext
    exact ⟨rfl, rfl⟩
  · obtain ⟨_, ⟨-, rfl⟩, _, ⟨-, rfl⟩, _, ⟨-, rfl⟩, hnext⟩ := hnext
    cases hnext
    exact ⟨rfl, rfl⟩

theorem Fixed.next (hfixed : Fixed a b h) (hnext : h.next = some (y, h')) : Fixed a b h' := by
  obtain ⟨D, y', first, rfl⟩ := hfixed
  cases first with
  | false =>
    rw [(next_step Bool.false_ne_true hnext).2]
    exact ⟨_, _, _, rfl⟩
  | true =>
    rw [DivHelper.next, if_pos rfl] at hnext
    split_ifs at hnext <;> cases hnext <;> exact ⟨_, _, _, rfl⟩

theorem Built.fixed (hbuilt : Built a b h) (ha : 0 ≤ a) (hb : 0 < b) : Fixed a b h := by
  induction hbuilt with
  | new hnew =>
    obtain ⟨h₀, hfixed, hreset⟩ := fixed_new ha hb hnew
    exact (hfixed.reset hreset).1
  | next _ hnext ih => exact ih.next hnext
  | reset _ hreset ih => exact (ih.reset hreset).1

/-- The sign of `D` stays in all calls, and with it the step. -/
theorem nth_steady (hfirst : ¬ h.first = true)
    (hsign : 0 < h.D ∧ 0 ≤ h.DIncStride ∨ h.D ≤ 0 ∧ h.DIncStridePlus1 ≤ 0)
    (hnth : h.nth n = some (y, h')) : y = h.y + (n + 1) * h.step := by
  induction n generalizing h with
  | zero =>
    rw [(next_step hfirst hnth).1]
    simp
  | succ n ih =>
    obtain ⟨⟨y₁, h₁⟩, hnext, hrest⟩ := Option.bind_eq_some_iff.mp hnth
    obtain ⟨rfl, rfl⟩ := next_step hfirst hnext
    rcases hsign with ⟨hpos, hinc⟩ | ⟨hneg, hinc⟩
    · have hpos' := Int.add_pos_of_pos_of_nonneg hpos hinc
      rw [if_pos hpos] at hrest
      have hsteps := fun hsign ↦ ih (by exact hfirst) hsign hrest
      rw [hsteps (.inl ⟨hpos', hinc⟩), step, step, if_pos hpos, if_pos hpos']
      push_cast
      ring
    · have hneg' := Int.add_nonpos hneg hinc
      rw [if_neg (not_lt.mpr hneg)] at hrest
      have hsteps := fun hsign ↦ ih (by exact hfirst) hsign hrest
      rw [hsteps (.inr ⟨hneg', hinc⟩), step, step, if_neg (not_lt.mpr hneg),
        if_neg (not_lt.mpr hneg')]
      push_cast
      ring

/-- A helper that starts takes the same step in all its calls: the smaller one where the exact
gradient is nearer to the larger one. -/
theorem nth_eq (hfixed : Fixed a b h) (hb : 0 < b) (hy : h.y = y₀) (hfirst : h.first = true)
    (hD : h.D = 2 * a - b * (2 * (a / b) + 1)) (hnth : h.nth n = some (y, h')) :
    y = y₀ + n * (if b < 2 * (a % b) then a / b else a / b + 1) := by
  have hmod := Int.mul_ediv_add_emod a b
  have hnonneg := Int.emod_nonneg a hb.ne'
  have hlt := Int.emod_lt_of_pos a hb
  obtain ⟨D, y', first, rfl⟩ := hfixed
  obtain ⟨rfl, rfl, rfl⟩ : y' = y₀ ∧ first = true ∧ D = 2 * a - b * (2 * (a / b) + 1) :=
    ⟨hy, hfirst, hD⟩
  cases n with
  | zero =>
    rw [nth, next, if_pos rfl, if_neg hb.ne'] at hnth
    cases hnth
    simp
  | succ n =>
    rw [nth, next, if_pos rfl, if_neg hb.ne'] at hnth
    rw [nth_steady Bool.false_ne_true ?_ hnth, step]
    · have hsign : 2 * a - b * (2 * (a / b) + 1) > 0 ↔ b < 2 * (a % b) := by
        constructor <;> intro <;> linarith
      simp only [hsign]
      push_cast
      rfl
    · dsimp only
      rw [mul_add, mul_add]
      by_cases hnear : b < 2 * (a % b)
      · exact .inl ⟨by linarith, by linarith⟩
      · exact .inr ⟨by linarith, by linarith⟩

/-- The error grows with every call. -/
theorem withinOne_iff (hb : 0 < b) :
    WithinOne a b y₀ n (y₀ + n * (if b < 2 * (a % b) then a / b else a / b + 1)) ↔
      n ≤ 1 ∨ n = 2 ∧ 2 * (a % b) = b := by
  have hmod := Int.mul_ediv_add_emod a b
  have hnonneg := Int.emod_nonneg a hb.ne'
  have hlt := Int.emod_lt_of_pos a hb
  generalize a % b = r at *
  generalize a / b = q at *
  have herror : b * (y₀ + n * (if b < 2 * r then q else q + 1) - y₀) - a * n =
      n * (if b < 2 * r then -r else b - r) := by
    rw [← hmod]
    split_ifs <;> ring
  obtain ⟨e, he, hhalf, hle, hexact⟩ : ∃ e, |if b < 2 * r then -r else b - r| = e ∧
      b ≤ 2 * e ∧ e ≤ b ∧ (2 * e ≤ b ↔ 2 * r = b) := by
    split_ifs with hnear
    · exact ⟨r, by rw [abs_neg, abs_of_nonneg hnonneg], by omega, hlt.le, by omega⟩
    · exact ⟨b - r, abs_of_nonneg (by omega), by omega, by omega, by omega⟩
  rw [WithinOne, herror, abs_mul, Nat.abs_cast, he]
  match n with
  | 0 => simp [hb.le]
  | 1 => simp [hle]
  | 2 => simp [hexact]
  | n + 3 =>
    refine iff_of_false (not_le.mpr ?_) (by omega)
    have hrest : 0 ≤ (n : ℤ) * e := mul_nonneg (Nat.cast_nonneg n) (by omega)
    push_cast
    linarith

/-- Where no `int` overflows, the value of a call is within one of the exact quotient in the first
two calls, in the third one where the quotient ends in one half, and never again. -/
theorem next_within_one (ha : 0 ≤ a) (hb : 0 < b) (hstart : Starts a b y₀ h)
    (hnth : h.nth n = some (y, h')) :
    WithinOne a b y₀ n y ↔ n ≤ 1 ∨ n = 2 ∧ 2 * (a % b) = b := by
  obtain ⟨h₀, hfixed, hreset⟩ : ∃ h₀, Fixed a b h₀ ∧ h₀.reset y₀ = some h := by
    cases hstart with
    | inl hnew => exact fixed_new ha hb hnew.choose_spec
    | inr hreset =>
      obtain ⟨h₀, hbuilt, hreset⟩ := hreset
      exact ⟨h₀, hbuilt.fixed ha hb, hreset⟩
  obtain ⟨hfixed, hy, hfirst, hD⟩ := hfixed.reset hreset
  rw [nth_eq hfixed hb hy hfirst hD hnth]
  exact withinOne_iff hb

/-- The gradient one quarter: the second value is 1, where the exact one is 0.25. -/
theorem next_within_one_quarter :
    ∃ h y h', new 0 1 4 0 = some h ∧ h.nth 1 = some (y, h') ∧ WithinOne 1 4 0 1 y :=
  ⟨_, _, _, rfl, rfl,
    (next_within_one (by decide) (by decide) (.inl ⟨0, rfl⟩) rfl).mpr (.inl le_rfl)⟩

/-- The fourth value is 3, where the exact one is 0.75. -/
theorem next_departs :
    ∃ h y h', new 0 1 4 0 = some h ∧ h.nth 3 = some (y, h') ∧ ¬ WithinOne 1 4 0 3 y :=
  ⟨_, _, _, rfl, rfl, by decide⟩

end DivHelper

end MicroFramework.Graphics
