import Mathlib.Data.List.Chain
import Mathlib.Tactic.Linarith
import Mathlib.Tactic.Ring
import MicroFramework.Arrays.Range

/-!
# The ellipse rasteriser

`EllipseAlgorithm` walks an octant of a circle, or two regions of a quadrant of an ellipse, with
decision variables that are updated by differences.  Every sum and product of the source is an
`int`: here the values are exact, and a turn in which one of them is no `int` has no result.
-/

namespace MicroFramework.Graphics

open Arrays

/-- The next state, if all values computed on the way are of type `int`. -/
def fits {α : Type} (values : List ℤ) (next : α) : Option α :=
  if ∀ v ∈ values, IsInt32 v then some next else none

/-! ## The circle -/

structure CircleState where
  x : ℤ
  y : ℤ
  p : ℤ
  deriving DecidableEq, Repr

/-- One turn of the loop, without the callbacks. -/
def circleTurn (s : CircleState) : Option CircleState :=
  if s.p < 0 then
    fits [s.x * 4, s.x * 4 + 6, s.p + (s.x * 4 + 6), s.x + 1]
      ⟨s.x + 1, s.y, s.p + (s.x * 4 + 6)⟩
  else
    fits [s.x - s.y, (s.x - s.y) * 4, (s.x - s.y) * 4 + 10, s.p + ((s.x - s.y) * 4 + 10), s.y - 1,
        s.x + 1]
      ⟨s.x + 1, s.y - 1, s.p + ((s.x - s.y) * 4 + 10)⟩

/-- The offsets of the octant, in at most so many turns. -/
def circleLoop : ℕ → CircleState → Option (List (ℤ × ℤ))
  | 0, s => if s.x ≤ s.y then none else some []
  | turns + 1, s =>
    if s.x ≤ s.y then
      (circleTurn s).bind fun next ↦ (circleLoop turns next).map fun offsets ↦ (s.x, s.y) :: offsets
    else some []

def circleCalls (offset : ℤ × ℤ) : List (ℤ × ℤ) :=
  if offset.1 < offset.2 then [offset, (offset.2, offset.1)] else [offset]

/-! ## The ellipse -/

structure UpperState where
  x : ℤ
  y : ℤ
  D : ℤ
  G : ℤ
  deltaE : ℤ
  deltaSE : ℤ
  deriving DecidableEq, Repr

/-- The constants and the variables in front of the first loop. -/
def upperStart (radiusX radiusY : ℤ) : Option UpperState :=
  let aSqr := radiusX * radiusX
  let bSqr := radiusY * radiusY
  let fourASqr := 4 * aSqr
  let fourBSqr := 4 * bSqr
  let eightASqr := 8 * aSqr
  let eightBSqr := 8 * bSqr
  fits [aSqr, bSqr, fourASqr, fourBSqr, eightASqr, eightBSqr, fourASqr * radiusY,
      fourBSqr - fourASqr * radiusY, fourBSqr - fourASqr * radiusY + aSqr, 2 * radiusY,
      2 * radiusY - 1, fourASqr * (2 * radiusY - 1), fourBSqr + eightBSqr, 1 - radiusY,
      eightASqr * (1 - radiusY), fourBSqr + eightBSqr + eightASqr * (1 - radiusY)]
    { x := 0, y := radiusY, D := fourBSqr - fourASqr * radiusY + aSqr,
      G := fourASqr * (2 * radiusY - 1), deltaE := fourBSqr + eightBSqr,
      deltaSE := fourBSqr + eightBSqr + eightASqr * (1 - radiusY) }

def upperTurn (radiusX radiusY : ℤ) (s : UpperState) : Option UpperState :=
  let eightASqr := 8 * (radiusX * radiusX)
  let eightBSqr := 8 * (radiusY * radiusY)
  if s.D < 0 then
    fits [s.D + s.deltaE, s.deltaE + eightBSqr, s.deltaSE + eightBSqr, s.G - eightBSqr, s.x + 1]
      { x := s.x + 1, y := s.y, D := s.D + s.deltaE, G := s.G - eightBSqr,
        deltaE := s.deltaE + eightBSqr, deltaSE := s.deltaSE + eightBSqr }
  else
    fits [s.D + s.deltaSE, s.deltaE + eightBSqr, eightBSqr + eightASqr,
        s.deltaSE + (eightBSqr + eightASqr), eightASqr + eightBSqr,
        s.G - (eightASqr + eightBSqr), s.y - 1, s.x + 1]
      { x := s.x + 1, y := s.y - 1, D := s.D + s.deltaSE, G := s.G - (eightASqr + eightBSqr),
        deltaE := s.deltaE + eightBSqr, deltaSE := s.deltaSE + (eightBSqr + eightASqr) }

/-- The offsets of the first loop and the variables behind it. -/
def upperLoop (radiusX radiusY : ℤ) : ℕ → UpperState → Option (List (ℤ × ℤ) × UpperState)
  | 0, s => if 0 < s.G then none else some ([], s)
  | turns + 1, s =>
    if 0 < s.G then
      (upperTurn radiusX radiusY s).bind fun next ↦
        (upperLoop radiusX radiusY turns next).map fun r ↦ ((next.x, next.y) :: r.1, r.2)
    else some ([], s)

structure LowerState where
  x : ℤ
  y : ℤ
  D : ℤ
  deltaS : ℤ
  deltaSE : ℤ
  deriving DecidableEq, Repr

/-- The variables in front of the second loop. -/
def lowerStart (radiusX radiusY : ℤ) (s : UpperState) : Option LowerState :=
  let aSqr := radiusX * radiusX
  let bSqr := radiusY * radiusY
  let fourASqr := 4 * aSqr
  let eightBSqr := 8 * bSqr
  fits [4 * s.y, 3 - 4 * s.y, aSqr * (3 - 4 * s.y), 4 * s.x, 3 + 4 * s.x, bSqr * (3 + 4 * s.x),
      aSqr * (3 - 4 * s.y) - bSqr * (3 + 4 * s.x),
      s.D + (aSqr * (3 - 4 * s.y) - bSqr * (3 + 4 * s.x)), -2 * s.y, -2 * s.y + 3,
      fourASqr * (-2 * s.y + 3), s.x + 1, eightBSqr * (s.x + 1),
      eightBSqr * (s.x + 1) + fourASqr * (-2 * s.y + 3)]
    { x := s.x, y := s.y, D := s.D + (aSqr * (3 - 4 * s.y) - bSqr * (3 + 4 * s.x)),
      deltaS := fourASqr * (-2 * s.y + 3),
      deltaSE := eightBSqr * (s.x + 1) + fourASqr * (-2 * s.y + 3) }

def lowerTurn (radiusX radiusY : ℤ) (s : LowerState) : Option LowerState :=
  let eightASqr := 8 * (radiusX * radiusX)
  let eightBSqr := 8 * (radiusY * radiusY)
  if s.D < 0 then
    fits [s.D + s.deltaSE, s.deltaS + eightASqr, eightASqr + eightBSqr,
        s.deltaSE + (eightASqr + eightBSqr), s.x + 1, s.y - 1]
      { x := s.x + 1, y := s.y - 1, D := s.D + s.deltaSE, deltaS := s.deltaS + eightASqr,
        deltaSE := s.deltaSE + (eightASqr + eightBSqr) }
  else
    fits [s.D + s.deltaS, s.deltaS + eightASqr, s.deltaSE + eightASqr, s.y - 1]
      { x := s.x, y := s.y - 1, D := s.D + s.deltaS, deltaS := s.deltaS + eightASqr,
        deltaSE := s.deltaSE + eightASqr }

def lowerLoop (radiusX radiusY : ℤ) : ℕ → LowerState → Option (List (ℤ × ℤ))
  | 0, s => if 0 < s.y then none else some []
  | turns + 1, s =>
    if 0 < s.y then
      (lowerTurn radiusX radiusY s).bind fun next ↦
        (lowerLoop radiusX radiusY turns next).map fun offsets ↦ (next.x, next.y) :: offsets
    else some []

/-- `Graphics_Driver::EllipseAlgorithm`: the offsets that are handed to the callback, if no loop
takes more turns than given and all values are of type `int`. -/
def ellipseAlgorithm (turns : ℕ) (radiusX radiusY : ℤ) : Option (List (ℤ × ℤ)) :=
  if radiusX ≤ 0 ∨ radiusY ≤ 0 then some []
  else if radiusX = radiusY then do
    let s ← fits [radiusX * 2, 3 - radiusX * 2] (CircleState.mk 0 radiusX (3 - radiusX * 2))
    let octant ← circleLoop turns s
    some (octant.flatMap circleCalls)
  else do
    let s ← upperStart radiusX radiusY
    let (upper, s) ← upperLoop radiusX radiusY turns s
    let s ← lowerStart radiusX radiusY s
    let lower ← lowerLoop radiusX radiusY turns s
    some ((0, radiusY) :: (upper ++ lower))

/-!
## The path of the ellipse rasteriser

The decision variables are values of the quadratic form of the ellipse at midpoints.  With that, an
invariant of each loop keeps the offsets in the quadrant, and bounds all values that are computed.
-/

theorem fits_eq_some_iff {α : Type} {values : List ℤ} {next s : α} :
    fits values next = some s ↔ (∀ v ∈ values, IsInt32 v) ∧ next = s := by
  unfold fits
  split
  · rw [Option.some.injEq]
    exact (and_iff_right ‹_›).symm
  · exact iff_of_false (fun h ↦ by cases h) fun h ↦ absurd h.1 ‹_›

theorem fits_of_forall {α : Type} {values : List ℤ} {next : α} (h : values.Forall IsInt32) :
    fits values next = some next :=
  fits_eq_some_iff.mpr ⟨List.forall_iff_forall_mem.mp h, rfl⟩

/-! ## Paths -/

/-- Two offsets next to each other, also diagonally. -/
def Neighbours (p q : ℤ × ℤ) : Prop := |q.1 - p.1| ≤ 1 ∧ |q.2 - p.2| ≤ 1 ∧ p ≠ q

def InQuadrant (a b : ℤ) (p : ℤ × ℤ) : Prop := (0 ≤ p.1 ∧ p.1 ≤ a) ∧ 0 ≤ p.2 ∧ p.2 ≤ b

/-- From `first` over the offsets of `path`, which ends at `last`. -/
structure IsPath (a b : ℤ) (first : ℤ × ℤ) (path : List (ℤ × ℤ)) (last : ℤ × ℤ) : Prop where
  neighbours : List.IsChain Neighbours (first :: path)
  inside : ∀ p ∈ first :: path, InQuadrant a b p
  ends : (first :: path).getLast (List.cons_ne_nil _ _) = last

theorem IsPath.nil {a b : ℤ} {p : ℤ × ℤ} (h : InQuadrant a b p) : IsPath a b p [] p :=
  ⟨List.isChain_singleton p, List.forall_mem_singleton.mpr h, rfl⟩

theorem IsPath.cons {a b : ℤ} {p q last : ℤ × ℤ} {path : List (ℤ × ℤ)} (hp : InQuadrant a b p)
    (hpq : Neighbours p q) (h : IsPath a b q path last) : IsPath a b p (q :: path) last := by
  refine ⟨List.isChain_cons_cons.mpr ⟨hpq, h.neighbours⟩,
    List.forall_mem_cons.mpr ⟨hp, h.inside⟩, ?_⟩
  rw [List.getLast_cons (List.cons_ne_nil _ _)]
  exact h.ends

theorem IsPath.append {a b : ℤ} {p q last : ℤ × ℤ} {path path' : List (ℤ × ℤ)}
    (h : IsPath a b p path q) (h' : IsPath a b q path' last) :
    IsPath a b p (path ++ path') last := by
  induction path generalizing p with
  | nil =>
    obtain rfl : p = q := h.ends
    exact h'
  | cons r path ih =>
    obtain ⟨hchain, hinside, hends⟩ := h
    rw [List.isChain_cons_cons] at hchain
    rw [List.forall_mem_cons] at hinside
    rw [List.getLast_cons (List.cons_ne_nil _ _)] at hends
    exact IsPath.cons hinside.1 hchain.1 (ih ⟨hchain.2, hinside.2, hends⟩)

/-! ## The quadratic form -/

/-- Four times the form below the offset by half a pixel. -/
def inner (a b x y : ℤ) : ℤ :=
  4 * (b * b) * (x * x) + a * a * ((2 * y - 1) * (2 * y - 1)) - 4 * (a * a) * (b * b)

/-- Four times the form above the offset by half a pixel. -/
def outer (a b x y : ℤ) : ℤ :=
  4 * (b * b) * (x * x) + a * a * ((2 * y + 1) * (2 * y + 1)) - 4 * (a * a) * (b * b)

/-- Four times the form right of the offset by half a pixel. -/
def right (a b x y : ℤ) : ℤ :=
  b * b * ((2 * x + 1) * (2 * x + 1)) + 4 * (a * a) * (y * y) - 4 * (a * a) * (b * b)

/-- The variables of the first loop at an offset. -/
def upperAt (a b x y : ℤ) : UpperState where
  x := x
  y := y
  D := inner a b (x + 1) y
  G := 4 * (a * a) * (2 * y - 1) - 8 * (b * b) * x
  deltaE := 4 * (b * b) * (2 * x + 3)
  deltaSE := 4 * (b * b) * (2 * x + 3) - 8 * (a * a) * (y - 1)

/-- The variables of the second loop at an offset. -/
def lowerAt (a b x y : ℤ) : LowerState where
  x := x
  y := y
  D := right a b x (y - 1)
  deltaS := 4 * (a * a) * (3 - 2 * y)
  deltaSE := 8 * (b * b) * (x + 1) + 4 * (a * a) * (3 - 2 * y)

/-- Where the first loop goes from an offset. -/
def upperNext (a b x y : ℤ) : ℤ := if inner a b (x + 1) y < 0 then y else y - 1

/-- Where the second loop goes from an offset. -/
def lowerNext (a b x y : ℤ) : ℤ := if right a b x (y - 1) < 0 then x + 1 else x

theorem upperTurn_upperAt (a b x y : ℤ) :
    upperTurn a b (upperAt a b x y) =
      if inner a b (x + 1) y < 0 then
        fits [inner a b (x + 2) y, 4 * (b * b) * (2 * x + 5),
            4 * (b * b) * (2 * x + 5) - 8 * (a * a) * (y - 1),
            4 * (a * a) * (2 * y - 1) - 8 * (b * b) * (x + 1), x + 1]
          (upperAt a b (x + 1) y)
      else
        fits [inner a b (x + 2) (y - 1), 4 * (b * b) * (2 * x + 5), 8 * (b * b) + 8 * (a * a),
            4 * (b * b) * (2 * x + 5) - 8 * (a * a) * (y - 2), 8 * (a * a) + 8 * (b * b),
            4 * (a * a) * (2 * y - 3) - 8 * (b * b) * (x + 1), y - 1, x + 1]
          (upperAt a b (x + 1) (y - 1)) := by
  have hE : inner a b (x + 1) y + 4 * (b * b) * (2 * x + 3) = inner a b (x + 2) y := by
    unfold inner
    ring
  have hSE : inner a b (x + 1) y + (4 * (b * b) * (2 * x + 3) - 8 * (a * a) * (y - 1)) =
      inner a b (x + 2) (y - 1) := by
    unfold inner
    ring
  unfold upperTurn upperAt
  dsimp only
  rw [hE, hSE]
  split <;> congr 1 <;> ring_nf

theorem lowerTurn_lowerAt (a b x y : ℤ) :
    lowerTurn a b (lowerAt a b x y) =
      if right a b x (y - 1) < 0 then
        fits [right a b (x + 1) (y - 2), 4 * (a * a) * (5 - 2 * y), 8 * (a * a) + 8 * (b * b),
            8 * (b * b) * (x + 2) + 4 * (a * a) * (5 - 2 * y), x + 1, y - 1]
          (lowerAt a b (x + 1) (y - 1))
      else
        fits [right a b x (y - 2), 4 * (a * a) * (5 - 2 * y),
            8 * (b * b) * (x + 1) + 4 * (a * a) * (5 - 2 * y), y - 1]
          (lowerAt a b x (y - 1)) := by
  have hSE : right a b x (y - 1) + (8 * (b * b) * (x + 1) + 4 * (a * a) * (3 - 2 * y)) =
      right a b (x + 1) (y - 2) := by
    unfold right
    ring
  have hS : right a b x (y - 1) + 4 * (a * a) * (3 - 2 * y) = right a b x (y - 2) := by
    unfold right
    ring
  unfold lowerTurn lowerAt
  dsimp only
  rw [hS, hSE]
  split <;> congr 1 <;> ring_nf

end MicroFramework.Graphics
