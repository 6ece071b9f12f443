import MicroFramework.Graphics.EllipseRegions

/-!
# The octant of the circle

The decision variable is twice the form of the circle, summed over the two offsets the next turn
chooses from.  The distance from the diagonal shrinks after the first turn that goes down; that
turn decides which radii overflow.
-/

namespace MicroFramework.Graphics

open Arrays Option

/-- The sum of the form at the two candidates of the next column. -/
def circleForm (r x y : ℤ) : ℤ := 2 * ((x + 1) * (x + 1)) + y * y + (y - 1) * (y - 1) - 2 * (r * r)

/-- The variables of the loop at an offset. -/
def circleAt (r x y : ℤ) : CircleState where
  x := x
  y := y
  p := circleForm r x y

/-- Where the loop goes from an offset. -/
def circleNext (r x y : ℤ) : ℤ := if circleForm r x y < 0 then y else y - 1

/-- The largest radius the circle can be drawn with. -/
def circleLimit : ℤ := 2 ^ 29 + 23170

theorem circleTurn_circleAt (r x y : ℤ) :
    circleTurn (circleAt r x y) =
      if circleForm r x y < 0 then
        fits [x * 4, x * 4 + 6, circleForm r (x + 1) y, x + 1] (circleAt r (x + 1) y)
      else
        fits [x - y, (x - y) * 4, (x - y) * 4 + 10, circleForm r (x + 1) (y - 1), y - 1, x + 1]
          (circleAt r (x + 1) (y - 1)) := by
  have hE : circleForm r x y + (x * 4 + 6) = circleForm r (x + 1) y := by
    unfold circleForm
    ring
  have hSE : circleForm r x y + ((x - y) * 4 + 10) = circleForm r (x + 1) (y - 1) := by
    unfold circleForm
    ring
  unfold circleTurn circleAt
  dsimp only
  rw [hE, hSE]

variable {r x y : ℤ}

theorem circleTurn_eq_some {s : CircleState}
    (h : circleTurn (circleAt r x y) = some s) : s = circleAt r (x + 1) (circleNext r x y) := by
  rw [circleTurn_circleAt] at h
  unfold circleNext
  split at h <;> rename_i hp
  · rw [if_pos hp]
    exact (fits_eq_some_iff.mp h).2.symm
  · rw [if_neg hp]
    exact (fits_eq_some_iff.mp h).2.symm

/-! ## The path -/

/-- A list of offsets that starts at the given one, if it is not empty. -/
structure IsOctant (r x y : ℤ) (offsets : List (ℤ × ℤ)) : Prop where
  neighbours : List.IsChain Neighbours offsets
  inside : ∀ p ∈ offsets, InQuadrant r r p
  starts : ∀ p ∈ offsets.head?, p = (x, y)

theorem IsOctant.nil (r x y : ℤ) : IsOctant r x y [] :=
  ⟨List.isChain_nil, fun _ h ↦ absurd h List.not_mem_nil, fun _ h ↦ by cases h⟩

theorem IsOctant.cons {x' y' : ℤ} {offsets : List (ℤ × ℤ)} (hin : InQuadrant r r (x, y))
    (hnext : Neighbours (x, y) (x', y')) (h : IsOctant r x' y' offsets) :
    IsOctant r x y ((x, y) :: offsets) where
  neighbours := h.neighbours.cons fun p hp ↦ by rw [h.starts p hp]; exact hnext
  inside := List.forall_mem_cons.mpr ⟨hin, h.inside⟩
  starts := fun p hp ↦ (mem_some.mp hp).symm

theorem neighbours_circleNext (r x y : ℤ) : Neighbours (x, y) (x + 1, circleNext r x y) := by
  refine ⟨by norm_num, ?_, fun h ↦ by simpa using congrArg Prod.fst h⟩
  unfold circleNext
  split <;> norm_num

theorem circleNext_le (r x y : ℤ) : circleNext r x y ≤ y := by
  unfold circleNext
  split <;> omega

theorem circleLoop_spec : ∀ (turns : ℕ) {x y : ℤ} {offsets : List (ℤ × ℤ)}, 0 ≤ x → y ≤ r →
    circleLoop turns (circleAt r x y) = some offsets → IsOctant r x y offsets
  | 0, x, y, offsets, _, _, h => by
    unfold circleLoop at h
    split at h
    · cases h
    · cases h
      exact IsOctant.nil r x y
  | turns + 1, x, y, offsets, hx, hy, h => by
    unfold circleLoop at h
    split at h <;> rename_i hxy
    · rw [bind_eq_some_iff] at h
      obtain ⟨next, hturn, hrest⟩ := h
      obtain rfl := circleTurn_eq_some hturn
      rw [map_eq_some_iff] at hrest
      obtain ⟨rest, hloop, rfl⟩ := hrest
      have hxy : x ≤ y := hxy
      have hrest := circleLoop_spec turns (by omega) ((circleNext_le r x y).trans hy) hloop
      exact hrest.cons ⟨⟨hx, hxy.trans hy⟩, hx.trans hxy, hy⟩ (neighbours_circleNext r x y)
    · cases h
      exact IsOctant.nil r x y

/-! ## The radii that fit -/

/-- Where the loop can be, for a radius up to the limit. -/
structure InOctant (r x y : ℤ) : Prop where
  x_nonneg : 0 ≤ x
  y_le : y ≤ r
  form_le : x ≤ y → circleForm r x y ≤ 4 * x + 12
  form_ge : -(2 ^ 31) ≤ circleForm r x y
  near : y = r ∨ y - x < 2 ^ 29

/-- A turn that goes down is not too far from the diagonal. -/
theorem InOctant.distance (hr : r ≤ circleLimit) (h : InOctant r x y)
    (hp : ¬circleForm r x y < 0) : y - x ≤ 2 ^ 29 := by
  obtain ⟨hx, -, -, -, rfl | hnear⟩ := h
  · unfold circleForm at hp
    unfold circleLimit at hr
    by_contra hfar
    have hfar : 2 ^ 29 + x + 1 ≤ y := by omega
    have hx : x + 1 ≤ 23170 := by omega
    have := mul_self_le_mul_self (by omega) hx
    linarith
  · exact hnear.le

theorem InOctant.x_le (hr : r ≤ circleLimit) (hr0 : 0 < r) (h : InOctant r x y)
    (hxy : x ≤ y) : x < 2 ^ 29 - 23170 := by
  have hle := h.form_le hxy
  have hx := h.x_nonneg
  unfold circleForm at hle
  unfold circleLimit at hr
  by_contra hge
  rw [not_lt] at hge
  have h1 := mul_self_le_mul_self hx hxy
  have h2 : (x - 1) * (x - 1) ≤ (y - 1) * (y - 1) := mul_self_le_mul_self (by omega) (by omega)
  have h3 := mul_self_le_mul_self hr0.le hr
  have h4 : (2 ^ 29 - 23170) * x ≤ x * x := mul_le_mul_of_nonneg_right hge hx
  linarith

theorem circleTurn_fits (hr : r ≤ circleLimit) (hr0 : 0 < r) (h : InOctant r x y) (hxy : x ≤ y) :
    circleTurn (circleAt r x y) = some (circleAt r (x + 1) (circleNext r x y)) ∧
      InOctant r (x + 1) (circleNext r x y) := by
  have hdist := h.distance hr
  have hx := h.x_le hr hr0 hxy
  obtain ⟨hx0, hyr, hle, hge, hnear⟩ := h
  have hle := hle hxy
  have hlim : r < 2 ^ 30 := lt_of_le_of_lt hr (by norm_num [circleLimit])
  rw [circleTurn_circleAt]
  unfold circleNext
  split <;> rename_i hp
  · have hE : circleForm r (x + 1) y = circleForm r x y + (4 * x + 6) := by
      unfold circleForm
      ring
    exact ⟨fits_of_forall ⟨⟨by omega, by omega⟩, ⟨by omega, by omega⟩, ⟨by omega, by omega⟩,
      by omega, by omega⟩, by omega, hyr, fun _ ↦ by omega, by omega, by omega⟩
  · have hSE : circleForm r (x + 1) (y - 1) = circleForm r x y + (4 * (x - y) + 10) := by
      unfold circleForm
      ring
    have hdist := hdist hp
    exact ⟨fits_of_forall ⟨⟨by omega, by omega⟩, ⟨by omega, by omega⟩, ⟨by omega, by omega⟩,
      ⟨by omega, by omega⟩, ⟨by omega, by omega⟩, by omega, by omega⟩,
      by omega, by omega, fun _ ↦ by omega, by omega, by omega⟩

theorem circleLoop_fits (hr : r ≤ circleLimit) (hr0 : 0 < r) : ∀ (turns : ℕ) {x y : ℤ},
    InOctant r x y → y < x + turns → ∃ offsets, circleLoop turns (circleAt r x y) = some offsets
  | 0, x, y, h, hturns => by
    unfold circleLoop
    exact ⟨_, if_neg (not_le.mpr (by simpa using hturns : y < x))⟩
  | turns + 1, x, y, h, hturns => by
    unfold circleLoop
    by_cases hxy : (circleAt r x y).x ≤ (circleAt r x y).y
    · obtain ⟨hturn, hin⟩ := circleTurn_fits hr hr0 h hxy
      have hle := circleNext_le r x y
      rw [if_pos hxy, hturn, bind_some]
      obtain ⟨offsets, hoffsets⟩ := circleLoop_fits hr hr0 turns hin (by push_cast at hturns; omega)
      rw [hoffsets]
      exact ⟨_, rfl⟩
    · exact ⟨_, if_neg hxy⟩

/-- On the top row the loop goes straight on, until it is as far as the root of the radius. -/
theorem le_circleLimit_of_circleLoop : ∀ (turns : ℕ) {x : ℤ} {offsets : List (ℤ × ℤ)},
    0 ≤ x → x * x < r → circleLoop turns (circleAt r x r) = some offsets → r ≤ circleLimit
  | 0, x, offsets, hx, hxr, h => by
    have hle : x ≤ r := by nlinarith
    unfold circleLoop at h
    rw [if_pos (show (circleAt r x r).x ≤ (circleAt r x r).y from hle)] at h
    cases h
  | turns + 1, x, offsets, hx, hxr, h => by
    have hle : x ≤ r := by nlinarith
    unfold circleLoop at h
    rw [if_pos (show (circleAt r x r).x ≤ (circleAt r x r).y from hle),
      bind_eq_some_iff] at h
    obtain ⟨next, hturn, hrest⟩ := h
    rw [map_eq_some_iff] at hrest
    obtain ⟨rest, hloop, -⟩ := hrest
    have hnext := circleTurn_eq_some hturn
    rw [circleTurn_circleAt] at hturn
    unfold circleNext at hnext
    split at hturn <;> rename_i hp
    · rw [if_pos hp] at hnext
      subst hnext
      refine le_circleLimit_of_circleLoop turns (by omega) ?_ hloop
      unfold circleForm at hp
      linarith
    · have hfit := (fits_eq_some_iff.mp hturn).1 ((x - r) * 4) (by simp)
      have hfar : r - 2 ^ 29 ≤ x := by linarith [hfit.1]
      unfold circleLimit
      by_contra hgt
      have hsq := mul_self_le_mul_self (by omega) hfar
      have hroot := mul_le_mul_of_nonneg_right (by omega : 23171 ≤ r - 2 ^ 29)
        (by omega : 0 ≤ r - 2 ^ 29)
      linarith

/-!
## What the ellipse rasteriser draws without overflow

A drawing is a path in the quadrant from the top to the right.  The rasteriser makes one exactly
for the radii that keep its increments, which grow with the cube of the radii, in the range.
-/

/-- The rasteriser stops, computes no value that is too large, and hands out offsets of the
quadrant: for an ellipse a path from the top to the axis, for a circle the path of an octant with
its reflection. -/
def Rasterised (radiusX radiusY : ℤ) : Prop :=
  ∃ turns offsets, ellipseAlgorithm turns radiusX radiusY = some offsets ∧
    (∀ p ∈ offsets, InQuadrant radiusX radiusY p) ∧
    offsets.head? = some (0, radiusY) ∧
    (radiusX ≠ radiusY → offsets.IsChain Neighbours ∧ ∃ x, offsets.getLast? = some (x, 0)) ∧
    (radiusX = radiusY → ∃ octant : List (ℤ × ℤ),
      offsets = octant.flatMap circleCalls ∧ octant.IsChain Neighbours)

/-- The radii that can be drawn. -/
def RadiiFit (radiusX radiusY : ℤ) : Prop :=
  if radiusX = radiusY then radiusX ≤ circleLimit else EllipseFits radiusX radiusY

/-! ## Circles -/

variable {r a b : ℤ}

theorem circleStart : CircleState.mk 0 r (3 - r * 2) = circleAt r 0 r := by
  unfold circleAt circleForm
  congr 1
  ring

theorem ellipseAlgorithm_circle (turns : ℕ) (hr : 0 < r) :
    ellipseAlgorithm turns r r =
      (fits [r * 2, 3 - r * 2] (circleAt r 0 r)).bind fun s ↦
        (circleLoop turns s).bind fun octant ↦ some (octant.flatMap circleCalls) := by
  unfold ellipseAlgorithm
  rw [if_neg (by omega), if_pos rfl, circleStart]
  rfl

theorem inQuadrant_circleCalls {octant : List (ℤ × ℤ)}
    (h : ∀ p ∈ octant, InQuadrant r r p) : ∀ p ∈ octant.flatMap circleCalls, InQuadrant r r p := by
  intro p hp
  rw [List.mem_flatMap] at hp
  obtain ⟨q, hq, hp⟩ := hp
  have hin := h q hq
  unfold circleCalls at hp
  split at hp
  · rw [List.mem_cons, List.mem_singleton] at hp
    obtain rfl | rfl := hp
    · exact hin
    · exact ⟨hin.2, hin.1⟩
  · rw [List.mem_singleton] at hp
    exact hp ▸ hin

theorem head_circleCalls {rest : List (ℤ × ℤ)} :
    (((0, r) :: rest).flatMap circleCalls).head? = some (0, r) := by
  rw [List.flatMap_cons]
  unfold circleCalls
  split <;> rfl

/-- The first offset of the octant is the top. -/
theorem circleLoop_head (turns : ℕ) {octant : List (ℤ × ℤ)} (hr : 0 < r)
    (h : circleLoop turns (circleAt r 0 r) = some octant) : ∃ rest, octant = (0, r) :: rest := by
  have hxy : (circleAt r 0 r).x ≤ (circleAt r 0 r).y := hr.le
  cases turns with
  | zero =>
    unfold circleLoop at h
    rw [if_pos hxy] at h
    cases h
  | succ turns =>
    unfold circleLoop at h
    rw [if_pos hxy, Option.bind_eq_some_iff] at h
    obtain ⟨next, -, hrest⟩ := h
    rw [Option.map_eq_some_iff] at hrest
    obtain ⟨rest, -, rfl⟩ := hrest
    exact ⟨rest, rfl⟩

theorem rasterised_circle_iff (hr : 0 < r) : Rasterised r r ↔ r ≤ circleLimit := by
  constructor
  · rintro ⟨turns, offsets, hrun, -⟩
    rw [ellipseAlgorithm_circle turns hr, Option.bind_eq_some_iff] at hrun
    obtain ⟨s, hstart, hrun⟩ := hrun
    obtain rfl := (fits_eq_some_iff.mp hstart).2
    rw [Option.bind_eq_some_iff] at hrun
    obtain ⟨octant, hloop, -⟩ := hrun
    exact le_circleLimit_of_circleLoop turns (le_refl 0) (by linarith) hloop
  · intro hle
    have hform : circleForm r 0 r = 3 - 2 * r := by
      unfold circleForm
      ring
    have hlim : circleLimit < 2 ^ 30 := by norm_num [circleLimit]
    have hin : InOctant r 0 r := ⟨le_refl 0, le_refl r, fun _ ↦ by omega, by omega, Or.inl rfl⟩
    obtain ⟨octant, hloop⟩ := circleLoop_fits hle hr (r.toNat + 1) hin (by omega)
    have hoct := circleLoop_spec (r.toNat + 1) (le_refl 0) (le_refl r) hloop
    obtain ⟨rest, rfl⟩ := circleLoop_head (r.toNat + 1) hr hloop
    refine ⟨r.toNat + 1, _, ?_, inQuadrant_circleCalls hoct.inside, head_circleCalls,
      fun h ↦ absurd rfl h, fun _ ↦ ⟨_, rfl, hoct.neighbours⟩⟩
    have hstart : fits [r * 2, 3 - r * 2] (circleAt r 0 r) = some (circleAt r 0 r) :=
      fits_of_forall ⟨⟨by omega, by omega⟩, by omega, by omega⟩
    rw [ellipseAlgorithm_circle _ hr, hstart, Option.bind_some, hloop, Option.bind_some]

/-! ## Ellipses -/

theorem ellipseAlgorithm_ellipse (turns : ℕ) (ha : 0 < a) (hb : 0 < b) (hab : a ≠ b) :
    ellipseAlgorithm turns a b =
      (upperStart a b).bind fun s ↦ (upperLoop a b turns s).bind fun r ↦
        (lowerStart a b r.2).bind fun t ↦ (lowerLoop a b turns t).bind fun lower ↦
          some ((0, b) :: (r.1 ++ lower)) := by
  unfold ellipseAlgorithm
  rw [if_neg (by omega), if_neg hab]
  rfl

/-- The start of the regions, and what it computes. -/
theorem upperStart_eq_some {s : UpperState} (h : upperStart a b = some s) :
    s = upperAt a b 0 b ∧ 4 * (a * a) * (2 * b - 1) < 2 ^ 31 := by
  obtain ⟨hfit, rfl⟩ := fits_eq_some_iff.mp h
  refine ⟨?_, (hfit (4 * (a * a) * (2 * b - 1)) (by simp)).2⟩
  unfold upperAt inner
  ring_nf

theorem lowerStart_eq_some {x y : ℤ} {t : LowerState}
    (h : lowerStart a b (upperAt a b x y) = some t) :
    t = lowerAt a b x y ∧ IsInt32 (lowerAt a b x y).deltaSE := by
  obtain ⟨hfit, rfl⟩ := fits_eq_some_iff.mp h
  have hdelta := hfit (8 * (b * b) * (x + 1) + 4 * (a * a) * (-2 * y + 3)) (by simp [upperAt])
  constructor
  · unfold upperAt lowerAt right inner
    ring_nf
  · rwa [show (lowerAt a b x y).deltaSE = 8 * (b * b) * (x + 1) + 4 * (a * a) * (-2 * y + 3) by
      unfold lowerAt; ring]

theorem first_lt_of_upperLoop (turns : ℕ) {r : List (ℤ × ℤ) × UpperState} (ha : 0 < a)
    (hb : 0 < b) (h : upperLoop a b turns (upperAt a b 0 b) = some r) : 20 * (b * b) < 2 ^ 31 := by
  have hg : 0 < (upperAt a b 0 b).G := by
    have : 0 < a * a * (2 * b - 1) := mul_pos (mul_pos ha ha) (by omega)
    unfold upperAt
    dsimp only
    linarith
  cases turns with
  | zero =>
    unfold upperLoop at h
    rw [if_pos hg] at h
    cases h
  | succ turns =>
    unfold upperLoop at h
    rw [if_pos hg, Option.bind_eq_some_iff] at h
    obtain ⟨next, hturn, -⟩ := h
    rw [upperTurn_upperAt] at hturn
    have hdelta : IsInt32 (4 * (b * b) * (2 * 0 + 5)) := by
      split at hturn
      · exact (fits_eq_some_iff.mp hturn).1 _ (by simp)
      · exact (fits_eq_some_iff.mp hturn).1 _ (by simp)
    linarith [hdelta.2]

theorem rasterised_ellipse_iff (ha : 0 < a) (hb : 0 < b) (hab : a ≠ b) :
    Rasterised a b ↔ EllipseFits a b := by
  constructor
  · rintro ⟨turns, offsets, hrun, -⟩
    rw [ellipseAlgorithm_ellipse turns ha hb hab, Option.bind_eq_some_iff] at hrun
    obtain ⟨s, hstart, hrun⟩ := hrun
    obtain ⟨rfl, hgradient⟩ := upperStart_eq_some hstart
    rw [Option.bind_eq_some_iff] at hrun
    obtain ⟨⟨upper, s⟩, hupper, hrun⟩ := hrun
    have hfirst := first_lt_of_upperLoop turns ha hb hupper
    obtain ⟨x, y, rfl, hin, hg, -⟩ := upperLoop_spec ha turns (inUpper_start ha hb) hupper
    rw [Option.bind_eq_some_iff] at hrun
    obtain ⟨t, hmeet, hrun⟩ := hrun
    obtain ⟨rfl, hdelta⟩ := lowerStart_eq_some hmeet
    rw [Option.bind_eq_some_iff] at hrun
    obtain ⟨lower, hlower, -⟩ := hrun
    obtain ⟨x', hend, hlast, -⟩ := lowerLoop_spec ha hb turns (hin.inLower hg) hdelta hlower
    have hlast : 8 * (b * b) * (x' + 1) + 4 * (a * a) * (3 - 2 * 0) < 2 ^ 31 := hlast.2
    exact ellipseFits_of_increment ha hb hgradient hfirst hend (by linarith)
  · intro hfits
    have hs := hfits.sizes ha hb
    obtain ⟨⟨upper, s⟩, hupper⟩ :=
      upperLoop_fits hfits hs (a.toNat + b.toNat) (inUpper_start ha hb) (by omega)
    obtain ⟨x, y, rfl, hin, hg, hpath⟩ :=
      upperLoop_spec ha (a.toNat + b.toNat) (inUpper_start ha hb) hupper
    obtain ⟨hmeet, hbound, hdelta⟩ := lowerStart_fits hs hin hg
    have hyb : y ≤ b := hin.quadrant.2.2
    obtain ⟨lower, hlower⟩ :=
      lowerLoop_fits hs (a.toNat + b.toNat) (hin.inLower hg) hbound (by omega)
    obtain ⟨x', -, -, hpath'⟩ :=
      lowerLoop_spec ha hb (a.toNat + b.toNat) (hin.inLower hg) hdelta hlower
    obtain ⟨hchain, hinside, hlast⟩ := hpath.append hpath'
    refine ⟨a.toNat + b.toNat, _, ?_, hinside, rfl, fun _ ↦ ⟨hchain, x', ?_⟩,
      fun h ↦ absurd h hab⟩
    · rw [ellipseAlgorithm_ellipse _ ha hb hab, upperStart_fits hs, Option.bind_some, hupper,
        Option.bind_some, hmeet, Option.bind_some, hlower, Option.bind_some]
    · rw [List.getLast?_eq_getLast_of_ne_nil (List.cons_ne_nil _ _), hlast]

/-! ## All radii -/

/-- The rasteriser draws exactly the radii whose increments fit. -/
theorem rasterised_iff {radiusX radiusY : ℤ} (hX : 0 < radiusX) (hY : 0 < radiusY) :
    Rasterised radiusX radiusY ↔ RadiiFit radiusX radiusY := by
  unfold RadiiFit
  by_cases heq : radiusX = radiusY
  · subst heq
    rw [if_pos rfl]
    exact rasterised_circle_iff hX
  · rw [if_neg heq]
    exact rasterised_ellipse_iff hX hY heq

theorem rasterised_iff_small : Rasterised 3 2 ↔ RadiiFit 3 2 :=
  rasterised_iff (by norm_num) (by norm_num)

/-- A wide ellipse overflows. -/
theorem not_rasterised_wide :
    ¬∀ radiusX radiusY : ℤ, 0 < radiusX → 0 < radiusY → IsInt32 radiusX → IsInt32 radiusY →
      Rasterised radiusX radiusY := by
  intro h
  have hwide := h 30000 10 (by norm_num) (by norm_num) (by decide) (by decide)
  rw [rasterised_ellipse_iff (by norm_num) (by norm_num) (by norm_num)] at hwide
  exact absurd hwide.gradient_lt (by norm_num)

end MicroFramework.Graphics
