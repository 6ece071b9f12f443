import MicroFramework.Graphics.EllipseAlgorithm

/-!
# The regions of the ellipse rasteriser

Each region has an invariant of the offset alone.  A run of a region that has a result leads along
a path of neighbours, and it has one where the sizes of the ellipse bound what is computed.
-/

namespace MicroFramework.Graphics

open Arrays Option

variable {a b : ℤ}

/-! ## The first region -/

/-- The gradient that keeps the first loop running. -/
def gradient (a b x y : ℤ) : ℤ := 4 * (a * a) * (2 * y - 1) - 8 * (b * b) * x

/-- Where the first loop can be. -/
structure InUpper (a b x y : ℤ) : Prop where
  quadrant : InQuadrant a b (x, y)
  start : x = 0 → y = b
  outer_nonneg : 0 ≤ outer a b x y
  inner_nonpos : 0 < gradient a b x y → inner a b x y ≤ 0
  inner_le : inner a b x y ≤ 4 * (a * a) + 4 * (b * b)

theorem inUpper_start (ha : 0 < a) (hb : 0 < b) : InUpper a b 0 b := by
  have haa : 0 < a * a := mul_pos ha ha
  have hbb : 0 < b * b := mul_pos hb hb
  have hab : 0 < a * a * b := mul_pos haa hb
  have hinner : inner a b 0 b ≤ 0 := by
    unfold inner
    nlinarith
  exact ⟨⟨⟨le_refl 0, ha.le⟩, hb.le, le_refl b⟩, fun _ ↦ rfl, by unfold outer; nlinarith,
    fun _ ↦ hinner, by linarith⟩

variable {x y : ℤ}

theorem InUpper.y_pos (ha : 0 < a) (h : InUpper a b x y) (hg : 0 < gradient a b x y) : 0 < y := by
  have hx : 0 ≤ b * b * x := mul_nonneg (mul_self_nonneg b) h.quadrant.1.1
  have haa : 0 < a * a := mul_pos ha ha
  by_contra hy
  have hy : a * a * y ≤ 0 := mul_nonpos_of_nonneg_of_nonpos haa.le (not_lt.mp hy)
  unfold gradient at hg
  linarith

theorem InUpper.x_lt (ha : 0 < a) (h : InUpper a b x y) (hg : 0 < gradient a b x y) : x < a := by
  have hy := h.y_pos ha hg
  have hinner := h.inner_nonpos hg
  have haa : 0 < a * a := mul_pos ha ha
  by_contra hx
  have hxx : a * a ≤ x * x := mul_self_le_mul_self ha.le (not_lt.mp hx)
  have hbx : b * b * (a * a) ≤ b * b * (x * x) := mul_le_mul_of_nonneg_left hxx (mul_self_nonneg b)
  have hyy : 0 < a * a * ((2 * y - 1) * (2 * y - 1)) := by
    have : 0 < 2 * y - 1 := by omega
    exact mul_pos haa (mul_pos this this)
  unfold inner at hinner
  linarith

/-- A turn of the first loop keeps its invariant. -/
theorem InUpper.next (ha : 0 < a) (h : InUpper a b x y) (hg : 0 < gradient a b x y) :
    InUpper a b (x + 1) (upperNext a b x y) := by
  have hy := h.y_pos ha hg
  have hx := h.x_lt ha hg
  have hinner := h.inner_nonpos hg
  obtain ⟨⟨⟨hx0, -⟩, -, hyb⟩, -, houter, -, -⟩ := h
  dsimp only at hx0 hyb
  have haa : 0 < a * a := mul_pos ha ha
  have hbb : 0 ≤ b * b := mul_self_nonneg b
  unfold upperNext
  split
  · rename_i hD
    refine ⟨⟨⟨by dsimp only; omega, by dsimp only; omega⟩, hy.le, hyb⟩, fun hx ↦ by omega, ?_,
      fun _ ↦ hD.le, by linarith⟩
    have hstep : outer a b (x + 1) y = outer a b x y + 4 * (b * b) * (2 * x + 1) := by
      unfold outer
      ring
    have : 0 ≤ 4 * (b * b) * (2 * x + 1) := by positivity
    linarith
  · rename_i hD
    rw [not_lt] at hD
    have hout : outer a b (x + 1) (y - 1) = inner a b (x + 1) y := by
      unfold outer inner
      ring
    have hin : inner a b (x + 1) (y - 1) =
        inner a b x y - gradient a b x y + 4 * (a * a) + 4 * (b * b) := by
      unfold inner gradient
      ring
    have hgr : gradient a b (x + 1) (y - 1) = gradient a b x y - 8 * (a * a) - 8 * (b * b) := by
      unfold gradient
      ring
    exact ⟨⟨⟨by dsimp only; omega, by dsimp only; omega⟩, by dsimp only; omega,
      by dsimp only; omega⟩, fun hx ↦ by omega, hout ▸ hD, fun hg' ↦ by linarith, by linarith⟩

/-! ## The second region -/

/-- Where the second loop can be. -/
structure InLower (a b x y : ℤ) : Prop where
  quadrant : InQuadrant a b (x, y)
  steep : a * a * (2 * y - 1) ≤ 2 * (b * b) * x
  right_ge : -(3 * (a * a)) ≤ right a b x y

theorem InUpper.inLower (h : InUpper a b x y) (hg : ¬0 < gradient a b x y) : InLower a b x y := by
  have hbb : 0 ≤ b * b := mul_self_nonneg b
  have houter := h.outer_nonneg
  have hright : right a b x y = outer a b x y + b * b * (4 * x + 1) - a * a * (4 * y + 1) := by
    unfold right outer
    ring
  unfold gradient at hg
  exact ⟨h.quadrant, by linarith, by linarith⟩

theorem InLower.x_lt (ha : 0 < a) (hb : 0 < b) (hD : right a b x (y - 1) < 0) : x < a := by
  have hbb : 0 < b * b := mul_pos hb hb
  have hyy : 0 ≤ a * a * ((y - 1) * (y - 1)) :=
    mul_nonneg (mul_self_nonneg a) (mul_self_nonneg (y - 1))
  by_contra hx
  have h2 : 2 * a ≤ 2 * x + 1 := by omega
  have hxx : 2 * a * (2 * a) ≤ (2 * x + 1) * (2 * x + 1) := mul_self_le_mul_self (by omega) h2
  have := mul_le_mul_of_nonneg_left hxx hbb.le
  unfold right at hD
  linarith

/-- A turn of the second loop keeps its invariant. -/
theorem InLower.next (ha : 0 < a) (hb : 0 < b) (h : InLower a b x y) (hy : 0 < y) :
    InLower a b (lowerNext a b x y) (y - 1) := by
  obtain ⟨⟨⟨hx0, hxa⟩, -, hyb⟩, hsteep, hright⟩ := h
  dsimp only at hx0 hxa hyb
  have haa : 0 < a * a := mul_pos ha ha
  have hbb : 0 < b * b := mul_pos hb hb
  unfold lowerNext
  split
  · rename_i hD
    have hx := InLower.x_lt ha hb hD
    have hstep : right a b (x + 1) (y - 1) =
        right a b x y + 8 * (b * b) * (x + 1) - 4 * (a * a) * (2 * y - 1) := by
      unfold right
      ring
    exact ⟨⟨⟨by dsimp only; omega, by dsimp only; omega⟩, by dsimp only; omega,
      by dsimp only; omega⟩, by linarith, by linarith⟩
  · rename_i hD
    exact ⟨⟨⟨hx0, hxa⟩, by dsimp only; omega, by dsimp only; omega⟩, by linarith, by linarith⟩

/-! ## Runs with a result -/

theorem upperTurn_eq_some {s : UpperState} (h : upperTurn a b (upperAt a b x y) = some s) :
    s = upperAt a b (x + 1) (upperNext a b x y) := by
  rw [upperTurn_upperAt] at h
  unfold upperNext
  split at h <;> rename_i hD
  · rw [if_pos hD]
    exact (fits_eq_some_iff.mp h).2.symm
  · rw [if_neg hD]
    exact (fits_eq_some_iff.mp h).2.symm

theorem lowerTurn_eq_some {s : LowerState} (h : lowerTurn a b (lowerAt a b x y) = some s) :
    s = lowerAt a b (lowerNext a b x y) (y - 1) ∧ IsInt32 s.deltaSE := by
  rw [lowerTurn_lowerAt] at h
  unfold lowerNext
  split at h <;> rename_i hD
  · rw [if_pos hD]
    obtain ⟨hfit, rfl⟩ := fits_eq_some_iff.mp h
    refine ⟨rfl, ?_⟩
    have := hfit (8 * (b * b) * (x + 2) + 4 * (a * a) * (5 - 2 * y)) (by simp)
    rwa [show 8 * (b * b) * (x + 2) + 4 * (a * a) * (5 - 2 * y) =
      (lowerAt a b (x + 1) (y - 1)).deltaSE by unfold lowerAt; ring] at this
  · rw [if_neg hD]
    obtain ⟨hfit, rfl⟩ := fits_eq_some_iff.mp h
    refine ⟨rfl, ?_⟩
    have := hfit (8 * (b * b) * (x + 1) + 4 * (a * a) * (5 - 2 * y)) (by simp)
    rwa [show 8 * (b * b) * (x + 1) + 4 * (a * a) * (5 - 2 * y) =
      (lowerAt a b x (y - 1)).deltaSE by unfold lowerAt; ring] at this

theorem neighbours_upperNext (x y : ℤ) : Neighbours (x, y) (x + 1, upperNext a b x y) := by
  refine ⟨by norm_num, ?_, fun h ↦ by simpa using congrArg Prod.fst h⟩
  unfold upperNext
  split <;> norm_num

theorem neighbours_lowerNext (x y : ℤ) : Neighbours (x, y) (lowerNext a b x y, y - 1) := by
  refine ⟨?_, by norm_num, fun h ↦ ?_⟩
  · unfold lowerNext
    split <;> norm_num
  · have := congrArg Prod.snd h
    dsimp only at this
    omega

/-- The first loop goes along a path of its region, to where the gradient is used up. -/
theorem upperLoop_spec (ha : 0 < a) : ∀ (turns : ℕ) {x y : ℤ} {path : List (ℤ × ℤ)}
    {s : UpperState}, InUpper a b x y →
      upperLoop a b turns (upperAt a b x y) = some (path, s) →
      ∃ x' y', s = upperAt a b x' y' ∧ InUpper a b x' y' ∧ ¬0 < gradient a b x' y' ∧
        IsPath a b (x, y) path (x', y')
  | 0, x, y, path, s, hin, h => by
    unfold upperLoop at h
    split at h <;> rename_i hg
    · cases h
    · cases h
      exact ⟨x, y, rfl, hin, hg, IsPath.nil hin.quadrant⟩
  | turns + 1, x, y, path, s, hin, h => by
    unfold upperLoop at h
    split at h <;> rename_i hg
    · rw [bind_eq_some_iff] at h
      obtain ⟨next, hturn, hrest⟩ := h
      obtain rfl := upperTurn_eq_some hturn
      rw [map_eq_some_iff] at hrest
      obtain ⟨⟨rest, last⟩, hloop, heq⟩ := hrest
      cases heq
      obtain ⟨x', y', hs, hin', hg', hpath⟩ := upperLoop_spec ha turns (hin.next ha hg) hloop
      exact ⟨x', y', hs, hin', hg', hpath.cons hin.quadrant (neighbours_upperNext x y)⟩
    · cases h
      exact ⟨x, y, rfl, hin, hg, IsPath.nil hin.quadrant⟩

theorem lowerLoop_spec (ha : 0 < a) (hb : 0 < b) : ∀ (turns : ℕ) {x y : ℤ} {path : List (ℤ × ℤ)},
    InLower a b x y → IsInt32 (lowerAt a b x y).deltaSE →
      lowerLoop a b turns (lowerAt a b x y) = some path →
      ∃ x', InLower a b x' 0 ∧ IsInt32 (lowerAt a b x' 0).deltaSE ∧
        IsPath a b (x, y) path (x', 0)
  | 0, x, y, path, hin, hfit, h => by
    unfold lowerLoop at h
    split at h <;> rename_i hy
    · cases h
    · cases h
      obtain rfl : y = 0 := le_antisymm (not_lt.mp hy) hin.quadrant.2.1
      exact ⟨x, hin, hfit, IsPath.nil hin.quadrant⟩
  | turns + 1, x, y, path, hin, hfit, h => by
    unfold lowerLoop at h
    split at h <;> rename_i hy
    · rw [bind_eq_some_iff] at h
      obtain ⟨next, hturn, hrest⟩ := h
      obtain ⟨rfl, hfit'⟩ := lowerTurn_eq_some hturn
      rw [map_eq_some_iff] at hrest
      obtain ⟨rest, hloop, rfl⟩ := hrest
      obtain ⟨x', hin', hend, hpath⟩ := lowerLoop_spec ha hb turns (hin.next ha hb hy) hfit' hloop
      exact ⟨x', hin', hend, hpath.cons hin.quadrant (neighbours_lowerNext x y)⟩
    · cases h
      obtain rfl : y = 0 := le_antisymm (not_lt.mp hy) hin.quadrant.2.1
      exact ⟨x, hin, hfit, IsPath.nil hin.quadrant⟩

/-!
## The sizes of the decision variables

Three bounds on the radii of an ellipse bound every value of both regions, and each of them is the
bound of a value that is computed.
-/

variable {a b : ℤ}

/-- The bounds on the radii of an ellipse: the first gradient, the last increment of the second
region, and the first increment of the first region. -/
structure EllipseFits (a b : ℤ) : Prop where
  gradient_lt : 4 * (a * a) * (2 * b - 1) < 2 ^ 31
  increment_lt : 8 * (b * b) * (a + 1) + 12 * (a * a) < 2 ^ 31
  first_lt : 20 * (b * b) < 2 ^ 31

/-- What the bounds say of products. -/
structure EllipseSizes (a b : ℤ) : Prop where
  a_pos : 0 < a
  b_pos : 0 < b
  a_le : a ≤ a * a
  b_le : b ≤ b * b
  sq_le : a * a ≤ a * a * b
  sq_le' : b * b ≤ b * b * a
  gradient_lt : 8 * (a * a * b) - 4 * (a * a) < 2 ^ 31
  increment_lt : 8 * (b * b * a) + 8 * (b * b) + 12 * (a * a) < 2 ^ 31

theorem EllipseFits.sizes (ha : 0 < a) (hb : 0 < b) (h : EllipseFits a b) : EllipseSizes a b where
  a_pos := ha
  b_pos := hb
  a_le := le_mul_of_one_le_left ha.le ha
  b_le := le_mul_of_one_le_left hb.le hb
  sq_le := le_mul_of_one_le_right (mul_self_nonneg a) hb
  sq_le' := le_mul_of_one_le_right (mul_self_nonneg b) ha
  gradient_lt := by linarith [h.gradient_lt]
  increment_lt := by linarith [h.increment_lt]

variable {y x : ℤ}

/-- Where the first region reaches the last column but one, the ellipse is not much higher than
wide. -/
theorem InUpper.sq_le (ha : 1 < a) (hb : 0 < b) (h : InUpper a b (a - 1) y)
    (hg : 0 < gradient a b (a - 1) y) : b * b ≤ 3 * (a * a) := by
  have hy := h.y_pos (by omega) hg
  have hinner := h.inner_nonpos hg
  have haa : 0 < a * a := mul_pos (by omega) (by omega)
  have hbb : 0 < b * b := mul_pos hb hb
  have hc : 0 < (a - 1) * (a - 1) := mul_pos (by omega) (by omega)
  unfold inner at hinner
  unfold gradient at hg
  by_contra hlt
  rw [not_le] at hlt
  -- the square of the gradient, in the form of the ellipse
  have hsq : 2 * (b * b) * (a - 1) * (2 * (b * b) * (a - 1)) ≤
      a * a * (2 * y - 1) * (a * a * (2 * y - 1)) :=
    mul_self_le_mul_self (mul_nonneg (by omega) (by omega)) (by linarith)
  have hform : a * a * (4 * (b * b) * ((a - 1) * (a - 1)) +
      a * a * ((2 * y - 1) * (2 * y - 1))) ≤ a * a * (4 * (a * a) * (b * b)) :=
    mul_le_mul_of_nonneg_left (by linarith) haa.le
  have hcancel : b * b * ((b * b + a * a) * ((a - 1) * (a - 1))) ≤ b * b * (a * a * (a * a)) := by
    linarith
  have hle : (b * b + a * a) * ((a - 1) * (a - 1)) ≤ a * a * (a * a) :=
    le_of_mul_le_mul_left hcancel hbb
  have hlt' : a * a * (4 * ((a - 1) * (a - 1))) < a * a * (a * a) := by
    have := mul_lt_mul_of_pos_right hlt hc
    linarith
  have hroot : 4 * ((a - 1) * (a - 1)) < a * a := lt_of_mul_lt_mul_left hlt' haa.le
  have : 2 * (a - 1) < a := by
    by_contra hge
    have := mul_self_le_mul_self (by omega : 0 ≤ a) (not_lt.mp hge)
    linarith
  omega

/-- The increments of the first region are bounded by the first and the last one. -/
theorem InUpper.increment_lt (ha : 0 < a) (hb : 0 < b) (hfits : EllipseFits a b)
    (h : InUpper a b x y) (hg : 0 < gradient a b x y) : 4 * (b * b) * (2 * x + 5) < 2 ^ 31 := by
  have hx := h.x_lt ha hg
  have hinc := hfits.increment_lt
  have hbb : 0 ≤ b * b := mul_self_nonneg b
  obtain hlast | hx : x = a - 1 ∨ x ≤ a - 2 := by omega
  · subst hlast
    obtain rfl | ha : a = 1 ∨ 1 < a := by omega
    · linarith [hfits.first_lt]
    · have := h.sq_le ha hb hg
      linarith
  · have := mul_le_mul_of_nonneg_left hx hbb
    linarith [mul_nonneg (by norm_num : (0 : ℤ) ≤ 4) hbb, mul_self_nonneg a]

theorem InUpper.inner_ge (hs : EllipseSizes a b) (h : InUpper a b x y) :
    -(8 * (a * a * b) - 4 * (a * a)) ≤ inner a b x y := by
  obtain ⟨⟨⟨hx0, -⟩, -, hyb⟩, -, houter, -, -⟩ := h
  dsimp only at hx0 hyb
  have haa : 0 ≤ a * a := mul_self_nonneg a
  have hsq := hs.sq_le
  obtain rfl | hyb : y = b ∨ y ≤ b - 1 := by omega
  · have hform : inner a y x y = 4 * (y * y) * (x * x) - 4 * (a * a * y) + a * a := by
      unfold inner
      ring
    have : 0 ≤ 4 * (y * y) * (x * x) :=
      mul_nonneg (mul_nonneg (by norm_num) (mul_self_nonneg y)) (mul_self_nonneg x)
    linarith
  · have hform : inner a b x y = outer a b x y - 8 * (a * a * y) := by
      unfold inner outer
      ring
    have := mul_le_mul_of_nonneg_left hyb haa
    linarith

/-- No value of a turn of the first loop is too large. -/
theorem upperTurn_fits (hfits : EllipseFits a b) (hs : EllipseSizes a b)
    (h : InUpper a b x y) (hg : 0 < gradient a b x y) :
    upperTurn a b (upperAt a b x y) = some (upperAt a b (x + 1) (upperNext a b x y)) := by
  have hnext := h.next hs.a_pos hg
  have hy := h.y_pos hs.a_pos hg
  have hinc := h.increment_lt hs.a_pos hs.b_pos hfits hg
  have hx := h.x_lt hs.a_pos hg
  have hge := hnext.inner_ge hs
  obtain ⟨⟨⟨hx0, -⟩, -, hyb⟩, hstart, -, -, -⟩ := h
  dsimp only at hx0 hyb
  obtain ⟨ha, hb, hale, hble, hsq, hsq', hgl, hil⟩ := hs
  have haa : 0 < a * a := mul_pos ha ha
  have hbb : 0 < b * b := mul_pos hb hb
  have hxbb : 0 ≤ b * b * x := mul_nonneg hbb.le hx0
  have hxbb' : b * b * x ≤ b * b * (a - 1) := mul_le_mul_of_nonneg_left (by omega) hbb.le
  have hyaa : a * a * 1 ≤ a * a * y := mul_le_mul_of_nonneg_left hy haa.le
  have hyaa' : a * a * y ≤ a * a * b := mul_le_mul_of_nonneg_left hyb haa.le
  have hD' (y' : ℤ) : inner a b (x + 2) y' = inner a b (x + 1) y' + 4 * (b * b) * (2 * x + 3) := by
    unfold inner
    ring
  rw [upperTurn_upperAt]
  unfold upperNext at hnext hge ⊢
  unfold gradient at hg
  split <;> rename_i hD
  · rw [if_pos hD] at hge
    have hDE := hD' y
    exact fits_of_forall ⟨⟨by linarith, by linarith⟩, ⟨by linarith, hinc⟩,
      ⟨by linarith, by linarith⟩, ⟨by linarith, by linarith⟩, by linarith, by linarith⟩
  · rw [if_neg hD] at hge hnext
    have hDSE := hD' (y - 1)
    have hle := hnext.inner_le
    have hflat : 4 * (b * b) * (2 * x + 5) - 8 * (a * a) * (y - 2) < 2 ^ 31 := by
      obtain rfl | hy : y = 1 ∨ 2 ≤ y := by omega
      · obtain rfl | hx : x = 0 ∨ 1 ≤ x := by omega
        · rw [← hstart rfl] at hil hsq' ⊢
          linarith
        · have := mul_le_mul_of_nonneg_left hx hbb.le
          linarith
      · have := mul_le_mul_of_nonneg_left hy haa.le
        linarith
    exact fits_of_forall ⟨⟨by linarith, by linarith⟩, ⟨by linarith, hinc⟩,
      ⟨by linarith, by linarith⟩, ⟨by linarith, hflat⟩, ⟨by linarith, by linarith⟩,
      ⟨by linarith, by linarith⟩, ⟨by linarith, by linarith⟩, by linarith, by linarith⟩

theorem upperStart_fits (hs : EllipseSizes a b) : upperStart a b = some (upperAt a b 0 b) := by
  obtain ⟨ha, hb, hale, hble, hsq, hsq', hgl, hil⟩ := hs
  have haa : 0 < a * a := mul_pos ha ha
  have hbb : 0 < b * b := mul_pos hb hb
  have hat : upperAt a b 0 b =
      { x := 0, y := b, D := 4 * (b * b) - 4 * (a * a) * b + a * a,
        G := 4 * (a * a) * (2 * b - 1), deltaE := 4 * (b * b) + 8 * (b * b),
        deltaSE := 4 * (b * b) + 8 * (b * b) + 8 * (a * a) * (1 - b) } := by
    unfold upperAt inner
    ring_nf
  rw [hat]
  exact fits_of_forall ⟨⟨by linarith, by linarith⟩, ⟨by linarith, by linarith⟩,
    ⟨by linarith, by linarith⟩, ⟨by linarith, by linarith⟩, ⟨by linarith, by linarith⟩,
    ⟨by linarith, by linarith⟩, ⟨by linarith, by linarith⟩, ⟨by linarith, by linarith⟩,
    ⟨by linarith, by linarith⟩, ⟨by linarith, by linarith⟩, ⟨by linarith, by linarith⟩,
    ⟨by linarith, by linarith⟩, ⟨by linarith, by linarith⟩, ⟨by linarith, by linarith⟩,
    ⟨by linarith, by linarith⟩, by linarith, by linarith⟩

/-- The decision variable of the second region stays below its last increment. -/
structure InLowerBound (a b x y : ℤ) : Prop where
  below : right a b x (y - 1) ≤ 8 * (b * b * a) + 8 * (b * b) + 12 * (a * a)
  inside : 0 < y → right a b x (y - 1) ≤ 8 * (b * b * a) + 8 * (b * b) + 8 * (a * a)

theorem lowerTurn_fits (hs : EllipseSizes a b) (h : InLower a b x y)
    (hbound : InLowerBound a b x y) (hy : 0 < y) :
    lowerTurn a b (lowerAt a b x y) = some (lowerAt a b (lowerNext a b x y) (y - 1)) ∧
      InLowerBound a b (lowerNext a b x y) (y - 1) := by
  have hnext := h.next hs.a_pos hs.b_pos hy
  have hbelow := hbound.inside hy
  obtain ⟨⟨⟨hx0, hxa⟩, -, hyb⟩, hsteep, hright⟩ := h
  dsimp only at hx0 hxa hyb
  have hlt := InLower.x_lt hs.a_pos hs.b_pos (x := x) (y := y)
  obtain ⟨ha, hb, hale, hble, hsq, hsq', hgl, hil⟩ := hs
  have haa : 0 < a * a := mul_pos ha ha
  have hbb : 0 < b * b := mul_pos hb hb
  have hxbb : 0 ≤ b * b * x := mul_nonneg hbb.le hx0
  have hxbb' : b * b * x ≤ b * b * a := mul_le_mul_of_nonneg_left hxa hbb.le
  have hyaa : a * a * 1 ≤ a * a * y := mul_le_mul_of_nonneg_left hy haa.le
  have hyaa' : a * a * y ≤ a * a * b := mul_le_mul_of_nonneg_left hyb haa.le
  rw [lowerTurn_lowerAt]
  obtain ⟨hquad, hsteep', hright'⟩ := hnext
  unfold lowerNext at hquad hsteep' hright' ⊢
  have hS (x' : ℤ) : right a b x' (y - 2) =
      right a b x' (y - 1) + 4 * (a * a) * (3 - 2 * y) := by
    unfold right
    ring
  split <;> rename_i hD
  · rw [if_pos hD] at hquad hsteep' hright'
    have hSE := hS (x + 1)
    have hE : right a b (x + 1) (y - 1) = right a b x (y - 1) + 8 * (b * b) * (x + 1) := by
      unfold right
      ring
    have hx : b * b * (x + 1) ≤ b * b * a := mul_le_mul_of_nonneg_left (hlt hD) hbb.le
    have hlow : right a b (x + 1) (y - 2) ≤ 8 * (b * b * a) + 4 * (a * a) := by linarith
    have hgap : y - 1 - 1 = y - 2 := by ring
    exact ⟨fits_of_forall ⟨⟨by linarith, by linarith⟩, ⟨by linarith, by linarith⟩,
      ⟨by linarith, by linarith⟩, ⟨by linarith, by linarith⟩, ⟨by linarith, by linarith⟩,
      by linarith, by linarith⟩, hgap ▸ by linarith, fun _ ↦ hgap ▸ by linarith⟩
  · rw [if_neg hD] at hquad hsteep' hright'
    have hSx := hS x
    have hgap : y - 1 - 1 = y - 2 := by ring
    refine ⟨fits_of_forall ⟨⟨by linarith, by linarith⟩, ⟨by linarith, by linarith⟩,
      ⟨by linarith, by linarith⟩, by linarith, by linarith⟩, hgap ▸ by linarith, fun hy' ↦ ?_⟩
    have : a * a * 2 ≤ a * a * y := mul_le_mul_of_nonneg_left (by omega) haa.le
    rw [hgap]
    linarith

/-- The regions meet without a value that is too large. -/
theorem lowerStart_fits (hs : EllipseSizes a b) (h : InUpper a b x y) (hg : ¬0 < gradient a b x y) :
    lowerStart a b (upperAt a b x y) = some (lowerAt a b x y) ∧ InLowerBound a b x y ∧
      IsInt32 (lowerAt a b x y).deltaSE := by
  have hlower := h.inLower hg
  have hle := h.inner_le
  obtain ⟨⟨⟨hx0, hxa⟩, hy0, hyb⟩, hsteep, hright⟩ := hlower
  dsimp only at hx0 hxa hy0 hyb
  obtain ⟨ha, hb, hale, hble, hsq, hsq', hgl, hil⟩ := hs
  have haa : 0 < a * a := mul_pos ha ha
  have hbb : 0 < b * b := mul_pos hb hb
  have hxbb : 0 ≤ b * b * x := mul_nonneg hbb.le hx0
  have hxbb' : b * b * x ≤ b * b * a := mul_le_mul_of_nonneg_left hxa hbb.le
  have hyaa : 0 ≤ a * a * y := mul_nonneg haa.le hy0
  have hyaa' : a * a * y ≤ a * a * b := mul_le_mul_of_nonneg_left hyb haa.le
  have hmeet : right a b x (y - 1) =
      inner a b (x + 1) y + (a * a * (3 - 4 * y) - b * b * (3 + 4 * x)) := by
    unfold right inner
    ring
  have hfrom : right a b x (y - 1) = inner a b x y + b * b * (4 * x + 1) + a * a * (3 - 4 * y) := by
    unfold right inner
    ring
  have hto : right a b x (y - 1) = right a b x y - 4 * (a * a) * (2 * y - 1) := by
    unfold right
    ring
  have hat : lowerAt a b x y =
      { x := x, y := y,
        D := inner a b (x + 1) y + (a * a * (3 - 4 * y) - b * b * (3 + 4 * x)),
        deltaS := 4 * (a * a) * (-2 * y + 3),
        deltaSE := 8 * (b * b) * (x + 1) + 4 * (a * a) * (-2 * y + 3) } := by
    rw [← hmeet]
    unfold lowerAt
    ring_nf
  have hbound : right a b x (y - 1) ≤ 8 * (b * b * a) + 8 * (b * b) + 8 * (a * a) := by linarith
  have hdelta : IsInt32 (8 * (b * b) * (x + 1) + 4 * (a * a) * (-2 * y + 3)) :=
    ⟨by linarith, by linarith⟩
  refine ⟨?_, ⟨by linarith, fun _ ↦ hbound⟩, by rw [hat]; exact hdelta⟩
  rw [hat]
  unfold lowerStart
  dsimp only [upperAt]
  exact fits_of_forall ⟨⟨by linarith, by linarith⟩, ⟨by linarith, by linarith⟩,
    ⟨by linarith, by linarith⟩, ⟨by linarith, by linarith⟩, ⟨by linarith, by linarith⟩,
    ⟨by linarith, by linarith⟩, ⟨by linarith, by linarith⟩,
    show IsInt32 (inner a b (x + 1) y + _) by rw [← hmeet]; exact ⟨by linarith, by linarith⟩,
    ⟨by linarith, by linarith⟩, ⟨by linarith, by linarith⟩, ⟨by linarith, by linarith⟩,
    ⟨by linarith, by linarith⟩, ⟨by linarith, by linarith⟩, hdelta⟩

/-! ## Runs that fit -/

theorem upperLoop_fits (hfits : EllipseFits a b) (hs : EllipseSizes a b) :
    ∀ (turns : ℕ) {x y : ℤ}, InUpper a b x y → a ≤ x + turns →
      ∃ r, upperLoop a b turns (upperAt a b x y) = some r
  | 0, x, y, h, hturns => by
    unfold upperLoop
    by_cases hg : 0 < (upperAt a b x y).G
    · have := h.x_lt hs.a_pos hg
      simp only [Nat.cast_zero] at hturns
      omega
    · exact ⟨_, if_neg hg⟩
  | turns + 1, x, y, h, hturns => by
    unfold upperLoop
    by_cases hg : 0 < (upperAt a b x y).G
    · rw [if_pos hg, upperTurn_fits hfits hs h hg, Option.bind_some]
      obtain ⟨r, hr⟩ := upperLoop_fits hfits hs turns (h.next hs.a_pos hg)
        (by push_cast at hturns; omega)
      rw [hr]
      exact ⟨_, rfl⟩
    · exact ⟨_, if_neg hg⟩

theorem lowerLoop_fits (hs : EllipseSizes a b) :
    ∀ (turns : ℕ) {x y : ℤ}, InLower a b x y → InLowerBound a b x y → y ≤ turns →
      ∃ r, lowerLoop a b turns (lowerAt a b x y) = some r
  | 0, x, y, h, _, hturns => by
    unfold lowerLoop
    exact ⟨_, if_neg (not_lt.mpr (hturns : y ≤ ((0 : ℕ) : ℤ)))⟩
  | turns + 1, x, y, h, hbound, hturns => by
    unfold lowerLoop
    by_cases hy : 0 < (lowerAt a b x y).y
    · obtain ⟨hturn, hbound'⟩ := lowerTurn_fits hs h hbound hy
      rw [if_pos hy, hturn, Option.bind_some]
      obtain ⟨r, hr⟩ := lowerLoop_fits hs turns (h.next hs.a_pos hs.b_pos hy) hbound'
        (by push_cast at hturns; omega)
      rw [hr]
      exact ⟨_, rfl⟩
    · exact ⟨_, if_neg hy⟩

/-- The values of a run give the bounds back. -/
theorem ellipseFits_of_increment (ha : 0 < a) (hb : 0 < b)
    (hgradient : 4 * (a * a) * (2 * b - 1) < 2 ^ 31) (hfirst : 20 * (b * b) < 2 ^ 31)
    (h : InLower a b x 0) (hlast : 8 * (b * b) * (x + 1) + 12 * (a * a) < 2 ^ 31) :
    EllipseFits a b := by
  refine ⟨hgradient, ?_, hfirst⟩
  have haa : 0 < a * a := mul_pos ha ha
  have hbb : 0 < b * b := mul_pos hb hb
  have hx0 : 0 ≤ x := h.quadrant.1.1
  have hxa : x ≤ a := h.quadrant.1.2
  have hright := h.right_ge
  unfold right at hright
  obtain rfl | hxa : x = a ∨ x ≤ a - 1 := by omega
  · exact hlast
  -- the path ends in front of the last column only where the ellipse is flat
  have hsq : (2 * x + 1) * (2 * x + 1) ≤ (2 * a - 1) * (2 * a - 1) :=
    mul_self_le_mul_self (by omega) (by omega)
  have hmul := mul_le_mul_of_nonneg_left hsq hbb.le
  have hflat : b * b * (4 * a - 1) ≤ 3 * (a * a) := by linarith
  have hle : b * b ≤ a := by
    by_contra hlt
    have h1 : b * b * (4 * a - 1) ≥ (a + 1) * (4 * a - 1) :=
      mul_le_mul_of_nonneg_right (by omega) (by omega)
    nlinarith
  have hroot (hsmall : a * a ≤ (2 * x + 1) * (2 * x + 1)) : a + 1 ≤ 2 * (x + 1) := by
    by_contra hlt
    have hlt : 2 * x + 1 ≤ a - 1 := by omega
    have := mul_self_le_mul_self (by omega) hlt
    linarith
  obtain rfl | rfl | rfl | hb4 : b = 1 ∨ b = 2 ∨ b = 3 ∨ 4 ≤ b := by omega
  · have hroot := hroot (by linarith)
    have ha : a ≤ 13377 := by
      by_contra hge
      have := mul_self_le_mul_self (by norm_num : (0 : ℤ) ≤ 13378) (by omega : 13378 ≤ a)
      linarith
    have := mul_self_le_mul_self (by omega : 0 ≤ a) ha
    linarith
  · have hroot := hroot (by linarith)
    have ha : a ≤ 13376 := by
      by_contra hge
      have := mul_self_le_mul_self (by norm_num : (0 : ℤ) ≤ 13377) (by omega : 13377 ≤ a)
      linarith
    have := mul_self_le_mul_self (by omega : 0 ≤ a) ha
    linarith
  · obtain rfl | ha : a = 9 ∨ 10 ≤ a := by omega
    · norm_num
    · have := mul_le_mul_of_nonneg_right ha (by omega : 0 ≤ a)
      linarith
  · have hflat := mul_le_mul_of_nonneg_right hle (by omega : 0 ≤ a + 1)
    have hhigh := mul_le_mul_of_nonneg_left hb4 haa.le
    have := le_mul_of_one_le_left ha.le ha
    linarith

end MicroFramework.Graphics
