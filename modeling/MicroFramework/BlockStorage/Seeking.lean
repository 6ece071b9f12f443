import MicroFramework.BlockStorage.Positions

/-!
# Seeking

The first loop of a seek goes forward and the second one back, each a range at a time, and the
position that is looked for stays the same.
-/

namespace MicroFramework.BlockStorage

open Arrays TinyBooter List Nat Option

/-- Every range has less bytes than an `int` can count. -/
def Sized (es : List Extent) : Prop := ∀ e ∈ es, e.length < 2 ^ 31

variable {devices : List BlockDeviceInfo} {s : BlockStorageStream} {pre post : List Extent}
  {e : Extent}

section

variable (h : Located devices s pre e post)

include h

section

variable (hsized : Sized (extents devices s.usage))

include hsized

theorem Located.length_lt : e.length < 2 ^ 31 :=
  hsized e h.mem

theorem Located.int32_length : int32 s.length = e.length := by
  have := h.length_lt hsized
  rw [h.length_eq]
  exact int32_eq ⟨by omega, by omega⟩

theorem Located.int32_currentIndex : int32 s.currentIndex = s.currentIndex := by
  have := h.length_lt hsized
  have := h.inside
  exact int32_eq ⟨by omega, by omega⟩

end

end

/-- The first loop: it stays, or comes to a range behind, or the position is behind all ranges. -/
theorem seekForward_spec (turns : ℕ) {k : ℤ} (hsized : Sized (extents devices s.usage))
    (h : Located devices s pre e post) (hturns : post.length < turns) (hk : IsInt32 k) :
    (∃ s' pre' e' post' k', seekForward devices turns k s = some (k', s', true) ∧
      Located devices s' pre' e' post' ∧ s'.usage = s.usage ∧ IsInt32 k' ∧
      (total pre' : ℤ) + k' = total pre + k ∧ k' < e'.length ∧
      ((s' = s ∧ pre' = pre ∧ k' = k) ∨ 0 ≤ k')) ∨
    (∃ s' k', seekForward devices turns k s = some (k', s', false) ∧
      (total (extents devices s.usage) : ℤ) ≤ total pre + k ∧ (post = [] → s' = s)) := by
  induction turns generalizing s pre e post k with
  | zero => exact absurd hturns (not_lt_zero _)
  | succ turns ih =>
    have hlen := h.length_lt hsized
    unfold seekForward
    rw [h.int32_length hsized]
    by_cases hle : (e.length : ℤ) ≤ k
    · rw [if_pos hle, h.nextStream, h.length_eq]
      have hk' : IsInt32 (k - e.length) := ⟨by have := hk.1; omega, by have := hk.2; omega⟩
      rw [int32_eq hk']
      cases post with
      | nil =>
        refine Or.inr ⟨s, _, rfl, ?_, fun _ ↦ rfl⟩
        rw [h.split, total_append, total_cons, total_nil]
        push_cast
        omega
      | cons next rest =>
        have hrest : rest.length < turns := by
          rw [length_cons] at hturns
          omega
        have hpre : total (pre ++ [e]) = total pre + e.length := by
          rw [total_append, total_cons, total_nil, add_zero]
        rw [head?_cons]
        obtain ⟨s', pre', e', post', k', hrun, hloc, husage, hfit, hpos, hin, hmoved⟩ |
          ⟨s', k', hrun, hend, -⟩ := ih (s := enter s next) hsized h.next hrest hk'
        · refine Or.inl ⟨s', pre', e', post', k', hrun, hloc, husage, hfit, ?_, hin, Or.inr ?_⟩
          · rw [hpos, hpre]
            push_cast
            ring
          · obtain ⟨-, -, rfl⟩ | hmoved := hmoved
            · omega
            · exact hmoved
        · refine Or.inr ⟨s', k', hrun, ?_, fun hnil ↦ by cases hnil⟩
          rw [hpre] at hend
          push_cast at hend
          have hsame : total (extents devices (enter s next).usage) =
            total (extents devices s.usage) := rfl
          omega
    · rw [if_neg hle]
      exact Or.inl ⟨s, pre, e, post, k, rfl, h, rfl, hk, rfl, by omega, Or.inl ⟨rfl, rfl, rfl⟩⟩

/-- The second loop: it stays, or comes to a range before, or the position is before all ranges. -/
theorem seekBackward_spec (turns : ℕ) {k : ℤ} (hsized : Sized (extents devices s.usage))
    (h : Located devices s pre e post) (hturns : pre.length < turns) (hk : IsInt32 k)
    (hin : k < e.length) (hall : k < 0 → Inhabited devices)
    (husage : ∀ b p a, pre = b ++ p :: a → (total pre : ℤ) + k < total b + p.length →
      p.usage = s.usage) :
    (∃ s' pre' e' post' k', seekBackward devices turns k s = some (k', s', true) ∧
      Located devices s' pre' e' post' ∧ s'.usage = s.usage ∧
      (total pre' : ℤ) + k' = total pre + k ∧ 0 ≤ k' ∧ k' < e'.length) ∨
    (∃ s' k', seekBackward devices turns k s = some (k', s', false) ∧
      (total pre : ℤ) + k < 0 ∧ (pre = [] → s' = s)) := by
  induction turns generalizing s pre e post k with
  | zero => exact absurd hturns (not_lt_zero _)
  | succ turns ih =>
    unfold seekBackward
    by_cases hneg : k < 0
    · rw [if_pos hneg]
      rcases eq_nil_or_concat pre with rfl | ⟨init, previous, rfl⟩
      · rw [h.prevStream (hall hneg) fun _ hp ↦ by cases hp]
        exact Or.inr ⟨s, k, rfl, by simpa using hneg, fun _ ↦ rfl⟩
      · rw [concat_eq_append] at h hturns husage ⊢
        have hpre : total (init ++ [previous]) = total init + previous.length := by
          rw [total_append, total_cons, total_nil, add_zero]
        rw [hpre] at husage ⊢
        have hlast : previous.usage = s.usage := husage init previous [] rfl (by push_cast; omega)
        have hprev := h.previous
        have hlen := hprev.length_lt hsized
        rw [h.prevStream (hall hneg) fun p hp ↦ by
          rw [getLast?_concat, mem_some] at hp
          exact hp ▸ hlast]
        rw [getLast?_concat]
        dsimp only [bind_some]
        rw [if_pos rfl]
        have hk' : IsInt32 (k + previous.length) := ⟨by have := hk.1; omega, by omega⟩
        rw [show (enterBack s previous).length = previous.length from rfl, int32_eq hk']
        rw [length_append, length_singleton] at hturns
        obtain ⟨s', pre', e', post', k', hrun, hloc, hsame, hpos, h0, hin'⟩ |
          ⟨s', k', hrun, hend, -⟩ := ih (s := enterBack s previous) hsized hprev (by omega) hk'
            (by omega) (fun _ ↦ hall hneg) (fun b p a hsplit hlt ↦
              husage b p (a ++ [previous]) (by rw [hsplit, append_assoc, cons_append])
                (by push_cast; omega))
        · refine Or.inl ⟨s', pre', e', post', k', hrun, hloc, hsame, ?_, h0, hin'⟩
          push_cast
          omega
        · exact Or.inr ⟨s', k', hrun, by push_cast; omega,
            fun hnil ↦ absurd hnil (append_ne_nil_of_right_ne_nil _ (cons_ne_nil _ _))⟩
    · rw [if_neg hneg]
      exact Or.inl ⟨s, pre, e, post, k, rfl, h, rfl, rfl, not_lt.mp hneg, hin⟩

/-- A position that a seek comes to, or from where it does not move: it does not fail behind a
range it has crossed, and it crosses backward only ranges of the usage of the stream itself. -/
structure Reaches (devices : List BlockDeviceInfo) (s : BlockStorageStream) (pre post : List Extent)
    (target : ℤ) : Prop where
  forward : target < total (extents devices s.usage) ∨ post = []
  backward : 0 ≤ target ∨ pre = []
  inhabited : target < total pre → Inhabited devices
  usage : ∀ b p a, pre = b ++ p :: a → target < total b + p.length → p.usage = s.usage

theorem length_extents_le (devices : List BlockDeviceInfo) (usage : UInt32) :
    (extents devices usage).length ≤ countRanges devices := by
  rw [← length_allExtents]
  exact length_filter_le _ _

variable {offset : ℤ} {origin : SeekOrigin}

/-- A seek goes to the position, or there is no such position and the stream stays. -/
theorem seek_spec {start : ℤ}
    (hsized : Sized (extents devices s.usage)) (h : Located devices s pre e post)
    (hstart : seekStart origin s = some start) (hfit : IsInt32 (start + seekOffset start offset s))
    (hto : Reaches devices s pre post (total pre + (start + seekOffset start offset s))) :
    ∃ s' r, seek devices offset origin s = some (s', r) ∧
      (r = true → ∃ pre' e' post', Located devices s' pre' e' post' ∧ s'.usage = s.usage ∧
        (total pre' + s'.currentIndex : ℤ) = total pre + (start + seekOffset start offset s) ∧
        s'.currentIndex < e'.length) ∧
      (r = false → s' = s ∧
        ((total pre : ℤ) + (start + seekOffset start offset s) < 0 ∨
          (total (extents devices s.usage) : ℤ) ≤
            total pre + (start + seekOffset start offset s))) := by
  generalize hk : start + seekOffset start offset s = k at hfit hto
  have hcount := length_extents_le devices s.usage
  have hsplit := congrArg List.length h.split
  rw [length_append, length_cons] at hsplit
  unfold seek
  rw [hstart]
  dsimp only
  rw [hk, if_pos hfit]
  obtain ⟨t, pre', e', post', k', hrun, hloc, hsame, hfit', hpos, hin, hmoved⟩ |
    ⟨t, k', hrun, hend, hstay⟩ :=
      seekForward_spec (countRanges devices + 1) hsized h (by omega) hfit
  · rw [hrun, bind_some, if_pos rfl]
    have hcount' := length_extents_le devices t.usage
    have hsplit' := congrArg List.length hloc.split
    rw [length_append, length_cons] at hsplit'
    have hback : (∃ s' pre'' e'' post'' k'', seekBackward devices (countRanges devices + 1) k' t =
          some (k'', s', true) ∧ Located devices s' pre'' e'' post'' ∧ s'.usage = t.usage ∧
          (total pre'' : ℤ) + k'' = total pre' + k' ∧ 0 ≤ k'' ∧ k'' < e''.length) ∨
        (∃ s' k'', seekBackward devices (countRanges devices + 1) k' t = some (k'', s', false) ∧
          (total pre' : ℤ) + k' < 0 ∧ (pre' = [] → s' = t)) := by
      refine seekBackward_spec _ (hsame ▸ hsized) hloc (by omega) hfit' hin ?_ ?_
      · intro hneg
        obtain ⟨-, rfl, rfl⟩ | hmoved := hmoved
        · exact hto.inhabited (by omega)
        · omega
      · intro b p a hb hlt
        obtain ⟨rfl, rfl, rfl⟩ | hmoved := hmoved
        · exact hto.usage b p a hb (by omega)
        · -- nothing is crossed
          have := congrArg total hb
          rw [total_append, total_cons] at this
          omega
    obtain ⟨s', pre'', e'', post'', k'', hrun', hloc', hsame', hpos', h0, hin'⟩ |
      ⟨s', k'', hrun', hneg, hstay⟩ := hback
    · rw [hrun', map_some, if_pos rfl]
      have hcast : ((k''.toNat : ℕ) : ℤ) = k'' := Int.toNat_of_nonneg h0
      refine ⟨_, true, rfl, fun _ ↦ ⟨pre'', e'', post'', ⟨hloc'.split, hloc'.device_eq,
        hloc'.regionIndex_eq, hloc'.rangeIndex_eq, hloc'.baseAddress_eq, hloc'.length_eq,
        hloc'.blockLength_eq, ?_⟩, hsame'.trans hsame, ?_, ?_⟩, fun hr ↦ by cases hr⟩
      · dsimp only
        omega
      · dsimp only
        omega
      · dsimp only
        omega
    · rw [hrun', map_some]
      refine ⟨s', false, rfl, fun hr ↦ (by cases hr), fun _ ↦ ⟨?_, Or.inl (by omega)⟩⟩
      have hnil : pre = [] := hto.backward.resolve_left (by omega)
      obtain ⟨rfl, rfl, -⟩ | hmoved := hmoved
      · exact hstay hnil
      · omega
  · rw [hrun, bind_some, if_neg Bool.false_ne_true]
    refine ⟨t, false, rfl, fun hr ↦ (by cases hr), fun _ ↦ ⟨?_, Or.inr (by omega)⟩⟩
    exact hstay (hto.forward.resolve_left (by omega))

/-! ## Blocks -/

/-- A position between two blocks, or at an end of the space. -/
def IsBoundary (es : List Extent) (t : ℤ) : Prop :=
  ∃ b x a, ∃ n : ℕ, es = b ++ x :: a ∧ n * x.blockLength ≤ x.length ∧
    t = total b + n * x.blockLength

variable {es : List Extent}

/-- In a range the boundaries are the multiples of its block length. -/
theorem dvd_of_isBoundary {m : ℕ} (hsplit : es = pre ++ e :: post)
    (hdvd : e.blockLength ∣ e.length) (hm : m ≤ e.length)
    (h : IsBoundary es ((total pre : ℤ) + m)) : e.blockLength ∣ m := by
  obtain ⟨b, x, a, n, hes, hn, ht⟩ := h
  have ht : total pre + m = total b + n * x.blockLength := by exact_mod_cast ht
  rw [hsplit] at hes
  obtain ⟨c, hb, hc⟩ | ⟨c, hpre, hc⟩ := append_eq_append_iff.mp hes
  · -- a range from this one on
    cases c with
    | nil =>
      obtain ⟨rfl, -⟩ := List.cons.inj hc
      rw [hb, append_nil] at ht
      exact ⟨n, by linarith⟩
    | cons y c =>
      obtain ⟨rfl, -⟩ := List.cons.inj hc
      rw [hb, total_append, total_cons] at ht
      obtain rfl : m = e.length := by omega
      exact hdvd
  · cases c with
    | nil =>
      obtain ⟨rfl, -⟩ := List.cons.inj hc
      rw [hpre, append_nil] at ht
      exact ⟨n, by linarith⟩
    | cons y c =>
      obtain ⟨rfl, -⟩ := List.cons.inj hc
      rw [hpre, total_append, total_cons] at ht
      obtain rfl : m = 0 := by omega
      exact dvd_zero _

theorem isBoundary_of_dvd {m : ℕ} (hsplit : es = pre ++ e :: post)
    (hm : m ≤ e.length) (hdvd : e.blockLength ∣ m) : IsBoundary es ((total pre : ℤ) + m) := by
  obtain ⟨n, rfl⟩ := hdvd
  exact ⟨pre, e, post, n, hsplit, by rwa [mul_comm], by push_cast; ring⟩

theorem isBoundary_bounds {t : ℤ} (h : IsBoundary es t) : 0 ≤ t ∧ t ≤ total es := by
  obtain ⟨b, x, a, n, rfl, hn, rfl⟩ := h
  rw [total_append, total_cons]
  push_cast
  constructor
  · positivity
  · have : ((n * x.blockLength : ℕ) : ℤ) ≤ x.length := by exact_mod_cast hn
    push_cast at this
    omega

/-- What a seek from `base` looks for: the next or the previous boundary of a block, or a distance
away. -/
def IsTarget (es : List Extent) (base offset t : ℤ) : Prop :=
  if offset = STREAM_SEEK_NEXT_BLOCK then
    IsBoundary es t ∧ base < t ∧ ∀ u, IsBoundary es u → base < u → t ≤ u
  else if offset = STREAM_SEEK_PREV_BLOCK then
    IsBoundary es t ∧ t < base ∧ ∀ u, IsBoundary es u → u < base → u ≤ t
  else t = base + offset

theorem isTarget_unique {base t u : ℤ} (ht : IsTarget es base offset t)
    (hu : IsTarget es base offset u) : t = u := by
  unfold IsTarget at ht hu
  split at ht
  · rw [if_pos ‹_›] at hu
    exact le_antisymm (ht.2.2 u hu.1 hu.2.1) (hu.2.2 t ht.1 ht.2.1)
  · rw [if_neg ‹_›] at hu
    split at ht
    · rw [if_pos ‹_›] at hu
      exact le_antisymm (hu.2.2 t ht.1 ht.2.1) (ht.2.2 u hu.1 hu.2.1)
    · rw [if_neg ‹_›] at hu
      rw [ht, hu]

variable {i : ℕ}

theorem block_end_le (hdvd : e.blockLength ∣ e.length) (hi : i < e.length) :
    i + (e.blockLength - i % e.blockLength) ≤ e.length := by
  have hpos : 0 < e.blockLength := pos_of_dvd_of_pos hdvd (by omega)
  have hmod := mod_lt i hpos
  have hdiv := div_add_mod i e.blockLength
  obtain ⟨n, hn⟩ := hdvd
  have hlt : i / e.blockLength + 1 ≤ n := (div_lt_iff_lt_mul hpos).mpr (by rw [mul_comm]; omega)
  have := mul_le_mul_left e.blockLength hlt
  rw [mul_add, mul_one] at this
  omega

/-- The end of the block of an offset of a range. -/
theorem isTarget_next (hsplit : es = pre ++ e :: post)
    (hdvd : e.blockLength ∣ e.length) (hi : i < e.length) :
    IsTarget es ((total pre : ℤ) + i) STREAM_SEEK_NEXT_BLOCK
      ((total pre : ℤ) + (i + (e.blockLength - i % e.blockLength : ℕ))) := by
  have hpos : 0 < e.blockLength := pos_of_dvd_of_pos hdvd (by omega)
  have hmod := mod_lt i hpos
  have hdiv := div_add_mod i e.blockLength
  have hend : i + (e.blockLength - i % e.blockLength) =
      e.blockLength * (i / e.blockLength + 1) := by
    rw [mul_add, mul_one]
    omega
  have hle := block_end_le hdvd hi
  unfold IsTarget
  rw [if_pos rfl]
  refine ⟨?_, by omega, fun u hu hlt ↦ ?_⟩
  · exact_mod_cast isBoundary_of_dvd hsplit hle (hend ▸ dvd_mul_right _ _)
  · by_cases hin : u ≤ total pre + e.length
    · obtain ⟨m, hm⟩ : ∃ m : ℕ, u = total pre + m := ⟨(u - total pre).toNat, by omega⟩
      rw [hm] at hu hlt hin
      obtain ⟨n, hn⟩ := dvd_of_isBoundary hsplit hdvd (by omega) hu
      have hlt : i < e.blockLength * n := by omega
      have hn' : i / e.blockLength + 1 ≤ n := (div_lt_iff_lt_mul hpos).mpr (by rwa [mul_comm])
      have := mul_le_mul_left e.blockLength hn'
      rw [hm]
      omega
    · omega

/-- The start of the block that ends at or behind an offset of a range. -/
theorem isTarget_prev (hsplit : es = pre ++ e :: post)
    (hdvd : e.blockLength ∣ e.length) (hi : 0 < i) (hle : i ≤ e.length) :
    IsTarget es ((total pre : ℤ) + i) STREAM_SEEK_PREV_BLOCK
      ((total pre : ℤ) +
        (i + (if i % e.blockLength ≠ 0 then -(i % e.blockLength : ℕ)
          else -e.blockLength : ℤ))) := by
  have hpos : 0 < e.blockLength := pos_of_dvd_of_pos hdvd (by omega)
  have hdiv := div_add_mod (i - 1) e.blockLength
  have hmod := mod_lt (i - 1) hpos
  generalize hq : (i - 1) / e.blockLength = q at hdiv
  generalize (i - 1) % e.blockLength = r at hdiv hmod
  have hi' : i = (r + 1) + e.blockLength * q := by omega
  have hstart : (i : ℤ) +
      (if i % e.blockLength ≠ 0 then -(i % e.blockLength : ℕ) else -e.blockLength : ℤ) =
        (e.blockLength * q : ℕ) := by
    rw [hi', add_mul_mod_self_left]
    obtain hlt | heq : r + 1 < e.blockLength ∨ r + 1 = e.blockLength := by omega
    · rw [mod_eq_of_lt hlt, if_pos (succ_ne_zero r)]
      push_cast
      ring
    · rw [heq, mod_self, if_neg (not_not.mpr rfl)]
      push_cast
      ring
  rw [hstart]
  unfold IsTarget
  rw [if_neg (by decide), if_pos rfl]
  refine ⟨isBoundary_of_dvd hsplit (by omega) (dvd_mul_right _ _), by omega,
    fun u hu hlt ↦ ?_⟩
  by_cases hin : (total pre : ℤ) ≤ u
  · obtain ⟨m, hm⟩ : ∃ m : ℕ, u = total pre + m := ⟨(u - total pre).toNat, by omega⟩
    rw [hm] at hu hlt
    obtain ⟨n, hn⟩ := dvd_of_isBoundary hsplit hdvd (by omega) hu
    have hlt : e.blockLength * n < e.blockLength * (q + 1) := by
      rw [mul_add, mul_one]
      omega
    have hn' : n ≤ q := Nat.lt_succ_iff.mp (Nat.lt_of_mul_lt_mul_left hlt)
    have := mul_le_mul_left e.blockLength hn'
    rw [hm]
    omega
  · omega

/-! ## What a seek does -/

def startIndex (s : BlockStorageStream) (e : Extent) : SeekOrigin → Option ℕ
  | .seekBegin => some 0
  | .seekCurrent => some s.currentIndex
  | .seekEnd => some e.length
  | .other => none

/-- When a seek does what it should.  To a block, the range that is entered has blocks of the same
length, and from the end of a range the block that is looked for is followed by another one.  To a
distance, the sum is an `int` and the position is reached. -/
def SeekMeets (devices : List BlockDeviceInfo) (s : BlockStorageStream) (pre : List Extent)
    (e : Extent) (post : List Extent) (offset : ℤ) (i : ℕ) : Prop :=
  if offset = STREAM_SEEK_NEXT_BLOCK then
    i = e.length → IsInt32 (e.length + e.blockLength) ∧ ∀ next ∈ post.head?,
      next.blockLength = e.blockLength ∧
        (total pre + e.length + e.blockLength : ℤ) < total (extents devices s.usage)
  else if offset = STREAM_SEEK_PREV_BLOCK then
    i = 0 → Inhabited devices ∧ ∀ previous ∈ pre.getLast?,
      previous.blockLength = e.blockLength ∧ previous.usage = s.usage
  else
    IsInt32 (i + offset) ∧ Reaches devices s pre post (total pre + (i + offset))

section

variable (h : Located devices s pre e post)

include h

section

variable (hsized : Sized (extents devices s.usage))

include hsized

theorem seekOffset_next (hi : i ≤ e.length) :
    seekOffset i STREAM_SEEK_NEXT_BLOCK s = (e.blockLength - i % e.blockLength : ℕ) := by
  have hlen := h.length_lt hsized
  have hpos := h.sound.block_pos
  have hle := le_of_dvd h.sound.length_pos h.sound.blocks
  have hmod := mod_lt i hpos
  unfold seekOffset
  rw [if_pos rfl, h.blockLength_eq, show (i : ℤ) % 2 ^ 32 = i by omega]
  rw [cast_sub hmod.le, Int.natCast_mod]
  have hcast : ((i % e.blockLength : ℕ) : ℤ) = (i : ℤ) % e.blockLength := Int.natCast_mod i _
  exact int32_eq ⟨by omega, by omega⟩

theorem seekOffset_prev (hi : i ≤ e.length) :
    seekOffset i STREAM_SEEK_PREV_BLOCK s =
      (if i % e.blockLength ≠ 0 then -(i % e.blockLength : ℕ) else -e.blockLength : ℤ) := by
  have hlen := h.length_lt hsized
  have hpos := h.sound.block_pos
  have hle := le_of_dvd h.sound.length_pos h.sound.blocks
  have hmod := mod_lt i hpos
  unfold seekOffset
  rw [if_neg (by decide), if_pos rfl, h.blockLength_eq, show (i : ℤ) % 2 ^ 32 = i by omega]
  have hcast : ((i % e.blockLength : ℕ) : ℤ) = (i : ℤ) % e.blockLength := Int.natCast_mod i _
  rw [← hcast]
  by_cases hzero : i % e.blockLength = 0
  · rw [if_neg (by omega), if_neg (by omega)]
    exact int32_eq ⟨by omega, by omega⟩
  · rw [if_pos (by omega), if_pos hzero]
    exact int32_eq ⟨by omega, by omega⟩

theorem seekStart_eq (origin : SeekOrigin) :
    seekStart origin s = (startIndex s e origin).map (Nat.cast : ℕ → ℤ) := by
  cases origin with
  | seekBegin | other => rfl
  | seekCurrent => exact congrArg some (h.int32_currentIndex hsized)
  | seekEnd => exact congrArg some (h.int32_length hsized)

end

theorem startIndex_le (hi : startIndex s e origin = some i) : i ≤ e.length := by
  cases origin <;> cases hi
  · exact zero_le _
  · exact h.inside
  · exact le_refl _

end

/-- The distance of a seek goes to what it looks for, or there is nothing to look for. -/
theorem seekMeets_target (hsized : Sized (extents devices s.usage))
    (h : Located devices s pre e post) (hi : i ≤ e.length)
    (hmeets : SeekMeets devices s pre e post offset i) :
    IsInt32 (i + seekOffset i offset s) ∧
      Reaches devices s pre post (total pre + (i + seekOffset i offset s)) ∧
      (IsTarget (extents devices s.usage) (total pre + i) offset
          (total pre + (i + seekOffset i offset s)) ∨
        (((total pre : ℤ) + (i + seekOffset i offset s) < 0 ∨
            (total (extents devices s.usage) : ℤ) ≤ total pre + (i + seekOffset i offset s)) ∧
          ∀ t, ¬IsTarget (extents devices s.usage) (total pre + i) offset t)) := by
  have hlen := h.length_lt hsized
  have hpos := h.sound.block_pos
  have hble := le_of_dvd h.sound.length_pos h.sound.blocks
  have htotal : total (extents devices s.usage) = total pre + e.length + total post := by
    rw [h.split, total_append, total_cons, add_assoc]
  have hcross (hle : 0 ≤ (i : ℤ) + seekOffset i offset s) (b : List Extent) (p : Extent)
      (a : List Extent) (hb : pre = b ++ p :: a)
      (hlt : (total pre : ℤ) + (i + seekOffset i offset s) < total b + p.length) :
      p.usage = s.usage := by
    have := congrArg total hb
    rw [total_append, total_cons] at this
    omega
  have hpost : post = [] ∨ 0 < total post := by
    cases post with
    | nil => exact Or.inl rfl
    | cons next rest =>
      have := h.next.sound.length_pos
      rw [total_cons]
      exact Or.inr (by omega)
  unfold SeekMeets at hmeets
  split at hmeets
  · rename_i hnext
    subst hnext
    have hoff := seekOffset_next h hsized hi
    obtain hlt | rfl : i < e.length ∨ i = e.length := by omega
    · -- to the end of the block
      have htarget := isTarget_next h.split h.sound.blocks hlt
      have hend := block_end_le h.sound.blocks hlt
      rw [hoff]
      refine ⟨⟨by omega, by omega⟩, ⟨?_, Or.inl (by omega), fun hneg ↦ by omega,
        hoff ▸ hcross (by omega)⟩, Or.inl (by exact_mod_cast htarget)⟩
      obtain hnil | hrest := hpost
      · exact Or.inr hnil
      · exact Or.inl (by omega)
    · obtain ⟨hfit, hnext⟩ := hmeets rfl
      rw [Nat.mod_eq_zero_of_dvd h.sound.blocks, Nat.sub_zero] at hoff
      rw [hoff] at hcross ⊢
      cases post with
      | nil =>
        rw [total_nil] at htotal
        refine ⟨hfit, ⟨Or.inr rfl, Or.inl (by omega), fun hneg ↦ by omega, hcross (by omega)⟩,
          Or.inr ⟨Or.inr (by omega), fun t ht ↦ ?_⟩⟩
        unfold IsTarget at ht
        rw [if_pos rfl] at ht
        have := (isBoundary_bounds ht.1).2
        omega
      | cons next rest =>
        -- the end of the range is the start of the next one
        obtain ⟨hblock, hinside⟩ := hnext next rfl
        have htarget := isTarget_next h.next.split h.next.sound.blocks h.next.sound.length_pos
        have hpre : ((total (pre ++ [e]) : ℕ) : ℤ) = total pre + e.length := by
          rw [total_append, total_cons, total_nil]
          push_cast
          ring
        rw [hblock, Nat.zero_mod, Nat.sub_zero, hpre, Nat.cast_zero, add_zero, zero_add,
          add_assoc] at htarget
        refine ⟨hfit, ⟨Or.inl (by omega), Or.inl (by omega), fun hneg ↦ by omega,
          hcross (by omega)⟩, Or.inl ?_⟩
        exact htarget
  · rename_i hnext
    split at hmeets
    · rename_i hprev
      subst hprev
      have hoff := seekOffset_prev h hsized hi
      obtain hlt | rfl : 0 < i ∨ i = 0 := by omega
      · -- to the start of the block
        have htarget := isTarget_prev h.split h.sound.blocks hlt hi
        rw [← hoff] at htarget
        have hbound := htarget
        unfold IsTarget at hbound
        rw [if_neg hnext, if_pos rfl] at hbound
        have hstart : (0 : ℤ) ≤ i + seekOffset i STREAM_SEEK_PREV_BLOCK s := by
          rw [hoff]
          split
          · have := mod_le i e.blockLength
            omega
          · have := le_of_dvd hlt (dvd_of_mod_eq_zero (not_not.mp ‹_›))
            omega
        refine ⟨⟨by omega, by omega⟩, ⟨Or.inl (by omega), Or.inl (by omega), fun hneg ↦ by omega,
          hcross hstart⟩, Or.inl htarget⟩
      · obtain ⟨hall, hprev⟩ := hmeets rfl
        rw [zero_mod, if_neg (not_not.mpr rfl)] at hoff
        rw [hoff]
        rcases eq_nil_or_concat pre with rfl | ⟨init, previous, rfl⟩
        · refine ⟨⟨by omega, by omega⟩, ⟨Or.inl (by rw [total_nil]; omega), Or.inr rfl,
            fun _ ↦ hall, fun b p a hb ↦ absurd hb.symm
              (append_ne_nil_of_right_ne_nil _ (cons_ne_nil _ _))⟩,
            Or.inr ⟨Or.inl (by rw [total_nil]; omega), fun t ht ↦ ?_⟩⟩
          unfold IsTarget at ht
          rw [if_neg (by decide), if_pos rfl, total_nil] at ht
          have := (isBoundary_bounds ht.1).1
          omega
        · -- the start of the range is the end of the one before
          rw [concat_eq_append] at h hprev htotal ⊢
          obtain ⟨hblock, husage⟩ := hprev previous (by rw [getLast?_concat]; rfl)
          have hsound := h.previous.sound
          have hfit := le_of_dvd hsound.length_pos hsound.blocks
          have hpre : total (init ++ [previous]) = total init + previous.length := by
            rw [total_append, total_cons, total_nil, add_zero]
          have htarget := isTarget_prev h.previous.split hsound.blocks hsound.length_pos le_rfl
          rw [mod_eq_zero_of_dvd hsound.blocks, if_neg (not_not.mpr rfl), hblock] at htarget
          rw [hpre] at htotal ⊢
          refine ⟨⟨by omega, by omega⟩, ⟨Or.inl (by omega), Or.inl (by omega), fun _ ↦ hall,
            fun b p a hb hlt ↦ ?_⟩, Or.inl ?_⟩
          · rcases eq_nil_or_concat a with rfl | ⟨a, last, rfl⟩
            · obtain ⟨-, heq⟩ := append_inj' hb rfl
              rw [← (List.cons.inj heq).1]
              exact husage
            · rw [concat_eq_append, ← cons_append, ← append_assoc] at hb
              have := congrArg total (append_inj' hb rfl).1
              rw [total_append, total_cons] at this
              omega
          · push_cast
            rw [add_zero, zero_add]
            rw [← add_assoc] at htarget
            exact htarget
    · obtain ⟨hfit, hto⟩ := hmeets
      have hoff : seekOffset i offset s = offset := by
        unfold seekOffset
        rw [if_neg hnext, if_neg ‹_›]
      rw [hoff]
      refine ⟨hfit, hto, Or.inl ?_⟩
      unfold IsTarget
      rw [if_neg hnext, if_neg ‹_›]
      ring

/-- A seek that meets the condition goes to what it looks for; if that is not in the space, the
stream stays as it is. -/
theorem seek_meets (hsized : Sized (extents devices s.usage)) (h : Located devices s pre e post)
    (hmeets : ∀ i, startIndex s e origin = some i → SeekMeets devices s pre e post offset i) :
    ∃ s' r, seek devices offset origin s = some (s', r) ∧
      (r = true → ∃ pre' e' post' i, Located devices s' pre' e' post' ∧ s'.usage = s.usage ∧
        s'.currentIndex < e'.length ∧ startIndex s e origin = some i ∧
        IsTarget (extents devices s.usage) (total pre + i) offset (total pre' + s'.currentIndex)) ∧
      (r = false → s' = s ∧ ∀ i t, startIndex s e origin = some i →
        IsTarget (extents devices s.usage) (total pre + i) offset t →
          t < 0 ∨ (total (extents devices s.usage) : ℤ) ≤ t) := by
  have hstart := seekStart_eq h hsized origin
  cases hi : startIndex s e origin with
  | none =>
    rw [hi] at hstart
    refine ⟨s, false, ?_, fun hr ↦ (by cases hr), fun _ ↦ ⟨rfl, fun i t h _ ↦ by cases h⟩⟩
    unfold seek
    rw [hstart]
    rfl
  | some i =>
    rw [hi, map_some] at hstart
    obtain ⟨hfit, hto, htarget⟩ := seekMeets_target hsized h (startIndex_le h hi) (hmeets i hi)
    obtain ⟨s', r, hrun, htrue, hfalse⟩ := seek_spec hsized h hstart hfit hto
    refine ⟨s', r, hrun, fun hr ↦ ?_, fun hr ↦ ⟨(hfalse hr).1, fun j t hj ht ↦ ?_⟩⟩
    · obtain ⟨pre', e', post', hloc, husage, hpos, hin⟩ := htrue hr
      refine ⟨pre', e', post', i, hloc, husage, hin, rfl, ?_⟩
      have htotal : total (extents devices s.usage) = total pre' + e'.length + total post' := by
        rw [← husage, hloc.split, total_append, total_cons, add_assoc]
      rw [hpos]
      obtain htarget | ⟨hout, -⟩ := htarget
      · exact htarget
      · omega
    · cases hj
      obtain htarget | ⟨-, hnone⟩ := htarget
      · rw [isTarget_unique ht htarget]
        exact (hfalse hr).2
      · exact absurd ht (hnone t)

end MicroFramework.BlockStorage
