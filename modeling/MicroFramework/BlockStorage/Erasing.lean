import MicroFramework.BlockStorage.Contents

/-!
# Erasing

Erasing goes from block to block through seeks.  What is left to erase is counted down by the length
of the block that comes next, and not of the one that was erased.
-/

namespace MicroFramework.BlockStorage

open Arrays TinyBooter List Nat

structure Block where
  device : ℕ
  address : ℕ
  length : ℕ
  deriving DecidableEq, Repr

def Extent.blocks (e : Extent) : List Block :=
  (List.range (e.length / e.blockLength)).map fun i ↦
    ⟨e.device, e.address + e.blockLength * i, e.blockLength⟩

/-- The blocks of ranges, one behind the other. -/
def blocks (es : List Extent) : List Block := es.flatMap Extent.blocks

def size (bs : List Block) : ℕ := (bs.map (·.length)).sum

def Block.erase (b : Block) : Access := .eraseBlock b.device b.address

@[simp] theorem size_nil : size [] = 0 := rfl

@[simp] theorem size_cons (b : Block) (bs : List Block) : size (b :: bs) = b.length + size bs := rfl

@[simp] theorem size_append (bs bs' : List Block) : size (bs ++ bs') = size bs + size bs' := by
  unfold size
  rw [map_append, sum_append_nat]

theorem blocks_append (es es' : List Extent) : blocks (es ++ es') = blocks es ++ blocks es' :=
  flatMap_append

theorem blocks_cons (e : Extent) (es : List Extent) : blocks (e :: es) = e.blocks ++ blocks es :=
  rfl

variable {i : ℕ}

theorem size_take_blocks (e : Extent) (hi : i ≤ e.length / e.blockLength) :
    size (e.blocks.take i) = e.blockLength * i := by
  unfold size Extent.blocks
  rw [← map_take, map_map, take_range, Nat.min_eq_left hi]
  have hconst : ((fun b : Block ↦ b.length) ∘ fun i ↦
      (⟨e.device, e.address + e.blockLength * i, e.blockLength⟩ : Block)) =
        fun _ ↦ e.blockLength := rfl
  rw [hconst, map_const', length_range, sum_replicate_nat, Nat.mul_comm]

theorem size_blocks_extent (e : Extent) (h : e.blockLength ∣ e.length) :
    size e.blocks = e.length := by
  have := size_take_blocks e (le_refl (e.length / e.blockLength))
  rw [take_of_length_le (by simp [Extent.blocks])] at this
  rw [this, Nat.mul_div_cancel' h]

variable {es : List Extent}

theorem size_blocks (h : ∀ e ∈ es, e.Sound) : size (blocks es) = total es := by
  induction es with
  | nil => rfl
  | cons e es ih =>
    rw [forall_mem_cons] at h
    rw [blocks_cons, size_append, total_cons, size_blocks_extent e h.1.blocks, ih h.2]

theorem block_pos (h : ∀ e ∈ es, e.Sound) : ∀ b ∈ blocks es, 0 < b.length := by
  intro b hb
  obtain ⟨e, he, hb⟩ := mem_flatMap.mp hb
  obtain ⟨i, -, rfl⟩ := mem_map.mp hb
  exact (h e he).block_pos

variable {bs : List Block}

theorem length_le_size (h : ∀ b ∈ bs, 0 < b.length) : bs.length ≤ size bs := by
  induction bs with
  | nil => exact le_refl 0
  | cons b bs ih =>
    rw [forall_mem_cons] at h
    have := ih h.2
    rw [length_cons, size_cons]
    omega

theorem drop_blocks (e : Extent) (hi : i < e.length / e.blockLength) :
    e.blocks.drop i =
      ⟨e.device, e.address + e.blockLength * i, e.blockLength⟩ :: e.blocks.drop (i + 1) := by
  have hlen : i < e.blocks.length := by simpa [Extent.blocks] using hi
  rw [drop_eq_getElem_cons hlen]
  simp [Extent.blocks]

/-- Of two parts from the start of a list of blocks, the smaller one starts the other. -/
theorem prefix_of_size_le {xs ys all : List Block} (hpos : ∀ b ∈ all, 0 < b.length)
    (hx : xs <+: all) (hy : ys <+: all) (hle : size xs ≤ size ys) : xs <+: ys := by
  rcases prefix_or_prefix_of_prefix hx hy with h | ⟨rest, rfl⟩
  · exact h
  · rw [size_append] at hle
    cases rest with
    | nil => exact ⟨[], by rw [append_nil, append_nil]⟩
    | cons b rest =>
      have := hpos b (hx.subset (mem_append_right _ mem_cons_self))
      rw [size_cons] at hle
      omega

/-- A part from the start of a list of blocks is determined by its size. -/
theorem split_unique {xs ys xs' ys' : List Block} (hpos : ∀ b ∈ xs ++ ys, 0 < b.length)
    (h : xs ++ ys = xs' ++ ys') (hsize : size xs = size xs') : xs = xs' ∧ ys = ys' := by
  have hx : xs' <+: xs ++ ys := h ▸ prefix_append xs' ys'
  have hle := prefix_of_size_le hpos (prefix_append xs ys) hx hsize.le
  have hge := prefix_of_size_le hpos hx (prefix_append xs ys) hsize.ge
  obtain rfl := hle.eq_of_length (le_antisymm hle.length_le hge.length_le)
  exact ⟨rfl, append_cancel_left h⟩

variable {devices : List BlockDeviceInfo} {s : BlockStorageStream} {pre post : List Extent}
  {e : Extent}

theorem sound_extents (devices : List BlockDeviceInfo) (usage : UInt32) :
    ∀ e ∈ extents devices usage, e.Sound := fun _ h ↦ sound_of_mem h

/-! ## Places -/

/-- A position that is not at an end of a range is in one range. -/
theorem place_unique {pre' post' : List Extent} {e' : Extent} {i' : ℕ}
    (h : es = pre ++ e :: post) (h' : es = pre' ++ e' :: post') (hi : i < e.length)
    (hi' : i' < e'.length) (hpos : total pre + i = total pre' + i') :
    pre = pre' ∧ e = e' ∧ post = post' ∧ i = i' := by
  rw [h] at h'
  obtain ⟨c, hpre, hc⟩ | ⟨c, hpre, hc⟩ := append_eq_append_iff.mp h'
  · cases c with
    | nil =>
      rw [append_nil] at hpre
      obtain ⟨rfl, rfl⟩ := List.cons.inj hc
      exact ⟨hpre.symm, rfl, rfl, by rw [hpre] at hpos; omega⟩
    | cons x c =>
      obtain ⟨rfl, -⟩ := List.cons.inj hc
      rw [hpre, total_append, total_cons] at hpos
      omega
  · cases c with
    | nil =>
      rw [append_nil] at hpre
      obtain ⟨rfl, rfl⟩ := List.cons.inj hc
      exact ⟨hpre, rfl, rfl, by rw [hpre] at hpos; omega⟩
    | cons x c =>
      obtain ⟨rfl, -⟩ := List.cons.inj hc
      rw [hpre, total_append, total_cons] at hpos
      omega

/-- The stream is at the start of the first of some blocks, which are the last ones of the space. -/
structure AtBlock (devices : List BlockDeviceInfo) (s : BlockStorageStream) (pre : List Extent)
    (e : Extent) (post : List Extent) (bs : List Block) : Prop where
  located : Located devices s pre e post
  inside : s.currentIndex < e.length
  aligned : ∃ i, s.currentIndex = e.blockLength * i ∧ bs = e.blocks.drop i ++ blocks post

theorem AtBlock.head (h : AtBlock devices s pre e post bs) :
    ∃ b rest, bs = b :: rest ∧ b.device = e.device ∧ b.address = currentAddress s ∧
      b.length = e.blockLength := by
  obtain ⟨hloc, hin, i, hi, rfl⟩ := h
  have hlt : i < e.length / e.blockLength := by
    rw [lt_div_iff_mul_lt_of_dvd hloc.sound.block_pos.ne' hloc.sound.blocks]
    rw [hi] at hin
    rwa [Nat.mul_comm]
  rw [drop_blocks e hlt]
  exact ⟨_, _, rfl, rfl, by rw [hloc.currentAddress hin, hi], rfl⟩

theorem seekMeets_next (hin : s.currentIndex < e.length) :
    ∀ i, startIndex s e .seekCurrent = some i →
      SeekMeets devices s pre e post STREAM_SEEK_NEXT_BLOCK i := by
  intro i hi
  cases hi
  unfold SeekMeets
  rw [if_pos rfl]
  intro heq
  omega

theorem AtBlock.seek {b : Block} {rest : List Block}
    (hsized : Sized (extents devices s.usage)) (h : AtBlock devices s pre e post (b :: rest))
    (hrest : rest ≠ []) :
    ∃ s' pre' e' post', seek devices STREAM_SEEK_NEXT_BLOCK .seekCurrent s = some (s', true) ∧
      s'.usage = s.usage ∧ AtBlock devices s' pre' e' post' rest := by
  obtain ⟨hloc, hin, i, hi, hblocks⟩ := h
  have hdvd := hloc.sound.blocks
  have htotal := hloc.total_eq
  have hlt : i < e.length / e.blockLength := by
    rw [lt_div_iff_mul_lt_of_dvd hloc.sound.block_pos.ne' hdvd]
    rw [hi] at hin
    rwa [Nat.mul_comm]
  rw [drop_blocks e hlt, cons_append] at hblocks
  obtain ⟨-, hrest'⟩ := List.cons.inj hblocks
  have hend := block_end_le hdvd hin
  have htarget := isTarget_next hloc.split hdvd hin
  rw [hi, mul_mod_right, Nat.sub_zero, ← hi] at hend htarget
  -- at the end of the range its blocks are used up
  have hused (heq : s.currentIndex + e.blockLength = e.length) : rest = blocks post := by
    have hcount : e.length / e.blockLength = i + 1 := by
      rw [← heq, hi, ← mul_succ, Nat.mul_div_cancel_left _ hloc.sound.block_pos]
    rw [hrest', drop_of_length_le (by simp [Extent.blocks, hcount]), nil_append]
  obtain ⟨s', r, hrun, htrue, hfalse⟩ := seek_meets hsized hloc (seekMeets_next hin)
  cases r with
  | false =>
    have hout := (hfalse rfl).2 _ _ rfl htarget
    have hzero : total post = 0 := by omega
    cases post with
    | nil => exact absurd (hused (by omega)) hrest
    | cons next post =>
      have := hloc.next.sound.length_pos
      rw [total_cons] at hzero
      omega
  | true =>
    obtain ⟨pre', e', post', j, hloc', husage, hin', hj, htarget'⟩ := htrue rfl
    cases hj
    have hpos := isTarget_unique htarget' htarget
    refine ⟨s', pre', e', post', hrun, husage, hloc', hin', ?_⟩
    obtain hlt | heq := Nat.lt_or_eq_of_le hend
    · obtain ⟨-, rfl, rfl, hindex⟩ := place_unique (husage ▸ hloc'.split) hloc.split hin' hlt
        (by omega)
      exact ⟨i + 1, by rw [hindex, hi, mul_succ], hrest'⟩
    · cases post with
      | nil => exact absurd (hused heq) hrest
      | cons next post =>
        have hpre : total (pre ++ [e]) = total pre + e.length := by
          rw [total_append, total_cons, total_nil, Nat.add_zero]
        obtain ⟨-, rfl, rfl, hindex⟩ := place_unique (husage ▸ hloc'.split) hloc.next.split hin'
          hloc.next.sound.length_pos (by omega)
        exact ⟨0, by rw [hindex, Nat.mul_zero], hused heq⟩

/-! ## The loop -/

variable {respond : Respond}

def moveOn (devices : List BlockDeviceInfo) (s : BlockStorageStream) :
    Option (BlockStorageStream × Bool) :=
  (BlockStorage.seek devices STREAM_SEEK_NEXT_BLOCK .seekCurrent s).map fun found ↦
    if found.2 = true then (found.1, true) else nextStream devices found.1

variable {accesses : List Access}

theorem eraseLoop_refused {turns : ℕ} {len : ℤ} (hlen : 0 < len)
    (h : respond accesses (.eraseBlock (s.device.getD 0) (currentAddress s)) = false) :
    eraseLoop devices respond (turns + 1) len s accesses =
      some (s, accesses ++ [.eraseBlock (s.device.getD 0) (currentAddress s)], none) := by
  rw [eraseLoop, if_pos hlen]
  exact if_pos h

theorem eraseLoop_erased {turns : ℕ} {len : ℤ} (hlen : 0 < len)
    (h : respond accesses (.eraseBlock (s.device.getD 0) (currentAddress s)) = true) :
    eraseLoop devices respond (turns + 1) len s accesses =
      (moveOn devices s).bind fun moved ↦
        if moved.2 = true then
          eraseLoop devices respond turns (int32 (len - moved.1.blockLength)) moved.1
            (accesses ++ [.eraseBlock (s.device.getD 0) (currentAddress s)])
        else
          some (moved.1, accesses ++ [.eraseBlock (s.device.getD 0) (currentAddress s)],
            some false) := by
  rw [eraseLoop, if_pos hlen]
  dsimp only
  rw [h, if_neg Bool.true_eq_false.mp]
  unfold moveOn
  cases BlockStorage.seek devices STREAM_SEEK_NEXT_BLOCK .seekCurrent s with
  | none | some found => rfl

/-- The loop over the blocks of an area erases exactly these, if the block behind the area is not
shorter than the first one. -/
theorem eraseLoop_blocks {usage : UInt32} (hsized : Sized (extents devices usage)) (turns : ℕ) :
    ∀ {s : BlockStorageStream} {pre post : List Extent} {e : Extent} {area a : List Block}
      {first : ℕ} {len : ℤ} {accesses : List Access}, s.usage = usage →
      AtBlock devices s pre e post (area ++ a) → a ≠ [] → area.length ≤ turns →
      len = size area + first - e.blockLength → len < 2 ^ 31 → 0 < first →
      (∀ x ∈ a.head?, first ≤ x.length) →
      (∀ p b q, area = p ++ b :: q → respond (accesses ++ p.map Block.erase) b.erase = true) →
      ∃ s', eraseLoop devices respond turns len s accesses =
        some (s', accesses ++ area.map Block.erase, some true) := by
  induction turns with
  | zero =>
    intro s pre post e area a first len accesses husage h ha hturns hlen _ _ hfirst _
    obtain rfl := length_eq_zero_iff.mp (le_zero.mp hturns)
    obtain ⟨b, rest, hab, -, -, hb⟩ := h.head
    rw [nil_append] at hab
    have := hfirst b (by rw [hab]; rfl)
    refine ⟨s, ?_⟩
    rw [eraseLoop, if_neg (by rw [hlen, size_nil]; omega), map_nil, append_nil]
  | succ turns ih =>
    intro s pre post e area a first len accesses husage h ha hturns hlen hbound hpos hfirst hyes
    obtain ⟨b, rest, hab, hdevice, haddress, hb⟩ := h.head
    cases area with
    | nil =>
      rw [nil_append] at hab
      have := hfirst b (by rw [hab]; rfl)
      refine ⟨s, ?_⟩
      rw [eraseLoop, if_neg (by rw [hlen, size_nil]; omega), map_nil, append_nil]
    | cons x area =>
      obtain ⟨rfl, hrest⟩ := List.cons.inj hab
      have hne : rest ≠ [] := hrest ▸ append_ne_nil_of_right_ne_nil _ ha
      have hrequest : Access.eraseBlock (s.device.getD 0) (currentAddress s) = x.erase := by
        rw [h.located.device_eq, Block.erase, hdevice, haddress]
        rfl
      have hok := hyes [] x area rfl
      rw [map_nil, append_nil] at hok
      rw [size_cons] at hlen
      rw [hab] at h
      obtain ⟨s', pre', e', post', hseek, husage', hat⟩ := h.seek (husage ▸ hsized) hne
      rw [eraseLoop_erased (by omega) (by rw [hrequest]; exact hok), hrequest, moveOn, hseek,
        Option.map_some, Option.bind_some, if_pos rfl]
      dsimp only
      rw [if_pos rfl, hat.located.blockLength_eq]
      have hlen' := hat.located.length_lt (husage' ▸ husage ▸ hsized)
      have hle := le_of_dvd hat.located.sound.length_pos hat.located.sound.blocks
      rw [int32_eq ⟨by omega, by omega⟩]
      rw [← hrest] at hat
      rw [length_cons] at hturns
      have hyes' (p : List Block) (b : Block) (q : List Block) (hsplit : area = p ++ b :: q) :
          respond (accesses ++ [x.erase] ++ p.map Block.erase) b.erase = true := by
        rw [append_assoc, singleton_append, ← map_cons]
        exact hyes (x :: p) b q (by rw [hsplit, cons_append])
      obtain ⟨t, hrun⟩ := ih (husage'.trans husage) hat ha (by omega)
        (show len - e'.blockLength = size area + first - e'.blockLength by omega) (by omega) hpos
        hfirst hyes'
      refine ⟨t, hrun.trans ?_⟩
      rw [append_assoc, singleton_append, map_cons]

/-- The stream goes on into a range, or it is at the end of the last one. -/
theorem moveOn_spec (hsized : Sized (extents devices s.usage)) (h : Located devices s pre e post)
    (hin : s.currentIndex < e.length) :
    ∃ moved pre' e' post', moveOn devices s = some moved ∧ moved.1.usage = s.usage ∧
      Located devices moved.1 pre' e' post' ∧
      (moved.2 = true → moved.1.currentIndex < e'.length) := by
  obtain ⟨s', r, hrun, htrue, hfalse⟩ := seek_meets hsized h (seekMeets_next hin)
  unfold moveOn
  rw [hrun, Option.map_some]
  cases r with
  | true =>
    obtain ⟨pre', e', post', -, hloc, hsame, hin', -⟩ := htrue rfl
    exact ⟨_, pre', e', post', rfl, hsame, hloc, fun _ ↦ hin'⟩
  | false =>
    obtain ⟨rfl, -⟩ := hfalse rfl
    dsimp only
    rw [if_neg Bool.false_ne_true, h.nextStream]
    cases post with
    | nil => exact ⟨_, pre, e, [], rfl, rfl, h, fun hr ↦ by cases hr⟩
    | cons next rest =>
      exact ⟨_, pre ++ [e], next, rest, rfl, rfl, h.next, fun _ ↦ h.next.sound.length_pos⟩

theorem eraseLoop_defined {usage : UInt32} (hsized : Sized (extents devices usage)) (turns : ℕ) :
    ∀ {s : BlockStorageStream} {pre post : List Extent} {e : Extent} {len : ℤ}
      {accesses : List Access}, s.usage = usage → Located devices s pre e post →
      s.currentIndex < e.length → len ≤ turns → len < 2 ^ 31 →
      ∃ s' new r, eraseLoop devices respond turns len s accesses = some (s', accesses ++ new, r) ∧
        s'.usage = usage ∧ ∃ pre' e' post', Located devices s' pre' e' post' := by
  induction turns with
  | zero =>
    intro s pre post e len accesses husage h _ hturns _
    refine ⟨s, [], some true, ?_, husage, pre, e, post, h⟩
    rw [eraseLoop, if_neg (by simpa using hturns), append_nil]
  | succ turns ih =>
    intro s pre post e len accesses husage h hin hturns hbound
    by_cases hlen : 0 < len
    · cases hyes : respond accesses (.eraseBlock (s.device.getD 0) (currentAddress s)) with
      | false => exact ⟨s, _, none, eraseLoop_refused hlen hyes, husage, pre, e, post, h⟩
      | true =>
        obtain ⟨⟨s', found⟩, pre', e', post', hmove, husage', hloc, hin'⟩ :=
          moveOn_spec (husage ▸ hsized) h hin
        rw [eraseLoop_erased hlen hyes, hmove, Option.bind_some]
        dsimp only at hloc hin' husage' ⊢
        cases found with
        | false => exact ⟨s', _, some false, rfl, husage'.trans husage, pre', e', post', hloc⟩
        | true =>
          have hlen' := hloc.length_lt (husage' ▸ husage ▸ hsized)
          have hle := le_of_dvd hloc.sound.length_pos hloc.sound.blocks
          have hpos := hloc.sound.block_pos
          rw [if_pos rfl, hloc.blockLength_eq, int32_eq ⟨by omega, by omega⟩]
          obtain ⟨t, new, r, hrun, hrest⟩ := @ih _ _ _ _ (len - e'.blockLength)
            (accesses ++ [.eraseBlock (s.device.getD 0) (currentAddress s)])
            (husage'.trans husage) hloc (hin' rfl) (by push_cast at hturns; omega) (by omega)
          exact ⟨t, _ :: new, r, by rw [hrun, append_assoc, singleton_append], hrest⟩
    · refine ⟨s, [], some true, ?_, husage, pre, e, post, h⟩
      rw [eraseLoop, if_neg hlen, append_nil]

/-! ## An area -/

section

variable (h : Located devices s pre e post)

include h

/-- The blocks before a position tell where it is. -/
theorem atBlock_of_split {b : List Block}
    (hin : s.currentIndex < e.length) (hblocks : blocks (extents devices s.usage) = b ++ bs)
    (hsize : size b = total pre + s.currentIndex) : AtBlock devices s pre e post bs := by
  have hsound := sound_extents devices s.usage
  have hpos := block_pos hsound
  have hall : blocks pre ++ (e.blocks ++ blocks post) = b ++ bs := by
    rw [← hblocks, h.split, blocks_append, blocks_cons]
  have hpre : blocks pre <+: b := by
    refine prefix_of_size_le hpos ?_ ?_ ?_
    · rw [hblocks, ← hall]
      exact prefix_append _ _
    · rw [hblocks]
      exact prefix_append _ _
    · rw [size_blocks fun x hx ↦ hsound x (by rw [h.split]; exact mem_append_left _ hx),
        hsize]
      exact le_add_right _ _
  obtain ⟨c, rfl⟩ := hpre
  rw [append_assoc] at hall
  have hrest := append_cancel_left hall
  rw [size_append, size_blocks fun x hx ↦ hsound x (by
    rw [h.split]; exact mem_append_left _ hx), Nat.add_left_cancel_iff] at hsize
  have hc : c <+: e.blocks := by
    refine prefix_of_size_le (fun x hx ↦ hpos x ?_) (hrest ▸ prefix_append c bs)
      (prefix_append _ (blocks post)) ?_
    · rw [h.split, blocks_append, blocks_cons]
      exact mem_append_right _ hx
    · rw [hsize, size_blocks_extent e h.sound.blocks]
      exact hin.le
  have htake := prefix_iff_eq_take.mp hc
  have hlen := hc.length_le
  refine ⟨h, hin, c.length, ?_, ?_⟩
  · rw [← hsize, htake, length_take, Nat.min_eq_left hlen]
    exact size_take_blocks e (by simpa [Extent.blocks] using hlen)
  · rw [← take_append_drop c.length e.blocks, ← htake, append_assoc] at hrest
    exact (append_cancel_left hrest).symm

theorem erase_of_entered {length : ℕ} {t : BlockStorageStream}
    (henter : (if s.currentIndex = s.length then nextStream devices s else (s, true)) = (t, true)) :
    erase devices respond length s accesses =
      (eraseLoop devices respond length (int32 length) t accesses).map fun stopped ↦
        match stopped.2.2 with
        | none => (stopped.1, stopped.2.1, false)
        | some result => (s, stopped.2.1, result) := by
  unfold erase
  rw [h.hasDevice, if_neg Bool.true_eq_false.mp]
  dsimp only
  rw [henter]
  exact if_neg Bool.true_eq_false.mp

/-- In front of a byte of the space, the stream can be brought into the range of the byte. -/
theorem Located.entered (hin : total pre + s.currentIndex < total (extents devices s.usage)) :
    ∃ t pre' e' post',
      (if s.currentIndex = s.length then BlockStorage.nextStream devices s else (s, true)) =
        (t, true) ∧ t.usage = s.usage ∧ Located devices t pre' e' post' ∧
      t.currentIndex < e'.length ∧
      total pre' + t.currentIndex = total pre + s.currentIndex := by
  have htotal := h.total_eq
  have hinside := h.inside
  rw [h.length_eq]
  by_cases hend : s.currentIndex = e.length
  · rw [if_pos hend, h.nextStream]
    cases post with
    | nil =>
      rw [total_nil] at htotal
      omega
    | cons next rest =>
      refine ⟨enter s next, pre ++ [e], next, rest, rfl, rfl, h.next, h.next.sound.length_pos, ?_⟩
      rw [hend, total_append, total_cons, total_nil]
      rfl
  · rw [if_neg hend]
    exact ⟨s, pre, e, post, rfl, rfl, h, by omega, rfl⟩

end

/-- Erasing stops, in a range of the usage. -/
theorem erase_defined {length : ℕ}
    (hsized : Sized (extents devices s.usage)) (h : Located devices s pre e post)
    (hlength : length < 2 ^ 32) :
    ∃ s' new r, erase devices respond length s accesses = some (s', accesses ++ new, r) ∧
      s'.usage = s.usage ∧ ∃ pre' e' post', Located devices s' pre' e' post' := by
  by_cases hin : total pre + s.currentIndex < total (extents devices s.usage)
  · obtain ⟨t, pre', e', post', henter, husage, hloc, hin', -⟩ := h.entered hin
    have hlen : int32 length ≤ length ∧ int32 length < 2 ^ 31 := by
      have hrange := int32_isInt32 length
      unfold int32 at hrange ⊢
      rw [Int.bmod_def] at hrange ⊢
      exact ⟨by split <;> omega, hrange.2⟩
    obtain ⟨s', new, r, hrun, husage', hloc'⟩ := @eraseLoop_defined devices respond s.usage hsized
      length t pre' post' e' (int32 length) accesses husage hloc hin' hlen.1 hlen.2
    rw [erase_of_entered h henter, hrun, Option.map_some]
    cases r with
    | none => exact ⟨s', new, false, rfl, husage', hloc'⟩
    | some r => exact ⟨s, new, r, rfl, rfl, pre, e, post, h⟩
  · have htotal := h.total_eq
    have hinside := h.inside
    have hpost : post = [] := by
      cases post with
      | nil => rfl
      | cons next rest =>
        have := h.next.sound.length_pos
        rw [total_cons] at htotal
        omega
    subst hpost
    rw [total_nil] at htotal
    have hend : s.currentIndex = s.length := by
      rw [h.length_eq]
      omega
    refine ⟨s, [], false, ?_, rfl, pre, e, [], h⟩
    unfold erase
    rw [h.hasDevice, if_neg Bool.true_eq_false.mp, if_pos hend, h.nextStream, append_nil]
    rfl

/-- When erasing an area does what it should: another block follows, which is not shorter than the
first one of the area, and no block but the first is refused. -/
structure EraseMeets (respond : Respond) (accesses : List Access) (area a : List Block) : Prop where
  size_lt : size area < 2 ^ 31
  follows : a ≠ []
  first_le : ∀ x ∈ area.head?, ∀ y ∈ a.head?, x.length ≤ y.length
  accepted : ∀ p x q, area = p ++ x :: q → p ≠ [] →
    respond (accesses ++ p.map Block.erase) x.erase = true

/-- Erasing an area that meets the condition erases its blocks, and the stream is where it was. -/
theorem erase_area {b area a : List Block}
    (hsized : Sized (extents devices s.usage)) (h : Located devices s pre e post)
    (hblocks : blocks (extents devices s.usage) = b ++ (area ++ a))
    (hpos : size b = total pre + s.currentIndex) (hmeets : EraseMeets respond accesses area a) :
    ∃ s' new r, erase devices respond (size area) s accesses = some (s', accesses ++ new, r) ∧
      s'.usage = s.usage ∧
      (∃ pre' e' post', Located devices s' pre' e' post' ∧
        total pre' + s'.currentIndex = total pre + s.currentIndex) ∧
      new <+: area.map Block.erase ∧
      ((∀ p x q, area = p ++ x :: q → respond (accesses ++ p.map Block.erase) x.erase = true) →
        new = area.map Block.erase ∧ r = true ∧ s' = s) := by
  have hsound := sound_extents devices s.usage
  have htotal := size_blocks hsound
  have hblockpos := block_pos hsound
  have hsizepos : 0 < size a := by
    cases a with
    | nil => exact absurd rfl hmeets.follows
    | cons y a =>
      have := hblockpos y (by
        rw [hblocks]
        exact mem_append_right _ (mem_append_right _ mem_cons_self))
      rw [size_cons]
      omega
  rw [hblocks, size_append, size_append] at htotal
  obtain ⟨t, pre', e', post', henter, husage, hloc, hin', hpos'⟩ := h.entered (by omega)
  have hat := atBlock_of_split hloc hin' (husage ▸ hblocks) (hpos.trans hpos'.symm)
  have hlen : int32 (size area) = size area := by
    have := hmeets.size_lt
    exact int32_eq ⟨by omega, by omega⟩
  have hall : (∀ p x q, area = p ++ x :: q →
      respond (accesses ++ p.map Block.erase) x.erase = true) →
      ∃ s', eraseLoop devices respond (size area) (size area) t accesses =
        some (s', accesses ++ area.map Block.erase, some true) := by
    intro hyes
    obtain ⟨y, rest, hab, -, -, hy⟩ := hat.head
    have hle : area.length ≤ size area := length_le_size fun x hx ↦ hblockpos x (by
      rw [hblocks]
      exact mem_append_right _ (mem_append_left _ hx))
    refine eraseLoop_blocks hsized (size area) husage hat hmeets.follows hle
      (show (size area : ℤ) = size area + e'.blockLength - e'.blockLength by ring)
      (by have := hmeets.size_lt; omega) hloc.sound.block_pos ?_ hyes
    intro x hx
    cases area with
    | nil =>
      rw [nil_append] at hab
      rw [hab] at hx
      cases hx
      exact hy.ge
    | cons z area =>
      obtain ⟨rfl, -⟩ := List.cons.inj hab
      rw [← hy]
      exact hmeets.first_le z rfl x hx
  rw [erase_of_entered h henter, hlen]
  by_cases hyes : ∀ p x q, area = p ++ x :: q →
      respond (accesses ++ p.map Block.erase) x.erase = true
  · obtain ⟨s', hrun⟩ := hall hyes
    rw [hrun, Option.map_some]
    exact ⟨s, area.map Block.erase, true, rfl, rfl, ⟨pre, e, post, h, rfl⟩, prefix_rfl,
      fun _ ↦ ⟨rfl, rfl, rfl⟩⟩
  · -- the first block is refused
    cases area with
    | nil => exact absurd (fun p x q hsplit ↦ absurd hsplit.symm
        (append_ne_nil_of_right_ne_nil _ (cons_ne_nil _ _))) hyes
    | cons z area =>
      obtain ⟨y, rest, hab, hdevice, haddress, hy⟩ := hat.head
      obtain ⟨rfl, -⟩ := List.cons.inj hab
      have hrequest : Access.eraseBlock (t.device.getD 0) (currentAddress t) = z.erase := by
        rw [hloc.device_eq, Block.erase, hdevice, haddress]
        rfl
      have hno : respond accesses z.erase = false := by
        by_contra hne
        refine hyes fun p x q hsplit ↦ ?_
        cases p with
        | nil =>
          obtain ⟨rfl, -⟩ := List.cons.inj hsplit
          rw [map_nil, append_nil]
          exact Bool.eq_true_of_not_eq_false hne
        | cons p ps => exact hmeets.accepted _ x q hsplit (cons_ne_nil _ _)
      have hzpos : 0 < z.length := hblockpos z (by
        rw [hblocks]
        exact mem_append_right _ (mem_append_left _ mem_cons_self))
      obtain ⟨turns, hturns⟩ : ∃ turns, size (z :: area) = turns + 1 :=
        ⟨size (z :: area) - 1, by rw [size_cons]; omega⟩
      rw [hturns, eraseLoop_refused (by omega) (by rw [hrequest]; exact hno), hrequest,
        Option.map_some]
      refine ⟨t, [z.erase], false, rfl, husage, ⟨pre', e', post', hloc, hpos'⟩, ?_,
        fun hyes' ↦ absurd hyes' hyes⟩
      rw [map_cons]
      exact prefix_cons_inj _ |>.mpr (List.nil_prefix)

end MicroFramework.BlockStorage
