import MicroFramework.BlockStorage.Seeking

/-!
# Reading, writing and erasing

The bytes of the ranges of a usage are one array, and so are their blocks.  A transfer goes over the
array from the position of the stream, a part in each range; erasing goes over the blocks.
-/

namespace MicroFramework.BlockStorage

open Arrays TinyBooter List Nat

/-- The bytes of a range: their device and address. -/
def Extent.bytes (e : Extent) : List (ℕ × ℕ) :=
  (List.range e.length).map fun i ↦ (e.device, e.address + i)

/-- The bytes of ranges, one behind the other. -/
def space (es : List Extent) : List (ℕ × ℕ) := es.flatMap Extent.bytes

/-- The bytes an access reads or writes, with their places in the buffer. -/
def accessBytes : Access → List ((ℕ × ℕ) × ℕ)
  | .read device address length buffer =>
    (List.range length).map fun i ↦ ((device, address + i), buffer + i)
  | .write device address length buffer =>
    (List.range length).map fun i ↦ ((device, address + i), buffer + i)
  | .map _ _ => []
  | .eraseBlock _ _ => []

@[simp] theorem length_bytes (e : Extent) : e.bytes.length = e.length := by
  unfold Extent.bytes
  rw [length_map, length_range]

theorem space_append (es es' : List Extent) : space (es ++ es') = space es ++ space es' :=
  flatMap_append

theorem space_cons (e : Extent) (es : List Extent) : space (e :: es) = e.bytes ++ space es := rfl

@[simp] theorem length_space (es : List Extent) : (space es).length = total es := by
  induction es with
  | nil => rfl
  | cons e es ih => rw [space_cons, length_append, ih, length_bytes, total_cons]

variable {devices : List BlockDeviceInfo} {s : BlockStorageStream} {pre post : List Extent}
  {e : Extent}

/-- From the position of a stream on there is the rest of its range, and the ranges behind. -/
theorem Located.drop_space (h : Located devices s pre e post) :
    (space (extents devices s.usage)).drop (total pre + s.currentIndex) =
      e.bytes.drop s.currentIndex ++ space post := by
  have := h.inside
  rw [h.split, space_append, space_cons, ← length_space pre, drop_length_add_append,
    drop_append_of_le_length (by rw [length_bytes]; exact this)]

theorem take_drop_bytes (e : Extent) {i count : ℕ} (h : i + count ≤ e.length) :
    (e.bytes.drop i).take count = (List.range count).map fun j ↦ (e.device, e.address + i + j) := by
  refine ext_getElem ?_ fun j hj _ ↦ ?_
  · simp only [length_take, length_drop, length_bytes, length_map,
      length_range]
    omega
  · simp only [Extent.bytes, getElem_take, getElem_drop, getElem_map,
      getElem_range, Nat.add_assoc]

section

variable (h : Located devices s pre e post)

include h

theorem Located.currentAddress (hin : s.currentIndex < e.length) :
    currentAddress s = e.address + s.currentIndex := by
  have := h.sound.bound
  unfold BlockStorage.currentAddress
  rw [h.baseAddress_eq, mod_eq_of_lt (by omega)]

theorem Located.hasDevice : hasDevice devices s = true := by
  obtain ⟨device, region, range, hat, -⟩ := h.place
  have hd := (List.getElem?_eq_some_iff.mp hat.device_eq).1
  unfold BlockStorage.hasDevice
  rw [h.device_eq]
  exact decide_eq_true hd

/-- The stream further on in its range. -/
theorem Located.advance {i : ℕ} (hi : i ≤ e.length) :
    Located devices { s with currentIndex := i } pre e post :=
  ⟨h.split, h.device_eq, h.regionIndex_eq, h.rangeIndex_eq, h.baseAddress_eq, h.length_eq,
    h.blockLength_eq, hi⟩

end

/-! ## Turns of a transfer -/

variable {part : List Access → BlockStorageStream → ℕ → ℕ → List Access × Bool}
  {turns length buffer : ℕ} {accesses : List Access}

theorem transfer_zero :
    transfer devices part turns 0 buffer s accesses = some (s, accesses, true) := by
  cases turns <;> rfl

theorem transfer_end (h : Located devices s pre e []) (hend : s.currentIndex = e.length)
    (hlength : length ≠ 0) :
    transfer devices part (turns + 1) length buffer s accesses = some (s, accesses, false) := by
  unfold transfer
  rw [if_neg hlength, if_pos (hend.trans h.length_eq.symm), h.nextStream]
  rfl

/-- At the end of a range a transfer goes on at the start of the next one. -/
theorem transfer_enter {next : Extent} {rest : List Extent}
    (h : Located devices s pre e (next :: rest)) (hend : s.currentIndex = e.length)
    (hlength : length ≠ 0) :
    transfer devices part (turns + 1) length buffer s accesses =
      transfer devices part (turns + 1) length buffer (enter s next) accesses := by
  have hpos := h.next.sound.length_pos
  have hne : (enter s next).currentIndex ≠ (enter s next).length := by
    show 0 ≠ next.length
    omega
  unfold transfer
  rw [if_neg hlength, if_neg hlength, if_pos (hend.trans h.length_eq.symm), h.nextStream,
    if_neg hne, head?_cons]

/-- In a range a turn does what is left of the transfer, or of the range. -/
theorem transfer_part (h : Located devices s pre e post) (hin : s.currentIndex < e.length)
    (hlength : length ≠ 0) (hfit : s.currentIndex + length < 2 ^ 32) :
    transfer devices part (turns + 1) length buffer s accesses =
      if (part accesses s (min length (e.length - s.currentIndex)) buffer).2 = false then
        some (s, (part accesses s (min length (e.length - s.currentIndex)) buffer).1, false)
      else
        transfer devices part turns (length - min length (e.length - s.currentIndex))
          (buffer + min length (e.length - s.currentIndex))
          { s with currentIndex := s.currentIndex + min length (e.length - s.currentIndex) }
          (part accesses s (min length (e.length - s.currentIndex)) buffer).1 := by
  have hbound := h.sound.bound
  have hcount : (if s.length < (s.currentIndex + length) % 2 ^ 32 then
      (s.length + 2 ^ 32 - s.currentIndex) % 2 ^ 32 else length) =
        min length (e.length - s.currentIndex) := by
    rw [h.length_eq, mod_eq_of_lt hfit]
    split
    · rw [show e.length + 2 ^ 32 - s.currentIndex = e.length - s.currentIndex + 2 ^ 32 by omega,
        add_mod_right, mod_eq_of_lt (by omega)]
      omega
    · omega
  have hindex : (s.currentIndex + min length (e.length - s.currentIndex)) % 2 ^ 32 =
      s.currentIndex + min length (e.length - s.currentIndex) := mod_eq_of_lt (by omega)
  have hne : s.currentIndex ≠ s.length := by
    rw [h.length_eq]
    omega
  rw [transfer, if_neg hlength, if_neg hne]
  dsimp only
  rw [if_neg Bool.true_eq_false.mp, hcount, hindex]

/-! ## Asking the devices -/

variable {respond : Respond} {access : ℕ → ℕ → ℕ → ℕ → Access}

/-- The bytes from a position on went between the devices and the buffer, up to the end of the space
or to a part that was refused. -/
def Transferred (devices : List BlockDeviceInfo) (respond : Respond) (usage : UInt32)
    (pos length buffer : ℕ) (accesses : List Access) (s' : BlockStorageStream)
    (accesses' : List Access) (r : Bool) : Prop :=
  ∃ pre' e' post' new k, Located devices s' pre' e' post' ∧ s'.usage = usage ∧
    accesses' = accesses ++ new ∧ k ≤ length ∧
    new.flatMap accessBytes = (((space (extents devices usage)).drop pos).take k).zipIdx buffer ∧
    pos ≤ total pre' + s'.currentIndex ∧ total pre' + s'.currentIndex ≤ pos + k ∧
    (r = true → k = length ∧ total pre' + s'.currentIndex = pos + length) ∧
    (r = false → total (extents devices usage) < pos + length ∨
      ∃ b request a, new = b ++ request :: a ∧ respond (accesses ++ b) request = false)

theorem accessBytes_part (haccess : ∀ d a n b, accessBytes (access d a n b) =
      (List.range n).map fun i ↦ ((d, a + i), b + i))
    (h : Located devices s pre e post) (hin : s.currentIndex < e.length) (count buffer : ℕ)
    (hcount : s.currentIndex + count ≤ e.length) :
    accessBytes (access (s.device.getD 0) (currentAddress s) count buffer) =
      (((space (extents devices s.usage)).drop (total pre + s.currentIndex)).take count).zipIdx
        buffer := by
  have hlen : count ≤ (e.bytes.drop s.currentIndex).length := by
    rw [length_drop, length_bytes]
    omega
  rw [h.drop_space, take_append_of_le_length hlen, take_drop_bytes e hcount, haccess,
    h.currentAddress hin, h.device_eq, Option.getD_some]
  refine ext_getElem (by simp) fun j _ _ ↦ ?_
  simp

/-- A part that was done, and the rest of the transfer behind it. -/
theorem Transferred.cons {usage : UInt32} {pos length buffer count : ℕ} {s' : BlockStorageStream}
    {accesses accesses' : List Access} {request : Access} {r : Bool} (hcount : count ≤ length)
    (hbytes : accessBytes request =
      (((space (extents devices usage)).drop pos).take count).zipIdx buffer)
    (hspace : pos + count ≤ total (extents devices usage))
    (h : Transferred devices respond usage (pos + count) (length - count) (buffer + count)
      (accesses ++ [request]) s' accesses' r) :
    Transferred devices respond usage pos length buffer accesses s' accesses' r := by
  obtain ⟨pre', e', post', new, k, hloc, husage, hacc, hk, hnew, hlo, hhi, htrue, hfalse⟩ := h
  refine ⟨pre', e', post', request :: new, count + k, hloc, husage, ?_, by omega, ?_, by omega,
    by omega, fun hr ↦ ?_, fun hr ↦ ?_⟩
  · rw [hacc, append_assoc, singleton_append]
  · have hlen : ((space (extents devices usage)).drop pos).length =
        total (extents devices usage) - pos := by rw [length_drop, length_space]
    rw [flatMap_cons, hbytes, hnew, take_add, zipIdx_append, drop_drop,
      length_take, hlen, Nat.min_eq_left (by omega)]
  · obtain ⟨hk', hpos⟩ := htrue hr
    exact ⟨by omega, by omega⟩
  · obtain hend | ⟨b, refused, a, hsplit, hno⟩ := hfalse hr
    · exact Or.inl (by omega)
    · refine Or.inr ⟨request :: b, refused, a, by rw [hsplit, cons_append], ?_⟩
      rwa [append_assoc, singleton_append] at hno

theorem Located.total_eq (h : Located devices s pre e post) :
    total (extents devices s.usage) = total pre + e.length + total post := by
  rw [h.split, total_append, total_cons, Nat.add_assoc]

theorem transferred_zero (h : Located devices s pre e post) (buffer : ℕ) (accesses : List Access) :
    Transferred devices respond s.usage (total pre + s.currentIndex) 0 buffer accesses s accesses
      true :=
  ⟨pre, e, post, [], 0, h, rfl, (append_nil _).symm, le_refl 0, rfl, le_refl _, le_refl _,
    fun _ ↦ ⟨rfl, rfl⟩, fun hr ↦ by cases hr⟩

/-- A transfer with the devices moves the bytes from the position of the stream on. -/
theorem transfer_ask (haccess : ∀ d a n b, accessBytes (access d a n b) =
      (List.range n).map fun i ↦ ((d, a + i), b + i)) (turns : ℕ) :
    ∀ {s : BlockStorageStream} {pre post : List Extent} {e : Extent} {length buffer : ℕ}
      {accesses : List Access}, Located devices s pre e post → length ≤ turns →
      (if s.currentIndex = e.length then 0 else s.currentIndex) + length < 2 ^ 32 →
      ∃ s' accesses' r,
        transfer devices (ask respond access) turns length buffer s accesses =
          some (s', accesses', r) ∧
        Transferred devices respond s.usage (total pre + s.currentIndex) length buffer accesses s'
          accesses' r := by
  induction turns with
  | zero =>
    intro s pre post e length buffer accesses h hturns _
    obtain rfl := le_zero.mp hturns
    exact ⟨s, accesses, true, transfer_zero, transferred_zero h buffer accesses⟩
  | succ turns ih =>
    -- inside a range: one part, and the rest by induction
    have hpart : ∀ {s : BlockStorageStream} {pre post : List Extent} {e : Extent}
        {length buffer : ℕ} {accesses : List Access}, Located devices s pre e post →
        length ≤ turns + 1 → length ≠ 0 → s.currentIndex < e.length →
        s.currentIndex + length < 2 ^ 32 →
        ∃ s' accesses' r,
          transfer devices (ask respond access) (turns + 1) length buffer s accesses =
            some (s', accesses', r) ∧
          Transferred devices respond s.usage (total pre + s.currentIndex) length buffer accesses
            s' accesses' r := by
      intro s pre post e length buffer accesses h hturns hlength hin hfit
      have htotal := h.total_eq
      rw [transfer_part h hin hlength hfit]
      generalize hc : min length (e.length - s.currentIndex) = count
      have hbytes := accessBytes_part haccess h hin count buffer (by omega)
      have hspace : total pre + s.currentIndex + count ≤ total (extents devices s.usage) := by omega
      unfold ask
      dsimp only
      generalize access (s.device.getD 0) (currentAddress s) count buffer = request at hbytes ⊢
      by_cases hno : respond accesses request = false
      · rw [if_pos hno]
        refine ⟨s, _, false, rfl, pre, e, post, [request], count, h, rfl, rfl, by omega, ?_,
          by omega, by omega, fun hr ↦ (by cases hr), fun _ ↦ Or.inr ⟨[], request, [], rfl, ?_⟩⟩
        · rw [flatMap_cons, flatMap_nil, append_nil, hbytes]
        · rwa [append_nil]
      · rw [if_neg hno]
        have hadvance := h.advance (i := s.currentIndex + count) (by omega)
        obtain ⟨s', accesses', r, hrun, hdone⟩ := @ih _ _ _ _ (length - count)
          (buffer + count) (accesses ++ [request]) hadvance (by omega) (by
            dsimp only
            split <;> omega)
        refine ⟨s', accesses', r, hrun, Transferred.cons (by omega) hbytes hspace ?_⟩
        rw [Nat.add_assoc]
        exact hdone
    intro s pre post e length buffer accesses h hturns hfit
    by_cases hlength : length = 0
    · subst hlength
      exact ⟨s, accesses, true, transfer_zero, transferred_zero h buffer accesses⟩
    by_cases hend : s.currentIndex = e.length
    · cases post with
      | nil =>
        have htotal := h.total_eq
        rw [total_nil] at htotal
        exact ⟨s, accesses, false, transfer_end h hend hlength, pre, e, [], [], 0, h, rfl,
          (append_nil _).symm, by omega, rfl, by omega, by omega, fun hr ↦ (by cases hr),
          fun _ ↦ Or.inl (by omega)⟩
      | cons next rest =>
        rw [transfer_enter h hend hlength]
        rw [if_pos hend, Nat.zero_add] at hfit
        have hpos : total pre + s.currentIndex =
            total (pre ++ [e]) + (enter s next).currentIndex := by
          rw [hend, total_append, total_cons, total_nil]
          rfl
        rw [hpos]
        exact hpart h.next hturns hlength h.next.sound.length_pos
          (by rw [show (enter s next).currentIndex = 0 from rfl]; omega)
    · rw [if_neg hend] at hfit
      have := h.inside
      exact hpart h hturns hlength (by omega) hfit

/-! ## Mapped devices -/

/-- The device has its bytes in the address space of the processor. -/
def mapped (devices : List BlockDeviceInfo) (d : ℕ) : Bool :=
  ((devices[d]?).map (·.supportsXIP)).getD false

theorem mapped_of_mem {usage : UInt32} (h : e ∈ extents devices usage) :
    mapped devices e.device = e.supportsXIP := by
  obtain ⟨d, i, j, device, region, range, hat, rfl⟩ := mem_allExtents (mem_of_mem_filter h)
  unfold mapped
  rw [show (extentOf d device i region j range).device = d from rfl, hat.device_eq]
  rfl

/-- So many bytes behind a range are mapped behind its end. -/
def Adjoining : ℕ → Extent → List Extent → Prop
  | _, _, [] => True
  | n, e, next :: rest => n ≠ 0 → next.supportsXIP = true ∧
      next.address = e.address + e.length ∧ Adjoining (n - next.length) next rest

/-- Adjoining ranges are one range of addresses. -/
theorem adjoining_bytes (post : List Extent) : ∀ {e : Extent} {i n : ℕ}, i ≤ e.length →
    n ≤ e.length - i + total post → e.supportsXIP = true →
    Adjoining (n - (e.length - i)) e post →
    (((e.bytes.drop i ++ space post).take n).map Prod.snd =
        (List.range n).map fun j ↦ e.address + i + j) ∧
      ∀ b ∈ (e.bytes.drop i ++ space post).take n, ∃ x ∈ e :: post,
        x.supportsXIP = true ∧ b.1 = x.device := by
  have hwithin : ∀ {e : Extent} {i n : ℕ} (post : List Extent), i + n ≤ e.length →
      e.supportsXIP = true →
      (((e.bytes.drop i ++ space post).take n).map Prod.snd =
          (List.range n).map fun j ↦ e.address + i + j) ∧
        ∀ b ∈ (e.bytes.drop i ++ space post).take n, ∃ x ∈ e :: post,
          x.supportsXIP = true ∧ b.1 = x.device := by
    intro e i n post hn hxip
    have hlen : n ≤ (e.bytes.drop i).length := by
      rw [length_drop, length_bytes]
      omega
    rw [take_append_of_le_length hlen, take_drop_bytes e hn]
    refine ⟨by rw [map_map]; rfl, fun b hb ↦ ?_⟩
    obtain ⟨j, -, rfl⟩ := mem_map.mp hb
    exact ⟨e, mem_cons_self, hxip, rfl⟩
  induction post with
  | nil =>
    intro e i n hi hn hxip _
    rw [total_nil] at hn
    exact hwithin [] (by omega) hxip
  | cons next rest ih =>
    intro e i n hi hn hxip hadj
    by_cases hle : i + n ≤ e.length
    · exact hwithin (next :: rest) hle hxip
    · -- the rest of the range, and the ranges behind
      obtain ⟨hnext, haddress, hrest⟩ := hadj (by omega)
      rw [total_cons] at hn
      obtain ⟨haddresses, hdevices⟩ := ih (zero_le _)
        (show n - (e.length - i) ≤ next.length - 0 + total rest by omega) hnext hrest
      obtain ⟨hfirst, hfirst'⟩ :=
        hwithin (next :: rest) (show i + (e.length - i) ≤ e.length by omega) hxip
      have hlen : (e.bytes.drop i).length = e.length - i := by rw [length_drop, length_bytes]
      have hsplit : (e.bytes.drop i ++ space (next :: rest)).take n =
          (e.bytes.drop i ++ space (next :: rest)).take (e.length - i) ++
            (next.bytes.drop 0 ++ space rest).take (n - (e.length - i)) := by
        rw [drop_zero, ← space_cons, ← hlen, take_left, take_append,
          take_of_length_le (by omega)]
      rw [hsplit]
      constructor
      · rw [map_append, hfirst, haddresses]
        conv_rhs => rw [show n = e.length - i + (n - (e.length - i)) by omega, range_add]
        rw [map_append, map_map]
        congr 1
        refine map_congr_left fun j _ ↦ ?_
        rw [Function.comp_apply]
        omega
      · intro b hb
        rcases mem_append.mp hb with hb | hb
        · exact hfirst' b hb
        · obtain ⟨x, hx, hxx⟩ := hdevices b hb
          exact ⟨x, mem_cons_of_mem _ hx, hxx⟩

/-- What a transfer from mapped devices does: the address of the first byte is handed out. -/
def HandedOut (devices : List BlockDeviceInfo) (usage : UInt32) (pos length buffer : ℕ)
    (s' : BlockStorageStream) (new : List Access) (r : Bool) : Prop :=
  (∃ pre' e' post', Located devices s' pre' e' post' ∧ s'.usage = usage ∧
    pos ≤ total pre' + s'.currentIndex ∧
    (r = true → total pre' + s'.currentIndex = pos + length)) ∧
  (r = false → total (extents devices usage) < pos + length) ∧
  (buffer ≠ 0 ∨ length = 0 → new = []) ∧
  (buffer = 0 → length ≠ 0 → r = true →
    ∃ b ∈ ((space (extents devices usage)).drop pos).head?, new = [.map b.1 b.2])

theorem transfer_handOut (turns : ℕ) :
    ∀ {s : BlockStorageStream} {pre post : List Extent} {e : Extent} {length buffer : ℕ}
      {accesses : List Access}, Located devices s pre e post → length ≤ turns →
      (if s.currentIndex = e.length then 0 else s.currentIndex) + length < 2 ^ 32 →
      ∃ s' new r, transfer devices handOut turns length buffer s accesses =
          some (s', accesses ++ new, r) ∧
        HandedOut devices s.usage (total pre + s.currentIndex) length buffer s' new r := by
  have hzero : ∀ {s : BlockStorageStream} {pre post : List Extent} {e : Extent} {turns buffer : ℕ}
      {accesses : List Access}, Located devices s pre e post →
      ∃ s' new r, transfer devices handOut turns 0 buffer s accesses =
          some (s', accesses ++ new, r) ∧
        HandedOut devices s.usage (total pre + s.currentIndex) 0 buffer s' new r := by
    intro s pre post e turns buffer accesses h
    exact ⟨s, [], true, by rw [transfer_zero, append_nil],
      ⟨pre, e, post, h, rfl, le_refl _, fun _ ↦ rfl⟩, fun hr ↦ (by cases hr), fun _ ↦ rfl,
      fun _ hne ↦ absurd rfl hne⟩
  induction turns with
  | zero =>
    intro s pre post e length buffer accesses h hturns _
    obtain rfl := le_zero.mp hturns
    exact hzero h
  | succ turns ih =>
    have hpart : ∀ {s : BlockStorageStream} {pre post : List Extent} {e : Extent}
        {length buffer : ℕ} {accesses : List Access}, Located devices s pre e post →
        length ≤ turns + 1 → length ≠ 0 → s.currentIndex < e.length →
        s.currentIndex + length < 2 ^ 32 →
        ∃ s' new r, transfer devices handOut (turns + 1) length buffer s accesses =
            some (s', accesses ++ new, r) ∧
          HandedOut devices s.usage (total pre + s.currentIndex) length buffer s' new r := by
      intro s pre post e length buffer accesses h hturns hlength hin hfit
      have htotal := h.total_eq
      rw [transfer_part h hin hlength hfit]
      generalize hc : min length (e.length - s.currentIndex) = count
      have hadvance := h.advance (i := s.currentIndex + count) (by omega)
      have hfirst : (e.device, e.address + s.currentIndex) ∈
          ((space (extents devices s.usage)).drop (total pre + s.currentIndex)).head? := by
        rw [h.drop_space, head?_append, head?_drop, Extent.bytes, getElem?_map,
          getElem?_range hin]
        rfl
      have hpart : (handOut accesses s count buffer) =
          (accesses ++ if buffer = 0 then [.map e.device (e.address + s.currentIndex)] else [],
            true) := by
        unfold handOut
        rw [h.device_eq, h.currentAddress hin]
        split
        · rfl
        · rw [append_nil]
      rw [hpart, if_neg Bool.true_eq_false.mp]
      dsimp only
      obtain ⟨s', new, r, hrun, ⟨pre', e', post', hloc, husage, hlo, hpos⟩, hfalse, hnone, -⟩ :=
        @ih _ _ _ _ (length - count) (buffer + count)
          (accesses ++ if buffer = 0 then [.map e.device (e.address + s.currentIndex)] else [])
          hadvance (by omega) (by
            dsimp only
            split <;> omega)
      obtain rfl := hnone (Or.inl (by omega))
      rw [append_nil] at hrun
      dsimp only at hlo hpos hfalse
      refine ⟨s', _, r, hrun, ⟨pre', e', post', hloc, husage, by omega,
        fun hr ↦ by have := hpos hr; omega⟩, fun hr ↦ by have := hfalse hr; omega, ?_, ?_⟩
      · rintro (hne | hzero)
        · rw [if_neg hne]
        · exact absurd hzero hlength
      · intro hbuffer _ _
        rw [if_pos hbuffer]
        exact ⟨_, hfirst, rfl⟩
    intro s pre post e length buffer accesses h hturns hfit
    by_cases hlength : length = 0
    · subst hlength
      exact hzero h
    by_cases hend : s.currentIndex = e.length
    · cases post with
      | nil =>
        have htotal := h.total_eq
        rw [total_nil] at htotal
        refine ⟨s, [], false, ?_, ⟨pre, e, [], h, rfl, le_refl _, fun hr ↦ by cases hr⟩,
          fun _ ↦ by omega, fun _ ↦ rfl, fun _ _ hr ↦ by cases hr⟩
        rw [transfer_end h hend hlength, append_nil]
      | cons next rest =>
        rw [transfer_enter h hend hlength]
        rw [if_pos hend, Nat.zero_add] at hfit
        have hpos : total pre + s.currentIndex =
            total (pre ++ [e]) + (enter s next).currentIndex := by
          rw [hend, total_append, total_cons, total_nil]
          rfl
        rw [hpos]
        exact hpart h.next hturns hlength h.next.sound.length_pos
          (by rw [show (enter s next).currentIndex = 0 from rfl]; omega)
    · rw [if_neg hend] at hfit
      have := h.inside
      exact hpart h hturns hlength (by omega) hfit

end MicroFramework.BlockStorage
