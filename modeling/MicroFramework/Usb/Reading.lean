import MicroFramework.Usb.PacketQueue

/-!
# Reading the packets of a queue

With an offset that is inside the packet at the head, a turn of the loop of `Read` hands out the
next bytes of the queue and keeps the offset inside.  What was handed out and what is left make up
what was there, turn by turn and over the whole loop.
-/

namespace MicroFramework.Usb

open Serial List Packet64

/-! ## The bytes of packets -/

@[simp]
theorem length_bytes (packet : Packet64) : packet.bytes.length = packet.size.toNat := by
  simp [bytes]

/-- The bytes between two places of a packet, and those behind. -/
theorem drop_bytes (packet : Packet64) {i n : ℕ} (h : i + n ≤ packet.size.toNat) :
    packet.bytes.drop i =
      ((List.range n).map fun j ↦ packet.buffer (i + j)) ++ packet.bytes.drop (i + n) := by
  apply ext_getElem
  · simp only [length_drop, length_bytes, length_append, length_map,
      length_range]
    omega
  · intro j hj hj'
    by_cases hlt : j < n
    · rw [getElem_append_left (by simpa using hlt)]
      simp [bytes]
    · have hindex : i + n + (j - n) = i + j := by omega
      rw [getElem_append_right (by simpa using Nat.le_of_not_lt hlt)]
      simp [bytes, hindex]

theorem bytes_filled (packet : Packet64) {bytes : List UInt8} (h : bytes.length < 256) :
    (packet.filled bytes).bytes = bytes := by
  have hsize : (UInt32.ofNat bytes.length).toNat = bytes.length :=
    Nat.mod_eq_of_lt (Nat.lt_trans h (by decide))
  apply ext_getElem
  · simp [filled, hsize]
  · intro i hi hi'
    simp [Packet64.bytes, Packet64.filled, hi']

/-! ## What is left to read -/

def queueBytes (queue : HalQueue Packet64) : List UInt8 :=
  queue.elements.flatMap bytes

def unread (queue : HalQueue Packet64) (offset : UInt8) : List UInt8 :=
  (queueBytes queue).drop offset.toNat

/-- The offset is inside the packet at the head, and zero when there is none. -/
def HeadBound (queue : HalQueue Packet64) (offset : UInt8) : Prop :=
  match queue.elements.head? with
  | none => offset = 0
  | some packet => offset.toNat ≤ packet.size.toNat

/-- No packet of the queue has more bytes than eight bits count. -/
def Short (queue : HalQueue Packet64) : Prop :=
  ∀ packet ∈ queue.elements, packet.size.toNat < 256

theorem headBound_zero (queue : HalQueue Packet64) : HeadBound queue 0 := by
  unfold HeadBound
  split
  · rfl
  · exact Nat.zero_le _

variable {offset : UInt8} {packet : Packet64} {queue : HalQueue Packet64}

variable {rest : List Packet64}

theorem headBound_cons (h : queue.elements = packet :: rest) :
    HeadBound queue offset ↔ offset.toNat ≤ packet.size.toNat := by
  simp [HeadBound, h]

theorem headBound_nil (h : queue.elements = []) : HeadBound queue offset ↔ offset = 0 := by
  simp [HeadBound, h]

theorem unread_cons (h : queue.elements = packet :: rest)
    (hoffset : offset.toNat ≤ packet.size.toNat) :
    unread queue offset = packet.bytes.drop offset.toNat ++ rest.flatMap bytes := by
  rw [unread, queueBytes, h, flatMap_cons,
    drop_append_of_le_length (by rwa [length_bytes])]

/-- The offset is never behind all the bytes of the queue. -/
theorem HeadBound.le_length
    (h : HeadBound queue offset) : offset.toNat ≤ (queueBytes queue).length := by
  cases helements : queue.elements with
  | nil =>
    rw [(headBound_nil helements).mp h]
    exact Nat.zero_le _
  | cons packet rest =>
    have hle := (headBound_cons helements).mp h
    rw [queueBytes, helements, flatMap_cons, length_append, length_bytes]
    omega

/-! ## One turn -/

/-- What the loop of `Read` keeps: the offset is inside, the packets are short, all copies were
inside, and the bytes handed out and those left make up `total`. -/
structure Reading.Sound (rd : Reading) (total : List UInt8) : Prop where
  head : HeadBound rd.queue rd.offset
  short : Short rd.queue
  copies : ∀ copy ∈ rd.copies, copy.offset + copy.length ≤ copy.size
  data : rd.data ++ unread rd.queue rd.offset = total

def Reading.move (rd : Reading) (packet : Packet64) : ℕ :=
  min rd.remain.toNat (packet.size.toNat - rd.offset.toNat)

variable {rd : Reading}

/-- The sums of a turn do not leave their range when the offset is inside a short packet. -/
theorem turn_eq (hoffset : rd.offset.toNat ≤ packet.size.toNat) (hshort : packet.size.toNat < 256) :
    ∃ maxMove : UInt32, maxMove.toNat = rd.move packet ∧
      (rd.offset + maxMove.toUInt8).toNat = rd.offset.toNat + rd.move packet ∧
      rd.turn packet =
        { rd with
          offset := if rd.offset.toNat + rd.move packet = packet.size.toNat then 0
            else rd.offset + maxMove.toUInt8
          remain := rd.remain - maxMove
          data := rd.data ++
            (List.range (rd.move packet)).map fun i ↦ packet.buffer (rd.offset.toNat + i)
          copies := rd.copies ++ [⟨rd.offset.toNat, rd.move packet, packet.size.toNat⟩]
          queue := if rd.offset.toNat + rd.move packet = packet.size.toNat
            then ((rd.queue.pop).map Prod.snd).getD rd.queue else rd.queue } := by
  have hleft : (packet.size - rd.offset.toUInt32).toNat = packet.size.toNat - rd.offset.toNat := by
    have hsub := UInt32.toNat_sub_of_le packet.size rd.offset.toUInt32
      (UInt32.le_iff_toNat_le.mpr (by rwa [UInt8.toNat_toUInt32]))
    rwa [UInt8.toNat_toUInt32] at hsub
  have hmove : (if rd.remain < packet.size - rd.offset.toUInt32 then rd.remain
      else packet.size - rd.offset.toUInt32).toNat = rd.move packet := by
    unfold Reading.move
    split
    · next hlt =>
      have hlt := UInt32.lt_iff_toNat_lt.mp hlt
      omega
    · next hge =>
      have hge := mt UInt32.lt_iff_toNat_lt.mpr hge
      omega
  generalize hmax : (if rd.remain < packet.size - rd.offset.toUInt32 then rd.remain
      else packet.size - rd.offset.toUInt32) = maxMove at hmove
  have hle : rd.move packet ≤ packet.size.toNat - rd.offset.toNat := Nat.min_le_right _ _
  have hadd : (rd.offset + maxMove.toUInt8).toNat = rd.offset.toNat + rd.move packet := by
    rw [UInt8.toNat_add, UInt32.toNat_toUInt8, hmove]
    omega
  refine ⟨maxMove, hmove, hadd, ?_⟩
  have hdone : (rd.offset + maxMove.toUInt8).toUInt32 = packet.size ↔
      rd.offset.toNat + rd.move packet = packet.size.toNat := by
    rw [← UInt32.toNat_inj, UInt8.toNat_toUInt32, hadd]
  unfold Reading.turn
  simp only [hmax, hmove, hdone]
  split
  · rfl
  · rfl

variable {total : List UInt8}

theorem turn_sound (h : rd.Sound total) (hpeek : rd.queue.peek = some packet) :
    (rd.turn packet).Sound total := by
  rw [HalQueue.peek_eq_head?] at hpeek
  cases helements : rd.queue.elements with
  | nil =>
    rw [helements] at hpeek
    cases hpeek
  | cons first rest =>
    rw [helements] at hpeek
    cases hpeek
    have hoffset := (headBound_cons helements).mp h.head
    have hshort := h.short packet (by rw [helements]; exact mem_cons_self)
    have hle : rd.move packet ≤ packet.size.toNat - rd.offset.toNat := Nat.min_le_right _ _
    obtain ⟨maxMove, hmove, hadd, hturn⟩ := turn_eq hoffset hshort
    have hinside : rd.offset.toNat + rd.move packet ≤ packet.size.toNat := by omega
    have hdata := h.data
    rw [unread_cons helements hoffset, drop_bytes packet hinside] at hdata
    have hcopies : ∀ copy ∈ rd.copies ++ [⟨rd.offset.toNat, rd.move packet, packet.size.toNat⟩],
        copy.offset + copy.length ≤ copy.size := by
      intro copy hcopy
      rcases mem_append.mp hcopy with hcopy | hcopy
      · exact h.copies copy hcopy
      · rw [mem_singleton.mp hcopy]
        exact hinside
    rw [hturn]
    by_cases hdone : rd.offset.toNat + rd.move packet = packet.size.toNat
    · obtain ⟨y, queue, hpop⟩ := HalQueue.pop_isSome
        (show rd.queue.elements ≠ [] by rw [helements]; exact cons_ne_nil _ _)
      have hpopped := HalQueue.elements_pop hpop
      rw [helements] at hpopped
      have hrest : queue.elements = rest := (List.cons.inj hpopped).2.symm
      simp only [hdone, if_true, hpop, Option.map_some, Option.getD_some]
      refine ⟨headBound_zero queue, ?_, hcopies, ?_⟩
      · intro other hother
        rw [hrest] at hother
        exact h.short other (by rw [helements]; exact mem_cons_of_mem _ hother)
      · rw [hdone, drop_of_length_le (by rw [length_bytes]), append_nil] at hdata
        rw [← hdata]
        simp [unread, queueBytes, hrest]
    · simp only [hdone, if_false]
      refine ⟨?_, h.short, hcopies, ?_⟩
      · rw [headBound_cons helements, hadd]
        exact hinside
      · rw [← hdata, unread_cons helements (by rw [hadd]; exact hinside), hadd]
        simp only [append_assoc]

/-! ## The whole loop -/

theorem loop_sound (n : ℕ) :
    ∀ rd : Reading, rd.Sound total → (Reading.loop n rd).Sound total := by
  induction n with
  | zero =>
    intro rd h
    exact h
  | succ n ih =>
    intro rd h
    rw [Reading.loop]
    split
    · exact h
    · split
      · exact ⟨h.head, h.short, h.copies, h.data⟩
      · next packet hpeek => exact ih _ (turn_sound h hpeek)

end MicroFramework.Usb
