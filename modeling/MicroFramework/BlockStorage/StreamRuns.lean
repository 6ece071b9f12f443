import MicroFramework.BlockStorage.Erasing

/-!
# Runs of a stream

What each call should do is said on the array of the bytes of a usage; a condition on the stream and
the arguments tells when it does.  In a run from `Initialize` whose calls meet it, all calls do what
they should.
-/

namespace MicroFramework.BlockStorage

open Arrays TinyBooter List

/-! ## What a call should do -/

/-- The bytes from the position on went through the buffer, all of them where the call succeeds. -/
def Moves (devices : List BlockDeviceInfo) (respond : Respond) (usage : UInt32) (given : Bool)
    (length pos : ℕ) (accesses new : List Access) (r : Bool) (pos' : ℕ) : Prop :=
  ∃ k ≤ length,
    new.flatMap accessBytes = (((space (extents devices usage)).drop pos).take k).zipIdx ∧
    pos ≤ pos' ∧ pos' ≤ pos + k ∧ (r = true → k = length ∧ pos' = pos + length) ∧
    (r = false → given = false ∨ total (extents devices usage) < pos + length ∨
      ∃ b request a, new = b ++ request :: a ∧ respond (accesses ++ b) request = false)

/-- The address that is handed out is where the bytes from the position on are mapped. -/
def Maps (devices : List BlockDeviceInfo) (usage : UInt32) (given : Bool) (length pos : ℕ)
    (new : List Access) (r : Bool) (pos' : ℕ) : Prop :=
  pos ≤ pos' ∧
  (r = true → pos' = pos + length ∧ (length = 0 ∧ new = [] ∨
    ∃ device address, new = [.map device address] ∧
      (((space (extents devices usage)).drop pos).take length).map Prod.snd =
        (List.range length).map (address + ·) ∧
      ∀ b ∈ ((space (extents devices usage)).drop pos).take length, mapped devices b.1 = true)) ∧
  (r = false → given = false ∨ total (extents devices usage) < pos + length)

/-- What a call should do to a stream in the range `e`: the accesses, the value and the position
behind it. -/
def Honours (devices : List BlockDeviceInfo) (respond : Respond) (s : BlockStorageStream)
    (pre : List Extent) (e : Extent) (post : List Extent) (accesses : List Access)
    (s' : BlockStorageStream) (new : List Access) (r : Bool) (pos' : ℕ) : Call → Prop
  | .nextStream => new = [] ∧ (r = true → post ≠ [] ∧ pos' = total pre + e.length) ∧
      (r = false → s' = s ∧ post = [])
  | .prevStream => new = [] ∧
      (r = true → ∃ init previous, pre = init ++ [previous] ∧ pos' = total init) ∧
      (r = false → s' = s ∧ pre = [])
  | .seek offset origin => new = [] ∧
      (r = true → ∃ i, startIndex s e origin = some i ∧
        IsTarget (extents devices s.usage) (total pre + i) offset pos') ∧
      (r = false → s' = s ∧ ∀ i t, startIndex s e origin = some i →
        IsTarget (extents devices s.usage) (total pre + i) offset t →
          t < 0 ∨ (total (extents devices s.usage) : ℤ) ≤ t)
  | .read ppBuffer length =>
      if mapped devices e.device then
        Maps devices s.usage ppBuffer length (total pre + s.currentIndex) new r pos'
      else
        Moves devices respond s.usage ppBuffer length (total pre + s.currentIndex) accesses new r
          pos'
  | .write data length =>
      Moves devices respond s.usage data length (total pre + s.currentIndex) accesses new r pos'
  | .erase length => ∀ b area a, blocks (extents devices s.usage) = b ++ (area ++ a) →
      size b = total pre + s.currentIndex → size area = length →
      pos' = total pre + s.currentIndex ∧ new <+: area.map Block.erase ∧
        ((∀ p x q, area = p ++ x :: q → respond (accesses ++ p.map Block.erase) x.erase = true) →
          new = area.map Block.erase ∧ r = true)

/-! ## When it does -/

/-- From an offset of a range on, so many bytes are mapped one behind the other. -/
def MappedFrom (i length : ℕ) (e : Extent) (post : List Extent) : Prop :=
  if i = e.length then
    ∀ next rest, post = next :: rest →
      next.supportsXIP = true ∧ Adjoining (length - next.length) next rest
  else Adjoining (length - (e.length - i)) e post

/-- The condition under which a call does what it should. -/
def Meets (devices : List BlockDeviceInfo) (respond : Respond) (s : BlockStorageStream)
    (pre : List Extent) (e : Extent) (post : List Extent) (accesses : List Access) : Call → Prop
  | .nextStream => True
  | .prevStream => Inhabited devices ∧ ∀ previous ∈ pre.getLast?, previous.usage = s.usage
  | .seek offset origin => Sized (extents devices s.usage) ∧
      ∀ i, startIndex s e origin = some i → SeekMeets devices s pre e post offset i
  | .read ppBuffer length => ppBuffer = true →
      (if s.currentIndex = e.length then 0 else s.currentIndex) + length < 2 ^ 32 ∧
      (mapped devices e.device = true →
        total pre + s.currentIndex + length ≤ total (extents devices s.usage) → length ≠ 0 →
          MappedFrom s.currentIndex length e post)
  | .write data length => data = true →
      (if s.currentIndex = e.length then 0 else s.currentIndex) + length < 2 ^ 32
  | .erase length => Sized (extents devices s.usage) ∧ length < 2 ^ 32 ∧
      ∀ b area a, blocks (extents devices s.usage) = b ++ (area ++ a) →
        size b = total pre + s.currentIndex → size area = length →
          EraseMeets respond accesses area a

variable {devices : List BlockDeviceInfo} {respond : Respond} {s : BlockStorageStream}
  {pre post : List Extent} {e : Extent} {accesses : List Access}

/-- A call did what it should, and left the stream in a range. -/
def Done (devices : List BlockDeviceInfo) (respond : Respond) (s : BlockStorageStream)
    (pre : List Extent) (e : Extent) (post : List Extent) (accesses : List Access) (op : Call) :
    Prop :=
  ∃ s' new r pre' e' post', call devices respond op s accesses = some (s', accesses ++ new, r) ∧
    Located devices s' pre' e' post' ∧ s'.usage = s.usage ∧
    Honours devices respond s pre e post accesses s' new r (total pre' + s'.currentIndex) op

section

variable (h : Located devices s pre e post)

include h

theorem nextStream_honours : Done devices respond s pre e post accesses .nextStream := by
  have hrun := h.nextStream
  unfold Done call
  cases post with
  | nil =>
    rw [hrun]
    exact ⟨s, [], false, pre, e, [], by rw [append_nil]; rfl, h, rfl, rfl,
      fun hr ↦ (by cases hr), fun _ ↦ ⟨rfl, rfl⟩⟩
  | cons next rest =>
    rw [hrun]
    refine ⟨enter s next, [], true, pre ++ [e], next, rest, by rw [append_nil]; rfl, h.next,
      rfl, rfl, fun _ ↦ ⟨cons_ne_nil _ _, ?_⟩, fun hr ↦ by cases hr⟩
    rw [total_append, total_cons, total_nil]
    rfl

theorem prevStream_honours (hmeets : Meets devices respond s pre e post accesses .prevStream) :
    Done devices respond s pre e post accesses .prevStream := by
  have hrun := h.prevStream hmeets.1 hmeets.2
  unfold Done call
  dsimp only
  rw [hrun]
  rcases eq_nil_or_concat pre with rfl | ⟨init, previous, rfl⟩
  · exact ⟨s, [], false, [], e, post, by rw [append_nil]; rfl, h, rfl, rfl,
      fun hr ↦ (by cases hr), fun _ ↦ ⟨rfl, rfl⟩⟩
  · rw [concat_eq_append] at h ⊢
    refine ⟨enterBack s previous, [], true, init, previous, e :: post, ?_, h.previous, rfl, rfl,
      fun _ ↦ ⟨init, previous, rfl, rfl⟩, fun hr ↦ by cases hr⟩
    rw [getLast?_concat, append_nil]
    rfl

theorem seek_honours {offset : ℤ} {origin : SeekOrigin}
    (hmeets : Meets devices respond s pre e post accesses (.seek offset origin)) :
    Done devices respond s pre e post accesses (.seek offset origin) := by
  obtain ⟨s', r, hrun, htrue, hfalse⟩ := seek_meets hmeets.1 h hmeets.2
  unfold Done call
  dsimp only
  rw [hrun, Option.map_some]
  cases r with
  | false =>
    obtain ⟨rfl, hnone⟩ := hfalse rfl
    exact ⟨s', [], false, pre, e, post, by rw [append_nil], h, rfl, rfl,
      fun hr ↦ (by cases hr), fun _ ↦ ⟨rfl, hnone⟩⟩
  | true =>
    obtain ⟨pre', e', post', i, hloc, husage, -, hi, htarget⟩ := htrue rfl
    refine ⟨s', [], true, pre', e', post', by rw [append_nil], hloc, husage, rfl,
      fun _ ↦ ⟨i, hi, ?_⟩, fun hr ↦ by cases hr⟩
    push_cast
    exact htarget

end

variable {length : ℕ}

/-- A transfer with the devices does what it should. -/
theorem moves_of_transfer {access : ℕ → ℕ → ℕ → ℕ → Access}
    (haccess : ∀ d a n b, accessBytes (access d a n b) =
      (List.range n).map fun i ↦ ((d, a + i), b + i)) (h : Located devices s pre e post)
    (hfit : (if s.currentIndex = e.length then 0 else s.currentIndex) + length < 2 ^ 32) :
    ∃ s' new r pre' e' post',
      transfer devices (ask respond access) length length 0 s accesses =
        some (s', accesses ++ new, r) ∧
      Located devices s' pre' e' post' ∧ s'.usage = s.usage ∧
      Moves devices respond s.usage true length (total pre + s.currentIndex) accesses new r
        (total pre' + s'.currentIndex) := by
  obtain ⟨s', accesses', r, hrun, pre', e', post', new, k, hloc, husage, rfl, hk, hbytes, hlo, hhi,
    htrue, hfalse⟩ := @transfer_ask devices respond access haccess length
      s pre post e length 0 accesses h le_rfl hfit
  exact ⟨s', new, r, pre', e', post', hrun, hloc, husage, k, hk, hbytes, hlo, hhi, htrue,
    fun hr ↦ Or.inr (hfalse hr)⟩

theorem moves_nothing (usage : UInt32) (length pos : ℕ) :
    Moves devices respond usage false length pos accesses [] false pos :=
  ⟨0, Nat.zero_le _, rfl, le_refl _, le_refl _, fun hr ↦ (by cases hr), fun _ ↦ Or.inl rfl⟩

theorem write_honours {data : Bool} (h : Located devices s pre e post)
    (hmeets : Meets devices respond s pre e post accesses (.write data length)) :
    Done devices respond s pre e post accesses (.write data length) := by
  unfold Done call write
  dsimp only
  rw [h.hasDevice]
  cases data with
  | false =>
    exact ⟨s, [], false, pre, e, post, by rw [if_pos (Or.inr rfl), append_nil], h, rfl,
      moves_nothing _ _ _⟩
  | true =>
    rw [if_neg (by decide)]
    exact moves_of_transfer (fun _ _ _ _ ↦ rfl) h (hmeets rfl)

theorem head_of_map {bs : List (ℕ × ℕ)} {b : ℕ × ℕ} {n a : ℕ} (hb : b ∈ bs.head?) (hn : n ≠ 0)
    (h : (bs.take n).map Prod.snd = (List.range n).map fun j ↦ a + j) : b.2 = a := by
  cases bs with
  | nil => cases hb
  | cons b' bs =>
    obtain rfl : b' = b := by simpa using hb
    obtain ⟨m, rfl⟩ := Nat.exists_eq_succ_of_ne_zero hn
    rw [take_succ_cons, map_cons, range_succ_eq_map, map_cons] at h
    exact (List.cons.inj h).1

section

variable (h : Located devices s pre e post)

include h

variable {length : ℕ}

theorem mapped_bytes (hmapped : mapped devices e.device = true) (hlength : length ≠ 0)
    (hin : total pre + s.currentIndex + length ≤ total (extents devices s.usage))
    (hfrom : MappedFrom s.currentIndex length e post) :
    ∃ address,
      (((space (extents devices s.usage)).drop (total pre + s.currentIndex)).take length).map
          Prod.snd = (List.range length).map (address + ·) ∧
      ∀ b ∈ ((space (extents devices s.usage)).drop (total pre + s.currentIndex)).take length,
        mapped devices b.1 = true := by
  have htotal := h.total_eq
  have hinside := h.inside
  have hmem : ∀ x ∈ e :: post, x.supportsXIP = true → mapped devices x.device = true := by
    intro x hx hxip
    have hin : x ∈ extents devices s.usage := by
      rw [h.split]
      exact mem_append_right _ hx
    rw [mapped_of_mem hin, hxip]
  rw [h.drop_space]
  unfold MappedFrom at hfrom
  split at hfrom
  · rename_i hend
    cases post with
    | nil =>
      rw [total_nil] at htotal
      omega
    | cons next rest =>
      obtain ⟨hxip, hadj⟩ := hfrom next rest rfl
      rw [total_cons] at htotal
      obtain ⟨haddress, hdevices⟩ := adjoining_bytes rest (Nat.zero_le next.length)
        (show length ≤ next.length - 0 + total rest by omega) hxip hadj
      rw [hend, drop_of_length_le (length_bytes e).le, nil_append, space_cons]
      rw [drop_zero] at haddress hdevices
      refine ⟨next.address + 0, haddress, fun b hb ↦ ?_⟩
      obtain ⟨x, hx, hxxip, hbx⟩ := hdevices b hb
      rw [hbx]
      exact hmem x (mem_cons_of_mem _ hx) hxxip
  · have hxip : e.supportsXIP = true := by rw [← mapped_of_mem h.mem, hmapped]
    obtain ⟨haddress, hdevices⟩ := adjoining_bytes post hinside (by omega) hxip hfrom
    refine ⟨e.address + s.currentIndex, haddress, fun b hb ↦ ?_⟩
    obtain ⟨x, hx, hxxip, hbx⟩ := hdevices b hb
    rw [hbx]
    exact hmem x hx hxxip

theorem read_honours {ppBuffer : Bool}
    (hmeets : Meets devices respond s pre e post accesses (.read ppBuffer length)) :
    Done devices respond s pre e post accesses (.read ppBuffer length) := by
  have hmapped : ((s.device.bind (devices[·]?)).map (·.supportsXIP)).getD false =
      mapped devices e.device := by
    rw [h.device_eq]
    rfl
  unfold Done call read Honours
  dsimp only
  rw [h.hasDevice, hmapped]
  cases ppBuffer with
  | false =>
    refine ⟨s, [], false, pre, e, post, by rw [if_pos (Or.inr rfl), append_nil], h, rfl, ?_⟩
    split
    · exact ⟨le_refl _, fun hr ↦ (by cases hr), fun _ ↦ Or.inl rfl⟩
    · exact moves_nothing _ _ _
  | true =>
    obtain ⟨hfit, hfrom⟩ := hmeets rfl
    rw [if_neg (by decide)]
    cases hxip : mapped devices e.device with
    | false => exact moves_of_transfer (fun _ _ _ _ ↦ rfl) h hfit
    | true =>
      obtain ⟨s', new, r, hrun, ⟨pre', e', post', hloc, husage, hlo, hpos⟩, hfalse, hnone, hmap⟩ :=
        @transfer_handOut devices length s pre post e length 0 accesses h le_rfl hfit
      refine ⟨s', new, r, pre', e', post', hrun, hloc, husage, hlo, fun hr ↦ ⟨hpos hr, ?_⟩,
        fun hr ↦ Or.inr (hfalse hr)⟩
      by_cases hlength : length = 0
      · exact Or.inl ⟨hlength, hnone (Or.inr hlength)⟩
      · have hin : total pre + s.currentIndex + length ≤ total (extents devices s.usage) := by
          have htotal := hloc.total_eq
          have hinside := hloc.inside
          have hposr := hpos hr
          rw [husage] at htotal
          omega
        obtain ⟨address, haddress, hdevices⟩ :=
          mapped_bytes h hxip hlength hin (hfrom hxip hin hlength)
        obtain ⟨b, hb, hnew⟩ := hmap rfl hlength hr
        have hhead := head_of_map hb hlength haddress
        exact Or.inr ⟨b.1, b.2, hnew, hhead ▸ haddress, hdevices⟩

theorem erase_honours (hmeets : Meets devices respond s pre e post accesses (.erase length)) :
    Done devices respond s pre e post accesses (.erase length) := by
  obtain ⟨hsized, hlength, harea⟩ := hmeets
  by_cases hinside : ∃ b area a, blocks (extents devices s.usage) = b ++ (area ++ a) ∧
      size b = total pre + s.currentIndex ∧ size area = length
  · obtain ⟨b, area, a, hblocks, hsize, rfl⟩ := hinside
    obtain ⟨s', new, r, hrun, husage, ⟨pre', e', post', hloc, hpos⟩, hprefix, hall⟩ :=
      erase_area hsized h hblocks hsize (harea b area a hblocks hsize rfl)
    refine ⟨s', new, r, pre', e', post', hrun, hloc, husage,
      fun b' area' a' hblocks' hsize' hlen ↦ ?_⟩
    -- there is one such area only
    have hblockpos := block_pos (sound_extents devices s.usage)
    rw [hblocks] at hblocks' hblockpos
    obtain ⟨rfl, hrest⟩ := split_unique hblockpos hblocks' (hsize.trans hsize'.symm)
    obtain ⟨rfl, -⟩ := split_unique (fun x hx ↦ hblockpos x (mem_append_right _ hx)) hrest hlen.symm
    exact ⟨hpos, hprefix, fun hyes ↦ ⟨(hall hyes).1, (hall hyes).2.1⟩⟩
  · obtain ⟨s', new, r, hrun, husage, pre', e', post', hloc⟩ :=
      @erase_defined devices s pre post e respond accesses length hsized h hlength
    exact ⟨s', new, r, pre', e', post', hrun, hloc, husage, fun b area a hblocks hsize hlen ↦
      absurd ⟨b, area, a, hblocks, hsize, hlen⟩ hinside⟩

theorem call_honours {op : Call} (hmeets : Meets devices respond s pre e post accesses op) :
    Done devices respond s pre e post accesses op := by
  cases op with
  | nextStream => exact nextStream_honours h
  | prevStream => exact prevStream_honours h hmeets
  | seek offset origin => exact seek_honours h hmeets
  | read ppBuffer length => exact read_honours h hmeets
  | write data length => exact write_honours h hmeets
  | erase length => exact erase_honours h hmeets

end

/-! ## Runs -/

def MeetsAll (devices : List BlockDeviceInfo) (respond : Respond) :
    List Call → BlockStorageStream → List Access → Prop
  | [], _, _ => True
  | op :: ops, s, accesses =>
    (∀ pre e post, Located devices s pre e post → Meets devices respond s pre e post accesses op) ∧
    ∀ s' accesses' r, call devices respond op s accesses = some (s', accesses', r) →
      MeetsAll devices respond ops s' accesses'

/-- Every call of a run has a result and does what it should. -/
def HonoursAll (devices : List BlockDeviceInfo) (respond : Respond) :
    List Call → BlockStorageStream → List Access → Prop
  | [], _, _ => True
  | op :: ops, s, accesses =>
    ∃ s' new r, call devices respond op s accesses = some (s', accesses ++ new, r) ∧
      (∃ pre e post pre' e' post', Located devices s pre e post ∧
        Located devices s' pre' e' post' ∧
        Honours devices respond s pre e post accesses s' new r (total pre' + s'.currentIndex) op) ∧
      HonoursAll devices respond ops s' (accesses ++ new)

theorem honoursAll_of_located (ops : List Call) (h : Located devices s pre e post)
    (hmeets : MeetsAll devices respond ops s accesses) :
    HonoursAll devices respond ops s accesses := by
  induction ops generalizing s pre e post accesses with
  | nil => trivial
  | cons op ops ih =>
    obtain ⟨hop, hops⟩ := hmeets
    obtain ⟨s', new, r, pre', e', post', hrun, hloc, -, hhonours⟩ :=
      call_honours h (hop pre e post h)
    exact ⟨s', new, r, hrun, ⟨pre, e, post, pre', e', post', h, hloc, hhonours⟩,
      ih hloc (hops s' _ r hrun)⟩

/-- In a run from `Initialize` whose calls all meet the condition, all calls do what they should. -/
theorem run_honours {primary : Bool} {usage : UInt32} {device : Option ℕ}
    {s₀ : BlockStorageStream} {ops : List Call}
    (hstart : initializeStream devices primary usage device s₀ = (s, true))
    (hmeets : MeetsAll devices respond ops s accesses) :
    HonoursAll devices respond ops s accesses := by
  obtain ⟨-, pre, e, post, hloc⟩ := initializeStream_located hstart
  exact honoursAll_of_located ops hloc hmeets

/-- A device with two ranges of deployment blocks around one of configuration. -/
def board : List BlockDeviceInfo :=
  [{ supportsXIP := false
     regions :=
       [{ start := 0, numBlocks := 3, bytesPerBlock := 16,
          blockRanges := [⟨0x50, 0, 0⟩, ⟨0x30, 1, 1⟩, ⟨0x50, 2, 2⟩],
          pos := by decide, bound := by decide, tiles := by decide }]
     ascending := by decide }]

/-- A stream in front of `Initialize`. -/
def blankStream : BlockStorageStream :=
  { baseAddress := 0, currentIndex := 0, length := 0, blockLength := 0, usage := 0,
    regionIndex := 0, rangeIndex := 0, isXIP := false, currentUsage := 0, device := none }

def firstRange : Extent := ⟨0, 0, 0, 0, 16, 16, 0x50, false⟩

def secondRange : Extent := ⟨0, 0, 2, 32, 16, 16, 0x50, false⟩

theorem extents_board : extents board 0x50 = [firstRange, secondRange] := by decide

theorem located_board (h : Located board s pre e post) (husage : s.usage = 0x50) :
    pre = [] ∧ e = firstRange ∧ post = [secondRange] ∨
      pre = [firstRange] ∧ e = secondRange ∧ post = [] := by
  have hsplit := h.split
  rw [husage, extents_board] at hsplit
  rcases pre with _ | ⟨x, _ | ⟨y, pre⟩⟩
  · obtain ⟨rfl, rfl⟩ := List.cons.inj hsplit
    exact .inl ⟨rfl, rfl, rfl⟩
  · obtain ⟨hfirst, hsplit⟩ := List.cons.inj hsplit
    obtain ⟨hsecond, hpost⟩ := List.cons.inj hsplit
    exact .inr ⟨by rw [hfirst], hsecond.symm, hpost.symm⟩
  · obtain ⟨-, hsplit⟩ := List.cons.inj hsplit
    obtain ⟨-, hsplit⟩ := List.cons.inj hsplit
    exact absurd hsplit.symm (append_ne_nil_of_right_ne_nil _ (cons_ne_nil _ _))

theorem sized_board : Sized (extents board 0x50) := by
  rw [extents_board]
  intro e he
  rcases mem_cons.mp he with rfl | he
  · decide
  · obtain rfl := mem_singleton.mp he
    decide

def opened : BlockStorageStream := (initializeStream board true 0x50 none blankStream).1

/-- The stream behind twenty bytes. -/
def advanced : BlockStorageStream :=
  { opened with baseAddress := 32, currentIndex := 4, rangeIndex := 2 }

/-- Back from the second range to the start of the first one. -/
theorem back_meets (accesses : List Access) (h : Located board advanced pre e post) :
    Meets board respond advanced pre e post accesses (.seek (-20) .seekCurrent) := by
  refine ⟨sized_board, fun i hi ↦ ?_⟩
  obtain rfl := Option.some.inj hi
  rcases located_board h rfl with ⟨rfl, rfl, rfl⟩ | ⟨rfl, rfl, rfl⟩
  · exact absurd h.rangeIndex_eq (by decide)
  · rw [SeekMeets, if_neg (by decide), if_neg (by decide)]
    refine ⟨by decide, .inr rfl, .inl (by decide), fun _ ↦ ?_, fun b p a hsplit _ ↦ ?_⟩
    · intro device hdevice
      obtain rfl := mem_singleton.mp hdevice
      decide
    · have hp : p ∈ [firstRange] := hsplit ▸ mem_append_right b mem_cons_self
      rw [mem_singleton.mp hp]
      rfl

/-- Erasing the first block, behind which the second one follows. -/
theorem erase_meets (accesses : List Access) (h : Located board opened pre e post) :
    Meets board (fun _ _ ↦ true) opened pre e post accesses (.erase 16) := by
  refine ⟨sized_board, by decide, fun b area a hblocks hsize harea ↦ ?_⟩
  have hpos := block_pos (sound_extents board opened.usage)
  have hboard : blocks (extents board opened.usage) = [] ++ ([⟨0, 0, 16⟩] ++ [⟨0, 32, 16⟩]) := by
    decide
  rw [hboard] at hblocks hpos
  rcases located_board h rfl with ⟨rfl, -, -⟩ | ⟨-, rfl, -⟩
  · obtain ⟨rfl, hrest⟩ := split_unique hpos hblocks hsize.symm
    obtain ⟨rfl, rfl⟩ := @split_unique [⟨0, 0, 16⟩] [⟨0, 32, 16⟩] area a hpos hrest harea.symm
    exact ⟨by decide, cons_ne_nil _ _, by decide, fun _ _ _ _ _ ↦ rfl⟩
  · exact absurd h.rangeIndex_eq (by decide)

theorem back_call (respond : Respond) (accesses : List Access) :
    call board respond (.seek (-20) .seekCurrent) advanced accesses =
      some (opened, accesses, true) := by
  have hseek : seek board (-20) .seekCurrent advanced = some (opened, true) := by decide +kernel
  rw [call, hseek]
  rfl

theorem MeetsAll.cons {op : Call} {ops : List Call} {s' : BlockStorageStream}
    {accesses' : List Access} {r : Bool}
    (hrun : call devices respond op s accesses = some (s', accesses', r))
    (hop : ∀ pre e post, Located devices s pre e post →
      Meets devices respond s pre e post accesses op)
    (hops : MeetsAll devices respond ops s' accesses') :
    MeetsAll devices respond (op :: ops) s accesses := by
  refine ⟨hop, fun s'' accesses'' r'' h ↦ ?_⟩
  obtain ⟨rfl, rfl, -⟩ : s' = s'' ∧ accesses' = accesses'' ∧ r = r'' := by
    simpa using hrun.symm.trans h
  exact hops

/-- Twenty bytes are written over both ranges and read back, and the first block is erased. -/
theorem run_honours_board :
    HonoursAll board (fun _ _ ↦ true)
      [.write true 20, .seek (-20) .seekCurrent, .read true 20, .seek (-20) .seekCurrent, .erase 16,
        .nextStream] opened [] := by
  have hstart : initializeStream board true 0x50 none blankStream = (opened, true) :=
    Prod.ext rfl (by decide)
  have hwrite : call board (fun _ _ ↦ true) (.write true 20) opened [] =
      some (advanced, [.write 0 0 16 0, .write 0 32 4 16], true) := by decide
  have hread : call board (fun _ _ ↦ true) (.read true 20) opened
        [.write 0 0 16 0, .write 0 32 4 16] =
      some (advanced, [.write 0 0 16 0, .write 0 32 4 16, .read 0 0 16 0, .read 0 32 4 16],
        true) := by decide
  refine run_honours hstart ?_
  refine .cons hwrite (fun pre e post _ _ ↦ by split <;> decide) ?_
  refine .cons (back_call _ _) (fun pre e post h ↦ back_meets _ h) ?_
  refine .cons hread (fun pre e post h _ ↦ ⟨by split <;> decide, fun hmapped ↦ ?_⟩) ?_
  · obtain hdevice : 0 = e.device := Option.some.inj h.device_eq
    rw [← hdevice] at hmapped
    exact absurd hmapped (by decide)
  refine .cons (back_call _ _) (fun pre e post h ↦ back_meets _ h) ?_
  exact ⟨fun pre e post h ↦ erase_meets _ h,
    fun _ _ _ _ ↦ ⟨fun _ _ _ _ ↦ trivial, fun _ _ _ _ ↦ trivial⟩⟩

/-- A seek behind the last range fails in the last range, and the stream is left there. -/
theorem seek_moves_stream :
    ¬∀ (devices : List BlockDeviceInfo) (respond : Respond) (primary : Bool) (usage : UInt32)
      (device : Option ℕ) (s₀ s : BlockStorageStream) (ops : List Call),
      initializeStream devices primary usage device s₀ = (s, true) →
        HonoursAll devices respond ops s [] := by
  intro h
  obtain ⟨s', new, r, hrun, ⟨pre, e, post, pre', e', post', -, -, -, -, hfalse⟩, -⟩ :=
    h board (fun _ _ ↦ true) true 0x50 none blankStream
      (initializeStream board true 0x50 none blankStream).1 [.seek 32 .seekBegin]
      (Prod.ext rfl (by decide))
  have hmoved : call board (fun _ _ ↦ true) (.seek 32 .seekBegin)
      (initializeStream board true 0x50 none blankStream).1 [] =
        some ((nextStream board (initializeStream board true 0x50 none blankStream).1).1, [],
          false) := by decide
  rw [hmoved, Option.some.injEq, Prod.mk.injEq, Prod.mk.injEq] at hrun
  obtain ⟨rfl, -, rfl⟩ := hrun
  exact absurd (hfalse rfl).1 (by decide)

end MicroFramework.BlockStorage
