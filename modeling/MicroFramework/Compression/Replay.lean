import MicroFramework.Compression.Compressor

/-!
# Decompressing items

`LZ77_Decompress` on written blocks replays their items.  Its window shows the text, spaces and then
the output so far, so a match puts out the text of the 4096 bytes before it.
-/

namespace MicroFramework.Compression

open Library List Option

/-- The input behind the window of spaces that comes before it. -/
def text (infile : List UInt8) (i : ℕ) : UInt8 :=
  if i < winSize then space else infile.getD (i - winSize) 0

theorem text_add {infile : List UInt8} {p : ℕ} (h : p < infile.length) :
    text infile (winSize + p) = infile[p] := by
  rw [text, if_neg (by omega), Nat.add_sub_cancel_left, getD_eq_getElem?_getD,
    getElem?_eq_getElem h]
  rfl

/-- The index in the text that a window index stands for before the byte `p` is written. -/
def source (p offset : ℕ) : ℕ :=
  p + (winSize - 1) - (p + (winSize - 1) - offset) % winSize

/-- The `n` bytes of the text from two places on are the same. -/
def Repeats (infile : List UInt8) (i j n : ℕ) : Prop :=
  ∀ c < n, text infile (i + c) = text infile (j + c)

/-- An item at the byte `p` of the input stands for the bytes there. -/
def Item.Faithful (infile : List UInt8) (p : ℕ) : Item → Prop
  | byte ch => ch = text infile (winSize + p)
  | code count offset => Repeats infile (source p offset) (winSize + p) count

/-- Items that stand for the input from the byte `p` on. -/
def Faithful (infile : List UInt8) : ℕ → List Item → Prop
  | _, [] => True
  | p, i :: items => i.Faithful infile p ∧ Faithful infile (p + i.length) items

theorem repeats_zero (infile : List UInt8) (i j : ℕ) : Repeats infile i j 0 :=
  fun c hc ↦ absurd hc (Nat.not_lt_zero c)

theorem repeats_succ {infile : List UInt8} {i j n : ℕ} : Repeats infile i j (n + 1) ↔
    text infile i = text infile j ∧ Repeats infile (i + 1) (j + 1) n := by
  constructor
  · intro h
    refine ⟨h 0 (Nat.succ_pos n), fun c hc ↦ ?_⟩
    rw [Nat.add_right_comm, Nat.add_right_comm j]
    exact h (c + 1) (Nat.succ_lt_succ hc)
  · rintro ⟨hfirst, hrest⟩ c hc
    cases c with
    | zero => exact hfirst
    | succ c =>
      rw [← Nat.add_assoc, ← Nat.add_assoc, Nat.add_right_comm, Nat.add_right_comm j]
      exact hrest c (Nat.lt_of_succ_lt_succ hc)

theorem faithful_concat {infile : List UInt8} {p : ℕ} {items : List Item} {i : Item} :
    Faithful infile p (items ++ [i]) ↔
      Faithful infile p items ∧ i.Faithful infile (p + span items) := by
  induction items generalizing p with
  | nil => simp [Faithful]
  | cons j items ih => simp [Faithful, ih, and_assoc, Nat.add_assoc]

theorem source_spec {p offset : ℕ} (h : offset < winSize) :
    p ≤ source p offset ∧ source p offset ≤ p + (winSize - 1) ∧
      source p offset % winSize = offset := by
  unfold source winSize at *
  omega

namespace Decompressor

def put (byte : UInt8) (D : Decompressor) : Decompressor :=
  { D with
    window := Function.update D.window (D.currPos % winSize) byte
    currPos := D.currPos + 1
    out := D.out ++ [byte] }

/-- Bytes are copied from the window. -/
def putCopy : ℕ → ℕ → Decompressor → Decompressor
  | 0, _, D => D
  | length + 1, offset, D => putCopy length (offset + 1) (D.put (D.window (offset % winSize)))

def play (D : Decompressor) : Item → Decompressor
  | .byte ch => D.put ch
  | .code count offset => D.putCopy count offset

def replay (D : Decompressor) (items : List Item) : Decompressor :=
  items.foldl play D

/-- The same with other input left. -/
def feed (inBuf : List UInt8) (D : Decompressor) : Decompressor :=
  { D with inBuf := inBuf }

variable {D : Decompressor} {outSize : ℕ} {rest : List UInt8}

theorem replay_cons (i : Item) (items : List Item) :
    D.replay (i :: items) = (D.play i).replay items :=
  rfl

theorem replay_append (left right : List Item) :
    D.replay (left ++ right) = (D.replay left).replay right :=
  foldl_append

section Reading

theorem write_eq (byte : UInt8) (h : D.out.length < outSize) :
    D.write outSize byte = some (D.put byte) := by
  rw [write, if_neg (by omega), put, realPos_eq]

theorem length_putCopy (n offset : ℕ) : (D.putCopy n offset).out.length = D.out.length + n := by
  induction n generalizing D offset with
  | zero => rfl
  | succ n ih =>
    rw [putCopy, ih, put, length_append, length_singleton]
    omega

theorem length_play (i : Item) : (D.play i).out.length = D.out.length + i.length := by
  cases i with
  | byte ch => exact length_append
  | code count offset => exact length_putCopy count offset

theorem copy_eq (n offset : ℕ) (h : D.out.length + n ≤ outSize) :
    D.copy outSize n offset = some (D.putCopy n offset) := by
  induction n generalizing D offset with
  | zero => rfl
  | succ n ih =>
    rw [copy, write_eq _ (by omega), bind_eq_bind, bind_some, realPos_eq]
    refine ih (offset + 1) ?_
    rw [put, length_append, length_singleton]
    omega

/-- Only the index modulo the window's size matters. -/
theorem putCopy_mod (n : ℕ) {offset offset' : ℕ} (h : offset % winSize = offset' % winSize) :
    D.putCopy n offset = D.putCopy n offset' := by
  induction n generalizing D offset offset' with
  | zero => rfl
  | succ n ih =>
    rw [putCopy, putCopy, h]
    apply ih
    rw [Nat.add_mod, h, ← Nat.add_mod]

theorem inBuf_putCopy (n offset : ℕ) : (D.putCopy n offset).feed rest =
    (D.feed rest).putCopy n offset := by
  induction n generalizing D offset with
  | zero => rfl
  | succ n ih =>
    rw [putCopy, ih]
    rfl

theorem inBuf_play (i : Item) : (D.play i).feed rest = (D.feed rest).play i := by
  cases i with
  | byte ch => rfl
  | code count offset => exact inBuf_putCopy count offset

theorem read_eq {byte : UInt8} (h : D.inBuf = byte :: rest) : D.read = some (byte, D.feed rest) := by
  rw [read, h]
  rfl

theorem item_byte {byte1 : UInt8} (h : D.inBuf = byte1 :: rest) :
    D.item outSize true = (D.feed rest).write outSize byte1 := by
  rw [item, if_pos rfl, read_eq h]
  rfl

theorem item_code {byte1 byte2 : UInt8} (h : D.inBuf = byte1 :: byte2 :: rest) :
    D.item outSize false =
      (D.feed rest).copy outSize (codeLength byte2) (codeOffset byte1 byte2) := by
  rw [item, if_neg Bool.false_ne_true, read_eq h]
  rfl

/-- An item is read back as it was written. -/
theorem item_eq {i : Item} (hfits : i.Fits) (hinBuf : D.inBuf = i.bytes ++ rest)
    (hroom : D.out.length + i.length ≤ outSize) :
    D.item outSize i.isByte = some ((D.feed rest).play i) := by
  cases i with
  | byte ch =>
    rw [Item.isByte, item_byte (hinBuf : D.inBuf = ch :: rest)]
    exact write_eq ch hroom
  | code count offset =>
    obtain ⟨hlow, hhigh, hoffset⟩ := hfits
    obtain ⟨hlength, hmod⟩ := @compCode_decode count offset hlow hhigh
    have hinBuf' : D.inBuf = compCodeLoByte (compCode count offset) ::
        compCodeHiByte (compCode count offset) :: rest := hinBuf
    rw [Item.isByte, item_code hinBuf', hlength, copy_eq (D := D.feed rest) count _ hroom, play,
      putCopy_mod count hmod]

theorem block_eq {flagByte : UInt8} {items : List Item} (hfits : ∀ i ∈ items, i.Fits)
    {left counter : ℕ} (hbits : ∀ k (h : k < items.length), bitSet flagByte (counter + k) =
      (items.get ⟨k, h⟩).isByte) (hinBuf : D.inBuf = items.flatMap Item.bytes ++ rest)
    (hroom : D.out.length + span items ≤ outSize) (hleft : items.length ≤ left)
    (hend : items.length = left ∨ D.out.length + span items = outSize) :
    D.block outSize flagByte left counter = some ((D.feed rest).replay items) := by
  induction items generalizing D left counter with
  | nil =>
    have hinBuf' : D.inBuf = rest := hinBuf
    have hD : D.feed rest = D := by rw [← hinBuf']; rfl
    cases left with
    | zero => rw [block, replay, foldl_nil, hD]
    | succ left =>
      have hfull : ¬ D.out.length < outSize := by
        simp only [length_nil, span_nil] at hend
        omega
      rw [block, if_neg hfull, replay, foldl_nil, hD]
  | cons i items ih =>
    obtain ⟨left, rfl⟩ : ∃ n, left = n + 1 := ⟨left - 1, by simp at hleft; omega⟩
    have hi := hfits i mem_cons_self
    have hpos := hi.length_pos
    rw [span_cons] at hroom hend
    have hinBuf' : D.inBuf = i.bytes ++ (items.flatMap Item.bytes ++ rest) := by
      rw [hinBuf, flatMap_cons, append_assoc]
    have hbit : bitSet flagByte counter = i.isByte := hbits 0 (Nat.succ_pos _)
    have hlength : ((D.feed (items.flatMap Item.bytes ++ rest)).play i).out.length =
        D.out.length + i.length := length_play i
    rw [block, if_pos (by omega), hbit, item_eq hi hinBuf' (by omega), bind_eq_bind,
      bind_some]
    rw [ih (fun j hj ↦ hfits j (mem_cons_of_mem i hj)) ?_ ?_ ?_ ?_ ?_]
    · rw [inBuf_play, replay_cons]
      rfl
    · intro k hk
      rw [Nat.add_assoc, Nat.add_comm 1 k]
      exact hbits (k + 1) (Nat.succ_lt_succ hk)
    · rw [← inBuf_play]
      rfl
    · omega
    · simpa using hleft
    · simp only [length_cons] at hend
      omega

theorem length_replay (items : List Item) :
    (D.replay items).out.length = D.out.length + span items := by
  induction items generalizing D with
  | nil => rfl
  | cons i items ih =>
    rw [replay_cons, ih, length_play, span_cons]
    omega

theorem inBuf_replay (items : List Item) : (D.replay items).feed rest = (D.feed rest).replay items := by
  induction items generalizing D with
  | nil => rfl
  | cons i items ih => rw [replay_cons, replay_cons, ih, inBuf_play]

/-- Written blocks are read back. -/
theorem blocks_eq {items : List Item} {blocks : List (UInt8 × List Item)}
    (h : Blocks D.inBuf items blocks) (hfits : ∀ i ∈ items, i.Fits)
    (hroom : D.out.length + span items = outSize) {turns : ℕ} (hturns : D.inBuf.length ≤ turns) :
    Decompressor.blocks outSize turns D = some ((D.feed []).replay items) := by
  induction blocks generalizing D items turns with
  | nil =>
    have hinBuf : D.inBuf = [] := h.bytes_eq
    have hitems : items = [] := h.items_eq
    have hD : D.feed [] = D := by rw [← hinBuf]; rfl
    cases turns with
    | zero => rw [Decompressor.blocks, hitems, replay, foldl_nil, hD]
    | succ turns =>
      have hread : D.read = none := by rw [read, hinBuf]
      rw [Decompressor.blocks, hread, hitems, replay, foldl_nil, hD]
  | cons b blocks ih =>
    obtain ⟨flagByte, group⟩ := b
    have hitems : items = group ++ blocks.flatMap Prod.snd := h.items_eq
    have hinBuf : D.inBuf = flagByte :: (group.flatMap Item.bytes ++ blocks.flatMap blockBytes) :=
      h.bytes_eq
    have hflags : Flags flagByte group := h.flags _ mem_cons_self
    obtain ⟨turns, rfl⟩ : ∃ n, turns = n + 1 := ⟨turns - 1, by simp [hinBuf] at hturns; omega⟩
    set tail := blocks.flatMap blockBytes with htail
    rw [hitems, span_append] at hroom
    have hfull : group.length = 8 ∨ D.out.length + span group = outSize := by
      cases blocks with
      | nil =>
        refine .inr ?_
        simp only [flatMap_nil, span_nil] at hroom
        omega
      | cons b' blocks =>
        refine .inl (h.full (flagByte, group) ?_)
        rw [dropLast_cons_cons]
        exact mem_cons_self
    rw [Decompressor.blocks, read_eq hinBuf]
    have hgroup : (D.feed (group.flatMap Item.bytes ++ tail)).block outSize flagByte 8 0 =
        some ((D.feed tail).replay group) := by
      refine block_eq (fun i hi ↦ hfits i ?_) (fun k hk ↦ ?_) rfl ?_ hflags.fits hfull
      · rw [hitems]
        exact mem_append_left _ hi
      · rw [Nat.zero_add, hflags.bit k (Nat.lt_of_lt_of_le hk hflags.fits),
          getElem?_eq_getElem hk]
        rfl
      · show D.out.length + span group ≤ outSize
        omega
    have hlength : ((D.feed tail).replay group).out.length = D.out.length + span group :=
      length_replay group
    have hleft : ((D.feed tail).replay group).inBuf = tail := by
      rw [← inBuf_replay]
      rfl
    have hrest : Blocks ((D.feed tail).replay group).inBuf (blocks.flatMap Prod.snd) blocks := by
      refine ⟨rfl, hleft, fun b hb ↦ h.flags b (mem_cons_of_mem _ hb), fun b hb ↦ ?_⟩
      refine h.full b ?_
      cases blocks with
      | nil => exact absurd hb not_mem_nil
      | cons b' blocks =>
        rw [dropLast_cons_cons]
        exact mem_cons_of_mem _ hb
    show (((D.feed (group.flatMap Item.bytes ++ tail)).block outSize flagByte 8 0).bind _) = _
    rw [hgroup, bind_some, ih hrest, hitems, replay_append, inBuf_replay]
    · rfl
    · intro i hi
      rw [hitems] at hfits
      exact hfits i (mem_append_right _ hi)
    · omega
    · rw [hleft]
      rw [hinBuf, length_cons, length_append] at hturns
      omega

end Reading

section Replaying

variable {infile : List UInt8}

/-- The output so far is the input's, and the window shows the text before it. -/
structure Matches (infile : List UInt8) (D : Decompressor) : Prop where
  out : D.out <+: infile
  currPos : D.currPos = D.out.length
  window : Shows winSize D.window (text infile) (D.out.length + (winSize - 1))

theorem prefix_concat {out : List UInt8} (h : out <+: infile) (hroom : out.length < infile.length)
    (byte : UInt8) : out ++ [byte] <+: infile ↔ byte = text infile (winSize + out.length) := by
  rw [text_add hroom]
  obtain ⟨rest, rfl⟩ := h
  cases rest with
  | nil => simp at hroom
  | cons b rest => simp [prefix_append_right_inj]

theorem Matches.put (h : D.Matches infile) (hroom : D.out.length < infile.length) {byte : UInt8}
    (hbyte : byte = text infile (winSize + D.out.length)) : (D.put byte).Matches infile := by
  refine ⟨(prefix_concat h.out hroom byte).mpr hbyte, ?_, ?_⟩
  · rw [Decompressor.put, length_append, h.currPos]
    rfl
  · have hcell : D.currPos % winSize = (D.out.length + (winSize - 1) + 1) % winSize := by
      rw [h.currPos]
      unfold winSize
      omega
    have hindex : winSize + D.out.length = D.out.length + (winSize - 1) + 1 := by
      unfold winSize
      omega
    have hlength : (D.put byte).out.length + (winSize - 1) = D.out.length + (winSize - 1) + 1 := by
      rw [Decompressor.put, length_append, length_singleton]
      omega
    rw [hlength, Decompressor.put, hbyte, hcell, hindex]
    exact h.window.write

theorem out_putCopy (n offset : ℕ) : D.out <+: (D.putCopy n offset).out := by
  induction n generalizing D offset with
  | zero => exact prefix_rfl
  | succ n ih =>
    have hput : D.out <+: (D.put (D.window (offset % winSize))).out := prefix_append _ _
    exact hput.trans (ih (offset + 1))

theorem out_play (i : Item) : D.out <+: (D.play i).out := by
  cases i with
  | byte ch => exact prefix_append _ _
  | code count offset => exact out_putCopy count offset

theorem out_replay (items : List Item) : D.out <+: (D.replay items).out := by
  induction items generalizing D with
  | nil => exact prefix_rfl
  | cons i items ih => exact (out_play i).trans ih

/-- Copying keeps the output right if and only if the bytes are the next ones. -/
theorem Matches.putCopy {n i offset : ℕ} (h : D.Matches infile)
    (hroom : D.out.length + n ≤ infile.length) (hlow : D.out.length ≤ i)
    (hhigh : i ≤ D.out.length + (winSize - 1)) (hoffset : i % winSize = offset % winSize) :
    ((D.putCopy n offset).out <+: infile → Repeats infile i (winSize + D.out.length) n) ∧
      (Repeats infile i (winSize + D.out.length) n → (D.putCopy n offset).Matches infile) := by
  induction n generalizing D i offset with
  | zero => exact ⟨fun _ ↦ repeats_zero infile _ _, fun _ ↦ h⟩
  | succ n ih =>
    have hread : D.window (offset % winSize) = text infile i := by
      rw [← hoffset]
      refine h.window i hhigh ?_
      unfold winSize
      omega
    have hlength : (D.put (text infile i)).out.length = D.out.length + 1 := length_append
    have hmod : (i + 1) % winSize = (offset + 1) % winSize := by rw [Nat.add_mod, hoffset, ← Nat.add_mod]
    have hnext (hbyte : text infile i = text infile (winSize + D.out.length)) :=
      ih (h.put (by omega) hbyte) (by omega) (by omega) (by omega) hmod
    rw [hlength, ← Nat.add_assoc] at hnext
    rw [Decompressor.putCopy, hread, repeats_succ]
    constructor
    · intro hprefix
      have hput : D.out ++ [text infile i] <+: infile :=
        (out_putCopy (D := D.put (text infile i)) n (offset + 1)).trans hprefix
      have hbyte := (prefix_concat h.out (by omega) _).mp hput
      exact ⟨hbyte, (hnext hbyte).1 hprefix⟩
    · rintro ⟨hbyte, hrest⟩
      exact (hnext hbyte).2 hrest

/-- An item keeps the output right if and only if it is faithful. -/
theorem Matches.play (h : D.Matches infile) {i : Item} (hfits : i.Fits)
    (hroom : D.out.length + i.length ≤ infile.length) :
    ((D.play i).out <+: infile → i.Faithful infile D.out.length) ∧
      (i.Faithful infile D.out.length → (D.play i).Matches infile) := by
  cases i with
  | byte ch =>
    have hlt : D.out.length < infile.length := hroom
    exact ⟨fun hprefix ↦ (prefix_concat h.out hlt ch).mp hprefix, fun hbyte ↦ h.put hlt hbyte⟩
  | code count offset =>
    obtain ⟨hlow, hhigh, hmod⟩ := @source_spec D.out.length offset hfits.2.2
    exact h.putCopy hroom hlow hhigh (by rw [hmod, Nat.mod_eq_of_lt hfits.2.2])

/-- Items put out the input if and only if they are faithful. -/
theorem Matches.replay {items : List Item} (h : D.Matches infile) (hfits : ∀ i ∈ items, i.Fits)
    (hspan : D.out.length + span items = infile.length) :
    (D.replay items).out = infile ↔ Faithful infile D.out.length items := by
  induction items generalizing D with
  | nil =>
    rw [span_nil, Nat.add_zero] at hspan
    exact ⟨fun _ ↦ trivial, fun _ ↦ h.out.eq_of_length hspan⟩
  | cons i items ih =>
    rw [span_cons, ← Nat.add_assoc] at hspan
    have hitem := h.play (hfits i mem_cons_self) (by omega)
    have hlength : (D.play i).out.length = D.out.length + i.length := length_play i
    have hrest (hfaithful : i.Faithful infile D.out.length) :=
      ih (hitem.2 hfaithful) (fun j hj ↦ hfits j (mem_cons_of_mem i hj)) (by omega)
    rw [hlength] at hrest
    rw [replay_cons, Faithful]
    constructor
    · intro hout
      have hprefix := out_replay (D := D.play i) items
      rw [hout] at hprefix
      have hfaithful := hitem.1 hprefix
      exact ⟨hfaithful, (hrest hfaithful).mp hout⟩
    · rintro ⟨hfaithful, hfaithfulRest⟩
      exact (hrest hfaithful).mpr hfaithfulRest

end Replaying

end Decompressor

/-- Decompressing written items gives the input if and only if they are faithful. -/
theorem decompress_eq_iff {infile bytes : List UInt8} {items : List Item}
    {blocks : List (UInt8 × List Item)} (h : Blocks bytes items blocks) (hfits : ∀ i ∈ items, i.Fits)
    (hspan : span items = infile.length) :
    decompress bytes infile.length = some infile ↔ Faithful infile 0 items := by
  set D : Decompressor := ⟨bytes, fun _ ↦ space, 0, []⟩ with hD
  have hblocks := Decompressor.blocks_eq (D := D) h hfits
    (by show 0 + span items = infile.length; omega) (Nat.le_refl _)
  have hmatches : (D.feed []).Matches infile := by
    refine ⟨List.nil_prefix, rfl, fun i hi _ ↦ ?_⟩
    have hi' : i < winSize := by
      have hle : i ≤ 0 + (winSize - 1) := hi
      unfold winSize at *
      omega
    rw [text, if_pos hi']
    rfl
  have hreplay := hmatches.replay hfits (by show 0 + span items = infile.length; omega)
  have hdecompress : decompress bytes infile.length = some ((D.feed []).replay items).out := by
    rw [decompress, ← hD, hblocks]
    rfl
  rw [hdecompress, some_inj]
  exact hreplay

end MicroFramework.Compression
