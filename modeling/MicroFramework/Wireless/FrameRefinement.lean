import MicroFramework.Wireless.Frame

/-!
# Frames are byte sequences with room

When each call of a program does what it should: its range and its bytes are as before, or it has
exactly its effect on the sequence.  A call goes wrong where its arguments pass a check that does
not cover them, so that bytes of the room are read or written, or the range is moved before a copy
fails, or the copy goes outside the arrays.
-/

namespace MicroFramework.Wireless

open Arrays Library Support Wireless.Frame List Option Int Function

/-! ## Arguments that are covered -/

def Given (index nbBytes length : ℤ) : Prop := nbBytes = 0 ∨ InRange index nbBytes length

instance (index nbBytes length : ℤ) : Decidable (Given index nbBytes length) :=
  inferInstanceAs (Decidable (_ ∨ _))

/-- The length of the sequence with the bytes to append. -/
def Source.lengthIn (frames : Frames) : Source → Option ℤ
  | .array a => some a.bytes.length
  | .frame id => (frames id).map lenData

namespace Frame

variable (f : Frame)

/-- The call fails before it moves the range, or the copy does not fail behind it. -/
def CleanAppendToFront (index nbBytes length : ℤ) : Prop :=
  f.lenOffset < nbBytes ∨ Given index nbBytes length

/-- The call fails, or the bytes are given; `start` is where the copy looks for them,
in a buffer of `size` bytes. -/
def CleanAppendToBack (index nbBytes length start size : ℤ) : Prop :=
  f.lengthDataAvail < nbBytes ∨ Given index nbBytes length ∨ Refused start nbBytes size

/-- The check fails, or the index is none of the room in front. -/
def CleanRead (nbBytes : ℕ) (indexFrame : ℤ) : Prop :=
  f.lenData < int32 (nbBytes + indexFrame) ∨ 0 ≤ indexFrame ∨ f.lenOffset + indexFrame < 0

/-- The check fails or is exact, or the first byte is not written. -/
def CleanWrite (number : Number) (indexFrame : ℤ) : Prop :=
  f.lenData < int32 (number.bytes.length + indexFrame) ∨
    (0 ≤ indexFrame ∧ number.bytes.length + indexFrame < 2 ^ 31) ∨
      ¬ InRange (int32 (int32 (indexFrame + f.lenOffset) + number.firstWritten)) 1 f.buf.length

/-- The check or the copy fails, or the bytes are put inside the sequence. -/
def CleanWriteBytes (indexFrame length : ℤ) : Prop :=
  f.buf.length < int32 (indexFrame + length) ∨ Given indexFrame length f.lenData ∨
    Refused (int32 (f.lenOffset + indexFrame)) length f.buf.length

/-- The check or the copy fails, or there are no bytes, or both ranges are covered. -/
def CleanReadBytes (length indexArray indexFrame nbBytes : ℤ) : Prop :=
  f.lenData < int32 (nbBytes + indexFrame) ∨ nbBytes = 0 ∨
    (InRange indexFrame nbBytes f.lenData ∧ InRange indexArray nbBytes length) ∨
    Refused (int32 (f.lenOffset + indexFrame)) nbBytes f.buf.length ∨
      Refused indexArray nbBytes length

/-- The calls fail, or there are no bytes, or the other frame has no room in front and both ranges
are covered. -/
def CleanReadBytesTo (toFrame : Frame) (indexToFrame indexFrame nbBytes : ℤ) : Prop :=
  toFrame.lenData < int32 (toFrame.lenOffset + nbBytes) ∨
    f.lenData < int32 (nbBytes + indexFrame) ∨ nbBytes = 0 ∨
    (toFrame.lenOffset = 0 ∧ InRange indexFrame nbBytes f.lenData ∧
      InRange indexToFrame nbBytes toFrame.lenData) ∨
    Refused (int32 (f.lenOffset + indexFrame)) nbBytes f.buf.length ∨
      Refused indexToFrame nbBytes toFrame.buf.length

end Frame

/-- The arguments of a call are covered by its checks. -/
def Clean (frames : Frames) : Op → Prop
  | .create _ _ => True
  | .appendToFront id source index nbBytes => ∀ f length, frames id = some f →
      source.lengthIn frames = some length → f.CleanAppendToFront index.toInt nbBytes.toInt length
  | .appendToBack id (.array a) index nbBytes => ∀ f, frames id = some f →
      f.CleanAppendToBack index.toInt nbBytes.toInt a.bytes.length index.toInt a.bytes.length
  | .appendToBack id (.frame src) index nbBytes => ∀ f g, frames id = some f →
      frames src = some g → f.CleanAppendToBack index.toInt nbBytes.toInt g.lenData
        (int32 (g.lenOffset + index.toInt)) g.buf.length
  | .writeToFront _ _ => True
  | .writeToBack _ _ => True
  | .deleteFromFront _ nbBytes => 0 ≤ nbBytes.toInt
  | .deleteFromBack _ nbBytes => 0 ≤ nbBytes.toInt
  | .allocFront _ nbBytes => 0 ≤ nbBytes.toInt
  | .allocBack _ nbBytes => 0 ≤ nbBytes.toInt
  | .read id reader indexFrame => ∀ f, frames id = some f →
      f.CleanRead reader.nbBytes indexFrame.toInt
  | .write id number indexFrame => ∀ f, frames id = some f → f.CleanWrite number indexFrame.toInt
  | .writeBytes id indexFrame b => ∀ f, frames id = some f →
      f.CleanWriteBytes indexFrame.toInt b.bytes.length
  | .readBytes id byteArray indexArray indexFrame nbBytes => ∀ f, frames id = some f →
      f.CleanReadBytes byteArray.bytes.length indexArray.toInt indexFrame.toInt nbBytes.toInt
  | .readBytesTo id toId indexToFrame indexFrame nbBytes => ∀ f g, frames id = some f →
      frames toId = some g →
        f.CleanReadBytesTo g indexToFrame.toInt indexFrame.toInt nbBytes.toInt

/-! ## A frame and its sequence -/

/-- The frame's range is the sequence, and the rest of its buffer is the room. -/
structure Frame.Holds (f : Frame) (w : Window) : Prop where
  buf_eq : f.buf = w.front ++ w.bytes ++ w.back
  offset_eq : f.lenOffset = w.front.length
  data_eq : f.lenData = w.bytes.length
  size_lt : f.buf.length < 2 ^ 31

/-- A call that failed has changed nothing, and one that did not has its effect. -/
def Right (f : Frame) (result : Frame × Except Failure Unit) (effect : Option Window) : Prop :=
  (∃ e, result = (f, .error (.thrown e))) ∨
    ∃ f' w', result = (f', .ok ()) ∧ effect = some w' ∧ f'.Holds w'

section holds

variable {f g : Frame} {w v : Window} {index nbBytes : ℤ} {bytes : List UInt8}

theorem Frame.Holds.length (h : f.Holds w) :
    f.buf.length = w.front.length + w.bytes.length + w.back.length := by
  rw [h.buf_eq, length_append, length_append]

theorem Frame.Holds.sizes (h : f.Holds w) :
    f.buf.length = w.front.length + w.bytes.length + w.back.length ∧ f.buf.length < 2 ^ 31 ∧
      f.lenOffset = w.front.length ∧ f.lenData = w.bytes.length :=
  ⟨h.length, h.size_lt, h.offset_eq, h.data_eq⟩

/-- The ends of the range move, and the buffer stays. -/
theorem Frame.Holds.move (h : f.Holds w) {offset data : ℤ}
    (hsame : v.front ++ (v.bytes ++ v.back) = w.front ++ (w.bytes ++ w.back))
    (hoffset : offset = v.front.length) (hdata : data = v.bytes.length) :
    Frame.Holds ⟨f.buf, offset, data⟩ v :=
  ⟨by rw [h.buf_eq, append_assoc, append_assoc, hsame], hoffset, hdata, h.size_lt⟩

theorem Frame.Holds.avail (h : f.Holds w) : f.lengthDataAvail = w.back.length := by
  have hlength := h.length
  have hsize := h.size_lt
  have hfront : int32 (f.buf.length - w.front.length) = f.buf.length - w.front.length :=
    int32_eq ⟨by omega, by omega⟩
  rw [lengthDataAvail, h.offset_eq, h.data_eq, hfront, int32_eq ⟨by omega, by omega⟩]
  omega

variable {i n : ℕ}

theorem Frame.Holds.readRange (h : f.Holds w) (hin : i + n ≤ w.bytes.length) :
    readRange f.buf (w.front.length + i) n = Library.readRange w.bytes i n := by
  have hin' : n ≤ (w.bytes.drop i).length := by
    rw [length_drop]
    omega
  calc (f.buf.drop (w.front.length + i)).take n = ((w.bytes ++ w.back).drop i).take n := by
        rw [h.buf_eq, append_assoc, ← drop_drop, drop_left]
    _ = (w.bytes.drop i ++ w.back).take n := by rw [drop_append_of_le_length (by omega)]
    _ = (w.bytes.drop i).take n := take_append_of_le_length hin'

theorem arrayCopy_ok {source destination : List UInt8} {i j n : ℤ}
    (hsource : InRange i n source.length) (hdestination : InRange j n destination.length)
    (hsize : source.length < 2 ^ 31) (hsize' : destination.length < 2 ^ 31) :
    arrayCopy source i destination j n =
      .ok (replaceRange destination j.toNat (Library.readRange source i.toNat n.toNat)) := by
  rw [arrayCopy, copy_inside hsource hdestination hsize hsize']

theorem arrayCopy_zero {source destination : List UInt8} {i j : ℤ} :
    arrayCopy source i destination j 0 = .ok destination := by
  rw [arrayCopy, copy_zero]

theorem arrayCopy_error {source destination : List UInt8} {i j n : ℤ} (hn : n ≠ 0)
    (h : Refused i n source.length ∨ Refused j n destination.length) :
    arrayCopy source i destination j n = .error (.thrown .argumentOutOfRange) := by
  rw [arrayCopy, copy_refused hn h]

/-! ### Appending -/

variable {part l : List UInt8}

/-- The range grows to the front, and the bytes are put there. -/
theorem Frame.Holds.pushFront (h : f.Holds w) {offset data : ℤ}
    (hi : i + part.length = w.front.length) (hoffset : offset = i)
    (hdata : data = w.bytes.length + part.length) :
    Frame.Holds ⟨replaceRange f.buf i part, offset, data⟩
      ⟨w.front.take (w.front.length - part.length), part ++ w.bytes, w.back⟩ := by
  have hlength := h.length
  have hkeep : (w.front.take (w.front.length - part.length)).length = i := by
    rw [length_take_of_le (Nat.sub_le _ _)]
    omega
  refine ⟨?_, ?_, ?_, ?_⟩
  · have hbuf : f.buf = w.front.take (w.front.length - part.length) ++
        w.front.drop (w.front.length - part.length) ++ (w.bytes ++ w.back) := by
      rw [take_append_drop, ← append_assoc, h.buf_eq]
    rw [hbuf, replaceRange_append hkeep.symm (by rw [length_drop]; omega)]
    simp only [append_assoc]
  · rw [hkeep, hoffset]
  · simp only [hdata, length_append]
    omega
  · rw [length_replaceRange (by omega)]
    exact h.size_lt

/-- The range grows to the back, and the bytes are put there. -/
theorem Frame.Holds.pushBack (h : f.Holds w) {data : ℤ}
    (hi : i = w.front.length + w.bytes.length) (hroom : part.length ≤ w.back.length)
    (hdata : data = w.bytes.length + part.length) :
    Frame.Holds ⟨replaceRange f.buf i part, f.lenOffset, data⟩
      ⟨w.front, w.bytes ++ part, w.back.drop part.length⟩ := by
  have hlength := h.length
  refine ⟨?_, h.offset_eq, ?_, ?_⟩
  · have hbuf : f.buf = (w.front ++ w.bytes) ++ w.back.take part.length ++
        w.back.drop part.length := by
      rw [append_assoc (w.front ++ w.bytes), take_append_drop, h.buf_eq]
    have hmiddle : (w.back.take part.length).length = part.length := length_take_of_le hroom
    rw [hbuf, replaceRange_append (hi.trans length_append.symm) hmiddle.symm]
    simp only [append_assoc]
  · simp only [hdata, length_append]
    omega
  · rw [length_replaceRange (by omega)]
    exact h.size_lt

theorem readRange_zero (l : List UInt8) (i : ℕ) : Library.readRange l i 0 = [] := rfl

theorem appendToFront_right (h : f.Holds w) (hbytes : bytes.length < 2 ^ 31)
    (hclean : f.lenOffset < nbBytes ∨ Given index nbBytes bytes.length) :
    Right f (f.appendToFront bytes index nbBytes)
      (w.appendFront (Library.readRange bytes index.toNat nbBytes.toNat)) := by
  obtain ⟨hlength, hsize, hoffset, hdata⟩ := h.sizes
  unfold appendToFront
  by_cases hfits : f.lenOffset < nbBytes
  · exact .inl ⟨_, if_pos hfits⟩
  rw [if_neg hfits]
  have hgiven : Given index nbBytes bytes.length := hclean.resolve_left hfits
  have hpos : 0 ≤ nbBytes := hgiven.elim (fun h ↦ h.ge) fun h ↦ h.2.1
  have hgrow : f.grow nbBytes = ⟨f.buf, f.lenOffset - nbBytes, f.lenData + nbBytes⟩ := by
    rw [grow, int32_eq ⟨by omega, by omega⟩, int32_eq ⟨by omega, by omega⟩]
  simp only [hgrow]
  cases hgiven with
  | inl hzero =>
    subst hzero
    rw [arrayCopy_zero]
    refine .inr ⟨_, w, rfl, ?_, ?_⟩
    · rw [toNat_zero, readRange_zero]
      simp [Window.appendFront]
    · simp only [Int.sub_zero, Int.add_zero]
      exact h
  | inr hcopy =>
    have hto : InRange (f.lenOffset - nbBytes) nbBytes f.buf.length := ⟨by omega, hpos, by omega⟩
    have hpart : (Library.readRange bytes index.toNat nbBytes.toNat).length = nbBytes.toNat := by
      unfold InRange at hcopy
      exact length_readRange (by omega)
    have hroom : (Library.readRange bytes index.toNat nbBytes.toNat).length ≤ w.front.length := by
      omega
    rw [arrayCopy_ok hcopy hto hbytes hsize]
    exact .inr ⟨_, _, rfl, if_pos hroom, h.pushFront (by omega) (by omega) (by omega)⟩

theorem appendToBack_right (h : f.Holds w) (hbytes : bytes.length < 2 ^ 31)
    (hgiven : Given index nbBytes bytes.length) :
    Right f (f.appendToBack bytes index nbBytes)
      (w.appendBack (Library.readRange bytes index.toNat nbBytes.toNat)) := by
  obtain ⟨hlength, hsize, hoffset, hdata⟩ := h.sizes
  unfold appendToBack
  rw [h.avail]
  by_cases hfits : (w.back.length : ℤ) < nbBytes
  · exact .inl ⟨_, if_pos hfits⟩
  rw [if_neg hfits]
  have hend : int32 (f.lenOffset + f.lenData) = f.lenOffset + f.lenData :=
    int32_eq ⟨by omega, by omega⟩
  have hpos : 0 ≤ nbBytes := hgiven.elim (fun h ↦ h.ge) fun h ↦ h.2.1
  have hdata' : int32 (f.lenData + nbBytes) = f.lenData + nbBytes := int32_eq ⟨by omega, by omega⟩
  rw [hend, hdata']
  cases hgiven with
  | inl hzero =>
    subst hzero
    rw [arrayCopy_zero, toNat_zero, readRange_zero, Int.add_zero]
    exact .inr ⟨f, w, rfl, by simp [Window.appendBack], h⟩
  | inr hcopy =>
    have hto : InRange (f.lenOffset + f.lenData) nbBytes f.buf.length := ⟨by omega, hpos, by omega⟩
    have hpart : (Library.readRange bytes index.toNat nbBytes.toNat).length = nbBytes.toNat := by
      unfold InRange at hcopy
      exact length_readRange (by omega)
    have hroom : (Library.readRange bytes index.toNat nbBytes.toNat).length ≤ w.back.length := by
      omega
    rw [arrayCopy_ok hcopy hto hbytes hsize]
    exact .inr ⟨_, _, rfl, if_pos hroom, h.pushBack (by omega) hroom (by omega)⟩

/-- Appending to the back, where the copy finds the bytes or refuses to look for them. -/
theorem appendToBack_clean {sequence : List UInt8} {start : ℤ} (h : f.Holds w)
    (hbytes : bytes.length < 2 ^ 31)
    (hclean : f.CleanAppendToBack index nbBytes sequence.length start bytes.length)
    (hslice : Given index nbBytes sequence.length → Given start nbBytes bytes.length ∧
      slice sequence index nbBytes =
        some (Library.readRange bytes start.toNat nbBytes.toNat)) :
    Right f (f.appendToBack bytes start nbBytes)
      ((slice sequence index nbBytes).bind w.appendBack) := by
  by_cases hgiven : Given index nbBytes sequence.length
  · obtain ⟨hstart, heq⟩ := hslice hgiven
    rw [heq, bind_some]
    exact appendToBack_right h hbytes hstart
  · unfold appendToBack
    by_cases hfits : f.lengthDataAvail < nbBytes
    · exact .inl ⟨_, if_pos hfits⟩
    have hrefused := (hclean.resolve_left hfits).resolve_left hgiven
    rw [if_neg hfits, arrayCopy_error (fun hzero ↦ hgiven (.inl hzero)) (.inl hrefused)]
    exact .inl ⟨_, rfl⟩

/-- A part that is given, as it is read from an array. -/
theorem slice_given (h : Given index nbBytes bytes.length) :
    slice bytes index nbBytes = some (Library.readRange bytes index.toNat nbBytes.toNat) :=
  if_pos h

/-- A part of the sequence, as it is read from the buffer. -/
theorem Frame.Holds.slice_eq (h : g.Holds v) (hgiven : Given index nbBytes g.lenData) :
    slice v.bytes index nbBytes = some (Library.readRange g.buf
      (int32 (g.lenOffset + index)).toNat nbBytes.toNat) := by
  obtain ⟨hlength, hsize, hoffset, -⟩ := h.sizes
  rw [h.data_eq] at hgiven
  rw [slice_given hgiven]
  by_cases hzero : nbBytes = 0
  · rw [hzero]
    rfl
  · have hin : InRange index nbBytes v.bytes.length := hgiven.resolve_left hzero
    unfold InRange at hin
    have hstart : (int32 (g.lenOffset + index)).toNat = v.front.length + index.toNat := by
      rw [int32_eq ⟨by omega, by omega⟩]
      omega
    rw [hstart, h.readRange (by omega)]

/-- The place of a part of the sequence in the buffer. -/
theorem Frame.Holds.inRange (h : g.Holds v) (hin : InRange index nbBytes g.lenData) :
    InRange (int32 (g.lenOffset + index)) nbBytes g.buf.length := by
  obtain ⟨hlength, hsize, hoffset, hdata⟩ := h.sizes
  unfold InRange at hin ⊢
  rw [int32_eq ⟨by omega, by omega⟩]
  omega

theorem appendFrameToFront_right (hf : f.Holds w) (hg : g.Holds v)
    (hclean : f.CleanAppendToFront index nbBytes g.lenData) :
    Right f (f.appendFrameToFront g index nbBytes)
      ((slice v.bytes index nbBytes).bind w.appendFront) := by
  cases hclean with
  | inl hfails => exact .inl ⟨_, if_pos hfails⟩
  | inr hgiven =>
    rw [hg.slice_eq hgiven, bind_some]
    exact appendToFront_right hf hg.size_lt (.inr (hgiven.imp_right hg.inRange))

theorem appendArrayToFront_right (hf : f.Holds w) (hbytes : bytes.length < 2 ^ 31)
    (hclean : f.CleanAppendToFront index nbBytes bytes.length) :
    Right f (f.appendToFront bytes index nbBytes)
      ((slice bytes index nbBytes).bind w.appendFront) := by
  cases hclean with
  | inl hfails => exact .inl ⟨_, if_pos hfails⟩
  | inr hgiven =>
    rw [slice_given hgiven, bind_some]
    exact appendToFront_right hf hbytes (.inr hgiven)

theorem appendArrayToBack_right (hf : f.Holds w) (hbytes : bytes.length < 2 ^ 31)
    (hclean : f.CleanAppendToBack index nbBytes bytes.length index bytes.length) :
    Right f (f.appendToBack bytes index nbBytes)
      ((slice bytes index nbBytes).bind w.appendBack) :=
  appendToBack_clean hf hbytes hclean fun hgiven ↦ ⟨hgiven, slice_given hgiven⟩

theorem appendFrameToBack_right (hf : f.Holds w) (hg : g.Holds v)
    (hclean : f.CleanAppendToBack index nbBytes g.lenData (int32 (g.lenOffset + index))
      g.buf.length) :
    Right f (f.appendFrameToBack g index nbBytes)
      ((slice v.bytes index nbBytes).bind w.appendBack) := by
  rw [hg.data_eq] at hclean
  refine appendToBack_clean hf hg.size_lt hclean fun hgiven ↦ ?_
  rw [← hg.data_eq] at hgiven
  exact ⟨hgiven.imp_right hg.inRange, hg.slice_eq hgiven⟩

theorem given_all (bytes : List UInt8) : Given 0 bytes.length bytes.length :=
  .inr ⟨Int.le_refl 0, natCast_nonneg _, by omega⟩

theorem slice_all (bytes : List UInt8) : slice bytes 0 bytes.length = some bytes := by
  rw [slice_given (given_all bytes)]
  simp [Library.readRange]

theorem writeToFront_right (hf : f.Holds w) (hbytes : bytes.length < 2 ^ 31) :
    Right f (f.writeToFront bytes) (w.appendFront bytes) := by
  have hright := appendArrayToFront_right hf hbytes (.inr (given_all bytes))
  rw [slice_all] at hright
  exact hright

theorem writeToBack_right (hf : f.Holds w) (hbytes : bytes.length < 2 ^ 31) :
    Right f (f.writeToBack bytes) (w.appendBack bytes) := by
  have hright := appendArrayToBack_right hf hbytes (.inr (.inl (given_all bytes)))
  rw [slice_all] at hright
  exact hright

theorem Frame.Holds.given_all (hg : g.Holds v) : Given 0 g.lenData g.lenData := by
  rw [hg.data_eq]
  exact Wireless.given_all v.bytes

theorem writeFrameToFront_right (hf : f.Holds w) (hg : g.Holds v) :
    Right f (f.writeFrameToFront g) (w.appendFront v.bytes) := by
  have hright := appendFrameToFront_right hf hg (.inr hg.given_all)
  rw [hg.data_eq, slice_all] at hright
  rw [writeFrameToFront, lengthDataUsed, hg.data_eq]
  exact hright

theorem writeFrameToBack_right (hf : f.Holds w) (hg : g.Holds v) :
    Right f (f.writeFrameToBack g) (w.appendBack v.bytes) := by
  have hright := appendFrameToBack_right hf hg (.inr (.inl hg.given_all))
  rw [hg.data_eq, slice_all] at hright
  rw [writeFrameToBack, lengthDataUsed, hg.data_eq]
  exact hright

/-! ### Moving the ends of the range -/

theorem deleteFromFront_right (h : f.Holds w) (hpos : 0 ≤ nbBytes) :
    Right f (f.deleteFromFront nbBytes) (w.deleteFront nbBytes) := by
  obtain ⟨hlength, hsize, hoffset, hdata⟩ := h.sizes
  unfold deleteFromFront
  by_cases hfails : f.lenData < nbBytes
  · exact .inl ⟨_, if_pos hfails⟩
  rw [if_neg hfails, int32_eq (z := f.lenData - nbBytes) ⟨by omega, by omega⟩,
    int32_eq (z := f.lenOffset + nbBytes) ⟨by omega, by omega⟩]
  refine .inr ⟨_, _, rfl, if_pos ⟨Int.le_refl 0, hpos, by omega⟩, h.move ?_ ?_ ?_⟩
  · rw [append_assoc, ← append_assoc (w.bytes.take _), take_append_drop]
  · simp only [length_append, length_take]
    omega
  · simp only [length_drop]
    omega

theorem deleteFromBack_right (h : f.Holds w) (hpos : 0 ≤ nbBytes) :
    Right f (f.deleteFromBack nbBytes) (w.deleteBack nbBytes) := by
  obtain ⟨hlength, hsize, -, hdata⟩ := h.sizes
  unfold deleteFromBack
  by_cases hfails : f.lenData < nbBytes
  · exact .inl ⟨_, if_pos hfails⟩
  rw [if_neg hfails, int32_eq (z := f.lenData - nbBytes) ⟨by omega, by omega⟩]
  refine .inr ⟨_, _, rfl, if_pos ⟨Int.le_refl 0, hpos, by omega⟩, h.move ?_ h.offset_eq ?_⟩
  · rw [← append_assoc (w.bytes.take _), take_append_drop]
  · simp only [length_take]
    omega

theorem allocFront_right (h : f.Holds w) (hpos : 0 ≤ nbBytes) :
    Right f (f.allocFront nbBytes) (w.allocFront nbBytes) := by
  obtain ⟨hlength, hsize, hoffset, hdata⟩ := h.sizes
  unfold allocFront
  by_cases hfails : f.lenOffset < nbBytes
  · exact .inl ⟨_, if_pos hfails⟩
  rw [if_neg hfails, grow, int32_eq (z := f.lenData + nbBytes) ⟨by omega, by omega⟩,
    int32_eq (z := f.lenOffset - nbBytes) ⟨by omega, by omega⟩]
  refine .inr ⟨_, _, rfl, if_pos ⟨Int.le_refl 0, hpos, by omega⟩, h.move ?_ ?_ ?_⟩
  · rw [append_assoc, ← append_assoc (w.front.take _), take_append_drop]
  · simp only [length_take]
    omega
  · simp only [length_append, length_drop]
    omega

theorem allocBack_right (h : f.Holds w) (hpos : 0 ≤ nbBytes) :
    Right f (f.allocBack nbBytes) (w.allocBack nbBytes) := by
  obtain ⟨hlength, hsize, -, hdata⟩ := h.sizes
  unfold allocBack
  rw [h.avail]
  by_cases hfails : (w.back.length : ℤ) < nbBytes
  · exact .inl ⟨_, if_pos hfails⟩
  rw [if_neg hfails, int32_eq (z := f.lenData + nbBytes) ⟨by omega, by omega⟩]
  refine .inr ⟨_, _, rfl, if_pos ⟨Int.le_refl 0, hpos, by omega⟩, h.move ?_ h.offset_eq ?_⟩
  · rw [append_assoc, take_append_drop]
  · simp only [length_append, length_take]
    omega

/-! ### Overwriting -/

theorem Frame.Holds.overwrite (h : f.Holds w) (hin : i + part.length ≤ w.bytes.length) :
    Frame.Holds { f with buf := replaceRange f.buf (w.front.length + i) part }
      { w with bytes := replaceRange w.bytes i part } := by
  have hlength := h.length
  refine ⟨?_, h.offset_eq, ?_, ?_⟩
  · have hbuf : f.buf = (w.front ++ w.bytes.take i) ++ Library.readRange w.bytes i part.length ++
        (w.bytes.drop (i + part.length) ++ w.back) := by
      rw [Library.readRange, ← drop_drop, append_assoc, ← append_assoc
        ((w.bytes.drop i).take _), take_append_drop, append_assoc w.front,
        ← append_assoc (w.bytes.take i), take_append_drop, ← append_assoc, h.buf_eq]
    have hstart : w.front.length + i = (w.front ++ w.bytes.take i).length := by
      rw [length_append, length_take_of_le (by omega)]
    rw [hbuf, replaceRange_append hstart (length_readRange hin).symm, replaceRange]
    simp only [append_assoc]
  · rw [h.data_eq, length_replaceRange hin]
  · rw [length_replaceRange (by omega)]
    exact h.size_lt

/-- Bytes are put inside the sequence. -/
theorem Frame.Holds.write (h : f.Holds w) (hin : InRange index part.length w.bytes.length) :
    Right f ({ f with
      buf := replaceRange f.buf (int32 (f.lenOffset + index)).toNat part }, .ok ())
      (w.write index part) := by
  obtain ⟨hlength, hsize, hoffset, -⟩ := h.sizes
  have heffect : w.write index part =
      some { w with bytes := replaceRange w.bytes index.toNat part } := by
    rw [Window.write, Wireless.overwrite, if_pos (.inr hin), map_some]
  unfold InRange at hin
  have hstart : (int32 (f.lenOffset + index)).toNat = w.front.length + index.toNat := by
    rw [int32_eq ⟨by omega, by omega⟩]
    omega
  rw [hstart]
  exact .inr ⟨_, _, rfl, heffect, h.overwrite (by omega)⟩

/-- No bytes are put anywhere. -/
theorem Frame.Holds.writeNone (h : f.Holds w) : Right f (f, .ok ()) (w.write index []) :=
  have heffect : w.write index [] = some w := by
    rw [Window.write, Wireless.overwrite, if_pos (.inl rfl), replaceRange_nil, map_some]
  .inr ⟨f, w, rfl, heffect, h⟩

theorem readRange_all (l : List UInt8) : Library.readRange l 0 l.length = l := by
  simp [Library.readRange]

theorem writeBytes_right (h : f.Holds w) (hbytes : bytes.length < 2 ^ 31)
    (hclean : f.CleanWriteBytes index bytes.length) :
    Right f (f.writeBytes index bytes) (w.write index bytes) := by
  unfold writeBytes
  by_cases hfails : (f.buf.length : ℤ) < int32 (index + bytes.length)
  · exact .inl ⟨_, if_pos hfails⟩
  rw [if_neg hfails]
  by_cases hzero : (bytes.length : ℤ) = 0
  · have hnil : bytes = [] := length_eq_zero_iff.mp (by omega)
    rw [hzero, arrayCopy_zero, hnil]
    exact h.writeNone
  rcases hclean with hfails' | hgiven | hrefused
  · exact absurd hfails' hfails
  · have hin := hgiven.resolve_left hzero
    have hall : InRange 0 bytes.length bytes.length := ⟨Int.le_refl 0, natCast_nonneg _, by omega⟩
    rw [arrayCopy_ok hall (h.inRange hin) hbytes h.size_lt]
    simp only [toNat_zero, toNat_natCast, readRange_all]
    exact h.write (h.data_eq ▸ hin)
  · rw [arrayCopy_error hzero (.inr hrefused)]
    exact .inl ⟨_, rfl⟩

/-! ### Writing numbers -/

theorem writeElement_ok (h : i < f.buf.length) (b : UInt8) :
    f.writeElement i b = ({ f with buf := f.buf.set i b }, .ok ()) := by
  rw [writeElement, if_pos ⟨by omega, by omega⟩, toNat_natCast]

theorem writeElement_error {i : ℤ} (h : ¬ InRange i 1 f.buf.length) (b : UInt8) :
    f.writeElement i b = (f, .error (.thrown .indexOutOfRange)) := by
  unfold InRange at h
  rw [writeElement, if_neg (by omega)]

theorem replaceRange_cons (b : UInt8) (rest : List UInt8) (h : i < l.length) :
    replaceRange (l.set i b) (i + 1) rest = replaceRange l i (b :: rest) := by
  have htake : (l.set i b).take (i + 1) = l.take i ++ [b] := by
    rw [take_succ_eq_append_getElem (by rwa [length_set]), take_set_of_le
      (Nat.le_refl i), getElem_set_self]
  have hend : i + 1 + rest.length = i + (b :: rest).length := by
    rw [length_cons]
    omega
  rw [replaceRange, replaceRange, htake, drop_set_of_lt (by omega), hend]
  simp only [append_assoc, cons_append, nil_append]

theorem replaceRange_concat (b : UInt8) (init : List UInt8) (h : i + init.length < l.length) :
    replaceRange (l.set (i + init.length) b) i init = replaceRange l i (init ++ [b]) := by
  have hdrop : (l.set (i + init.length) b).drop (i + init.length) =
      b :: l.drop (i + init.length + 1) := by
    rw [drop_eq_getElem_cons (by rwa [length_set]), getElem_set_self,
      drop_set_of_lt (by omega)]
  rw [replaceRange, replaceRange, hdrop, take_set_of_le (by omega), length_append,
    append_assoc, append_assoc, append_assoc]
  rfl

theorem writeUp_ok (hsize : f.buf.length < 2 ^ 31) (h : i + bytes.length ≤ f.buf.length) :
    f.writeUp i bytes = ({ f with buf := replaceRange f.buf i bytes }, .ok ()) := by
  induction bytes generalizing f i with
  | nil => rw [replaceRange_nil]; rfl
  | cons b rest ih =>
    rw [length_cons] at h
    have hnext : int32 ((i : ℤ) + 1) = ((i + 1 : ℕ) : ℤ) := int32_eq ⟨by omega, by omega⟩
    rw [writeUp, writeElement_ok (by omega), hnext]
    simp only
    rw [ih (by rwa [length_set]) (by rw [length_set]; omega)]
    simp only [replaceRange_cons b rest (show i < f.buf.length by omega)]

theorem writeDown_ok (hsize : f.buf.length < 2 ^ 31) (h : i + bytes.length ≤ f.buf.length) :
    f.writeDown i bytes = ({ f with buf := replaceRange f.buf i bytes.reverse }, .ok ()) := by
  induction bytes generalizing f with
  | nil => rw [reverse_nil, replaceRange_nil]; rfl
  | cons b rest ih =>
    rw [length_cons] at h
    have hindex : int32 ((i : ℤ) + rest.length) = ((i + rest.length : ℕ) : ℤ) :=
      int32_eq ⟨by omega, by omega⟩
    rw [writeDown, hindex, writeElement_ok (by omega)]
    simp only
    rw [ih (by rwa [length_set]) (by rw [length_set]; omega), reverse_cons]
    have hconcat := replaceRange_concat (l := f.buf) (i := i) b rest.reverse
      (by rw [length_reverse]; omega)
    rw [length_reverse] at hconcat
    simp only [hconcat]

/-- A writer of numbers puts its bytes where they belong, or writes none. -/
structure Writes (write : Frame → ℤ → List UInt8 → Frame × Except Failure Unit)
    (bytes written : List UInt8) (first : ℕ) : Prop where
  length_eq : written.length = bytes.length
  ok : ∀ (f : Frame) (i : ℕ), f.buf.length < 2 ^ 31 → i + bytes.length ≤ f.buf.length →
    write f i bytes = ({ f with buf := replaceRange f.buf i written }, .ok ())
  error : ∀ (f : Frame) (i : ℤ), IsInt32 i → ¬ InRange (int32 (i + first)) 1 f.buf.length →
    ∃ e, write f i bytes = (f, .error (.thrown e))

theorem writes_up (b : UInt8) (rest : List UInt8) : Writes writeUp (b :: rest) (b :: rest) 0 where
  length_eq := rfl
  ok _ _ hsize h := writeUp_ok hsize h
  error f i hi hout := by
    rw [Int.natCast_zero, Int.add_zero, int32_eq hi] at hout
    exact ⟨_, by rw [writeUp, writeElement_error hout]⟩

theorem writes_down (b : UInt8) (rest : List UInt8) :
    Writes writeDown (b :: rest) (b :: rest).reverse rest.length where
  length_eq := length_reverse
  ok _ _ hsize h := writeDown_ok hsize h
  error f i _ hout := ⟨_, by rw [writeDown, writeElement_error hout]⟩

theorem Number.writes (number : Number) : ∃ write bytes,
    (∀ (f : Frame) i, number.write f i = f.writeRaw write bytes i) ∧
      Writes write bytes number.bytes number.firstWritten := by
  cases number with
  | byte val => exact ⟨_, _, fun _ _ ↦ rfl, writes_up _ _⟩
  | uint16 val => exact ⟨_, _, fun _ _ ↦ rfl, writes_up _ _⟩
  | uint32 val | uint64 val => exact ⟨_, _, fun _ _ ↦ rfl, writes_down _ _⟩
  | uint16Canonical val => exact ⟨_, _, fun _ _ ↦ rfl, writes_up _ _⟩
  | uint32Canonical val => exact ⟨_, _, fun _ _ ↦ rfl, writes_up _ _⟩
  | uint64Canonical val => exact ⟨_, _, fun _ _ ↦ rfl, writes_up _ _⟩

theorem write_right (h : f.Holds w) (number : Number) (hclean : f.CleanWrite number index) :
    Right f (number.write f index) (w.write index number.bytes) := by
  obtain ⟨write, bytes, hwrite, hwrites⟩ := number.writes
  obtain ⟨hlength, hsize, hoffset, hdata⟩ := h.sizes
  rw [hwrite, writeRaw, ← hwrites.length_eq]
  by_cases hfails : f.lenData < int32 (number.bytes.length + index)
  · exact .inl ⟨_, if_pos hfails⟩
  rw [if_neg hfails]
  rcases hclean with hfails' | ⟨hpos, hsmall⟩ | hout
  · exact absurd hfails' hfails
  · rw [int32_eq ⟨by omega, hsmall⟩] at hfails
    have hin : InRange index number.bytes.length w.bytes.length := ⟨hpos, by omega, by omega⟩
    have hright := h.write hin
    have hcomm : index + f.lenOffset = f.lenOffset + index := Int.add_comm _ _
    have hstart : int32 (f.lenOffset + index) = ((int32 (f.lenOffset + index)).toNat : ℤ) := by
      rw [int32_eq ⟨by omega, by omega⟩]
      omega
    have hroom : (int32 (f.lenOffset + index)).toNat + bytes.length ≤ f.buf.length := by
      rw [int32_eq ⟨by omega, by omega⟩, ← hwrites.length_eq]
      omega
    rw [hcomm, hstart, hwrites.ok f _ hsize hroom]
    rw [hstart] at hright
    exact hright
  · exact .inl (hwrites.error f _ (int32_isInt32 _) hout)

/-! ### Reading -/

/-- What a reading call returns, when it has not failed, is what the sequence has. -/
def Reads {α : Type} (result : Except Failure α) (value : Option α) : Prop :=
  (∃ e, result = .error (.thrown e)) ∨ ∃ x, result = .ok x ∧ value = some x

theorem readElements_ok (hsize : l.length < 2 ^ 31)
    (h : i + n ≤ l.length) : readElements l i n = .ok (Library.readRange l i n) := by
  induction n generalizing i with
  | zero => rfl
  | succ n ih =>
    have hnext : int32 ((i : ℤ) + 1) = ((i + 1 : ℕ) : ℤ) := int32_eq ⟨by omega, by omega⟩
    have hlt : i < l.length := by omega
    have helement : readElement l i = .ok l[i] := by
      rw [readElement, if_pos (natCast_nonneg i), toNat_natCast,
        getElem?_eq_getElem hlt]
    have hcons : Library.readRange l i (n + 1) = l[i] :: Library.readRange l (i + 1) n := by
      rw [Library.readRange, drop_eq_getElem_cons hlt, take_succ_cons, Library.readRange]
    rw [readElements, helement, hnext, ih (by omega), hcons]
    rfl

theorem readElement_error {i : ℤ} {e : Failure} (h : readElement l i = .error e) :
    e = .thrown .indexOutOfRange := by
  unfold readElement at h
  split_ifs at h
  · split at h
    · cases h
    · cases h
      rfl
  · cases h
    rfl

theorem readElements_error {i : ℤ} (hsize : l.length < 2 ^ 31)
    (hn : 0 < n) (h : ¬ InRange i n l.length) : ∃ e, readElements l i n = .error (.thrown e) := by
  induction n generalizing i with
  | zero => exact absurd hn (Nat.lt_irrefl 0)
  | succ n ih =>
    rw [readElements]
    cases helement : readElement l i with
    | error e =>
      obtain rfl := readElement_error helement
      exact ⟨.indexOutOfRange, rfl⟩
    | ok b =>
      have hi : 0 ≤ i ∧ i.toNat < l.length := by
        unfold readElement at helement
        split_ifs at helement with hpos
        split at helement
        · rename_i hsome
          exact ⟨hpos, (List.getElem?_eq_some_iff.mp hsome).1⟩
        · cases helement
      have hnext : int32 (i + 1) = i + 1 := int32_eq ⟨by omega, by omega⟩
      unfold InRange at h
      have hn' : 0 < n := by omega
      have hout : ¬ InRange (int32 (i + 1)) n l.length := by
        unfold InRange
        omega
      obtain ⟨e, he⟩ := ih hn' hout
      exact ⟨e, by rw [he]; rfl⟩

theorem combine_concat (init : List UInt8) (b : UInt8) :
    combine (init ++ [b]) = 256 * combine init + b.toNat := by
  have hb : b.toNat < 2 ^ 8 := b.toNat_lt
  calc combine (init ++ [b]) = combine init <<< 8 ||| b.toNat := by simp [combine]
    _ = 2 ^ 8 * combine init ||| b.toNat := by rw [Nat.shiftLeft_eq, Nat.mul_comm]
    _ = 256 * combine init + b.toNat := (Nat.two_pow_add_eq_or_of_lt hb _).symm

/-- Shifting bytes together gives the number they stand for. -/
theorem combine_eq (bytes : List UInt8) : combine bytes = leValue bytes.reverse := by
  induction bytes using List.reverseRecOn with
  | nil => rfl
  | append_singleton init b ih =>
    rw [combine_concat, ih, reverse_append, reverse_singleton, singleton_append,
      leValue, Nat.add_comm]

theorem Reads.map {α β : Type} {result : Except Failure α} {value : Option α} (g : α → β)
    (h : Reads result value) : Reads (result.map g) (value.map g) := by
  rcases h with ⟨e, rfl⟩ | ⟨x, rfl, rfl⟩
  · exact .inl ⟨e, rfl⟩
  · exact .inr ⟨g x, rfl, rfl⟩

theorem readRaw_reads (h : f.Holds w) (hn : 0 < n) (hsmall : n < 2 ^ 31)
    (hindex : IsInt32 index) (hclean : f.CleanRead n index) :
    Reads (f.readRaw n index) (slice w.bytes index n) := by
  obtain ⟨hlength, hsize, hoffset, hdata⟩ := h.sizes
  unfold IsInt32 at hindex
  unfold readRaw
  by_cases hfails : f.lenData < int32 (n + index)
  · exact .inl ⟨_, if_pos hfails⟩
  rw [if_neg hfails]
  by_cases hin : InRange (int32 (index + f.lenOffset)) n f.buf.length
  · rcases hclean with hfails' | hpos | hneg
    · exact absurd hfails' hfails
    · -- the bytes are in the buffer, so that no sum is too large
      have hstart : int32 (index + f.lenOffset) = index + f.lenOffset := by
        by_cases hover : index + f.lenOffset < 2 ^ 31
        · exact int32_eq ⟨by omega, hover⟩
        · rw [int32_overflow (Int.not_lt.mp hover) (by omega)] at hin
          unfold InRange at hin
          omega
      rw [hstart] at hin ⊢
      unfold InRange at hin
      rw [int32_eq ⟨by omega, by omega⟩] at hfails
      have hgiven : Given index n f.lenData := .inr ⟨hpos, by omega, by omega⟩
      have hslice := h.slice_eq hgiven
      have hindex' : index + f.lenOffset = ((w.front.length + index.toNat : ℕ) : ℤ) := by omega
      rw [hindex', readElements_ok hsize (by omega), hslice, Int.add_comm f.lenOffset, hstart,
        hindex', toNat_natCast, toNat_natCast]
      exact .inr ⟨_, rfl, rfl⟩
    · rw [int32_eq ⟨by omega, by omega⟩] at hin
      unfold InRange at hin
      omega
  · exact .inl (readElements_error hsize hn hin)

theorem Reader.read_eq (reader : Reader) (f : Frame) (index : ℤ) :
    reader.read f index = (f.readRaw reader.nbBytes index).map fun bytes ↦ reader.value bytes := by
  have hnetwork : (fun bytes : List UInt8 ↦ leValue bytes.reverse) = combine := by
    funext bytes
    rw [combine_eq]
  have hcanonical : (fun bytes : List UInt8 ↦ leValue bytes) =
      fun bytes ↦ combine bytes.reverse := by
    funext bytes
    rw [combine_eq, reverse_reverse]
  cases reader with
  | byte => exact congrArg (fun g ↦ (f.readRaw 1 index).map g) hnetwork.symm
  | uint16 => exact congrArg (fun g ↦ (f.readRaw 2 index).map g) hnetwork.symm
  | uint32 => exact congrArg (fun g ↦ (f.readRaw 4 index).map g) hnetwork.symm
  | uint64 => exact congrArg (fun g ↦ (f.readRaw 8 index).map g) hnetwork.symm
  | uint16Canonical => exact congrArg (fun g ↦ (f.readRaw 2 index).map g) hcanonical.symm
  | uint32Canonical => exact congrArg (fun g ↦ (f.readRaw 4 index).map g) hcanonical.symm
  | uint64Canonical => exact congrArg (fun g ↦ (f.readRaw 8 index).map g) hcanonical.symm

theorem read_reads (h : f.Holds w) (reader : Reader) (hindex : IsInt32 index)
    (hclean : f.CleanRead reader.nbBytes index) :
    Reads (reader.read f index)
      ((slice w.bytes index reader.nbBytes).map fun bytes ↦ reader.value bytes) := by
  have hbytes : 0 < reader.nbBytes ∧ reader.nbBytes < 2 ^ 31 := by cases reader <;> decide
  rw [reader.read_eq]
  exact (readRaw_reads h hbytes.1 hbytes.2 hindex hclean).map _

theorem length_copied {start : ℤ} (hin : InRange start nbBytes l.length) :
    ((Library.readRange l start.toNat nbBytes.toNat).length : ℤ) = nbBytes := by
  unfold InRange at hin
  rw [length_readRange (by omega)]
  omega

theorem readBytes_reads (h : f.Holds w) {array : List UInt8} {indexArray : ℤ}
    (harray : array.length < 2 ^ 31)
    (hclean : f.CleanReadBytes array.length indexArray index nbBytes) :
    Reads (f.readBytes array indexArray index nbBytes)
      ((slice w.bytes index nbBytes).bind fun part ↦
        overwrite array indexArray part) := by
  unfold readBytes
  by_cases hfails : f.lenData < int32 (nbBytes + index)
  · exact .inl ⟨_, if_pos hfails⟩
  rw [if_neg hfails]
  by_cases hzero : nbBytes = 0
  · subst hzero
    rw [arrayCopy_zero, h.slice_eq (.inl rfl), bind_some, toNat_zero, readRange_zero]
    exact .inr ⟨_, rfl, by rw [overwrite, if_pos (.inl rfl), replaceRange_nil]⟩
  rcases hclean with hfails' | hzero' | ⟨hfrom, hto⟩ | hrefused
  · exact absurd hfails' hfails
  · exact absurd hzero' hzero
  · have hcopied := length_copied (h.inRange hfrom)
    rw [arrayCopy_ok (h.inRange hfrom) hto h.size_lt harray, h.slice_eq (.inr hfrom), bind_some]
    exact .inr ⟨_, rfl, if_pos (.inr (hcopied.symm ▸ hto))⟩
  · rw [arrayCopy_error hzero hrefused]
    exact .inl ⟨_, rfl⟩

theorem readBytesTo_right (hf : f.Holds w) (hg : g.Holds v) {indexTo : ℤ}
    (hclean : f.CleanReadBytesTo g indexTo index nbBytes) :
    Right g (f.readBytesTo g indexTo index nbBytes)
      ((slice w.bytes index nbBytes).bind fun part ↦ v.write indexTo part) := by
  unfold readBytesTo readBytes
  by_cases hfails : g.lengthDataUsed < int32 (g.lenOffset + nbBytes)
  · exact .inl ⟨_, if_pos hfails⟩
  rw [if_neg hfails]
  by_cases hfails' : f.lenData < int32 (nbBytes + index)
  · rw [if_pos hfails']
    exact .inl ⟨_, rfl⟩
  rw [if_neg hfails']
  by_cases hzero : nbBytes = 0
  · subst hzero
    rw [arrayCopy_zero, hf.slice_eq (.inl rfl), bind_some, toNat_zero, readRange_zero]
    exact hg.writeNone
  rcases hclean with hout | hout | hzero' | ⟨hhead, hfrom, hto⟩ | hrefused
  · exact absurd hout hfails
  · exact absurd hout hfails'
  · exact absurd hzero' hzero
  · have hstart : int32 (g.lenOffset + indexTo) = indexTo := by
      obtain ⟨hlength, hsize, -, hdata⟩ := hg.sizes
      unfold InRange at hto
      rw [hhead, Int.zero_add, int32_eq ⟨by omega, by omega⟩]
    have hplace := hg.inRange hto
    rw [hstart] at hplace
    have hcopied := length_copied (hf.inRange hfrom)
    rw [arrayCopy_ok (hf.inRange hfrom) hplace hf.size_lt hg.size_lt, hf.slice_eq (.inr hfrom),
      bind_some]
    have hwrite : Right g _ (v.write indexTo _) := hg.write (hcopied.symm ▸ hg.data_eq ▸ hto)
    rw [hstart] at hwrite
    exact hwrite
  · rw [arrayCopy_error hzero hrefused]
    exact .inl ⟨_, rfl⟩

end holds

/-! ## Programs -/

/-- Every frame holds its sequence. -/
def Represents (frames : Frames) (windows : Windows) : Prop :=
  ∀ id, Option.Rel Frame.Holds (frames id) (windows id)

/-- The call threw and changed no sequence, or had its effect. -/
def Matched (windows : Windows) (result : Frames × Answer) (effect : Option (Windows × Answer)) :
    Prop :=
  (result.2 = .threw ∧ Represents result.1 windows) ∨
    ∃ windows', effect = some (windows', result.2) ∧ Represents result.1 windows'

section programs

variable {frames : Frames} {windows : Windows} {id : ℕ} {f : Frame} {w : Window}

section

variable (h : Represents frames windows)

include h

theorem Represents.some (hid : frames id = .some f) : ∃ w, windows id = .some w ∧ f.Holds w := by
  have hrel := h id
  rw [hid] at hrel
  cases hwindow : windows id with
  | none =>
    rw [hwindow] at hrel
    cases hrel
  | some w =>
    rw [hwindow] at hrel
    cases hrel with
    | some hholds => exact ⟨w, rfl, hholds⟩

theorem Represents.update (hholds : f.Holds w) :
    Represents (Function.update frames id (.some f)) (Function.update windows id (.some w)) := by
  intro other
  by_cases hother : other = id
  · rw [hother, update_self, update_self]
    exact .some hholds
  · rw [update_of_ne hother, update_of_ne hother]
    exact h other

theorem onFrame_matched
    {call : Frame → Frame × Except Failure Unit} {effect : Window → Option Window}
    (hright : ∀ f w, frames id = some f → windows id = some w → f.Holds w →
      Right f (call f) (effect w)) :
    Matched windows (onFrame frames id call) (onWindow windows id effect) := by
  rw [onFrame]
  cases hid : frames id with
  | none => exact .inl ⟨rfl, h⟩
  | some f =>
    obtain ⟨w, hw, hholds⟩ := h.some hid
    simp only
    rcases hright f w hid hw hholds with ⟨e, hcall⟩ | ⟨f', w', hcall, heffect, hholds'⟩
    · rw [hcall]
      have hsame : Function.update frames id (some f) = frames := by rw [← hid, update_eq_self]
      exact .inl ⟨rfl, by simp only [hsame]; exact h⟩
    · rw [hcall]
      refine .inr ⟨_, ?_, h.update hholds'⟩
      rw [onWindow, hw, bind_some, heffect, map_some]
      rfl

theorem withFrame_matched {call : Frame → Frames × Answer}
    {effect : Window → Option (Windows × Answer)}
    (hmatched : ∀ f w, frames id = some f → windows id = some w → f.Holds w →
      Matched windows (call f) (effect w)) :
    Matched windows (withFrame frames id call) ((windows id).bind effect) := by
  rw [withFrame]
  cases hid : frames id with
  | none => exact .inl ⟨rfl, h⟩
  | some f =>
    obtain ⟨w, hw, hholds⟩ := h.some hid
    rw [hw, bind_some]
    exact hmatched f w hid hw hholds

end

theorem onWindow_bind {β : Type} (o : Option β) (effect : Window → β → Option Window) :
    onWindow windows id (fun w ↦ o.bind (effect w)) =
      o.bind fun x ↦ onWindow windows id (effect · x) := by
  cases o with
  | some x => rfl
  | none =>
    rw [onWindow]
    cases windows id <;> rfl

/-- What a reading call returns. -/
theorem reads_matched (h : Represents frames windows) {α : Type} {result : Except Failure α}
    {value : Option α} (answer : α → Answer) (hreads : Reads result value) :
    Matched windows (frames, answerOf answer result) (value.map fun x ↦ (windows, answer x)) := by
  rcases hreads with ⟨e, rfl⟩ | ⟨x, rfl, rfl⟩
  · exact .inl ⟨rfl, h⟩
  · exact .inr ⟨windows, rfl, h⟩

theorem isInt32_toInt (x : Int32) : IsInt32 x.toInt := ⟨x.le_toInt, x.toInt_lt⟩

theorem create_holds (room : Room) :
    (create room.size room.header).Holds
      ⟨replicate room.header 0, [], replicate (room.size - room.header) 0⟩ where
  buf_eq := by
    rw [append_nil, replicate_append_replicate, Nat.add_sub_cancel' room.header_le]
    rfl
  offset_eq := by
    rw [length_replicate]
    rfl
  data_eq := rfl
  size_lt := by
    rw [create, length_replicate]
    exact room.size_lt

/-- A call whose arguments are covered. -/
theorem step_matched (h : Represents frames windows) {op : Op} (hclean : Clean frames op) :
    Matched windows (step frames op) (effect windows op) := by
  cases op with
  | create id room => exact .inr ⟨_, rfl, h.update (create_holds room)⟩
  | appendToFront id source index nbBytes =>
    cases source with
    | array a =>
      rw [effect, Source.sequence, bind_some, ← onWindow_bind]
      exact onFrame_matched h fun f w hid _ hholds ↦
        appendArrayToFront_right hholds a.length_lt (hclean f _ hid rfl)
    | frame src =>
      rw [effect, Source.sequence, bind_map]
      refine withFrame_matched h fun g v hsrc _ hg ↦ ?_
      rw [comp_apply, ← onWindow_bind]
      exact onFrame_matched h fun f w hid _ hf ↦
        appendFrameToFront_right hf hg (hclean f _ hid (by rw [Source.lengthIn, hsrc]; rfl))
  | appendToBack id source index nbBytes =>
    cases source with
    | array a =>
      rw [effect, Source.sequence, bind_some, ← onWindow_bind]
      exact onFrame_matched h fun f w hid _ hholds ↦
        appendArrayToBack_right hholds a.length_lt (hclean f hid)
    | frame src =>
      rw [effect, Source.sequence, bind_map]
      refine withFrame_matched h fun g v hsrc _ hg ↦ ?_
      rw [comp_apply, ← onWindow_bind]
      exact onFrame_matched h fun f w hid _ hf ↦ appendFrameToBack_right hf hg (hclean f g hid hsrc)
  | writeToFront id source =>
    cases source with
    | array a =>
      rw [effect, Source.sequence, bind_some]
      exact onFrame_matched h fun f w _ _ hholds ↦ writeToFront_right hholds a.length_lt
    | frame src =>
      rw [effect, Source.sequence, bind_map]
      exact withFrame_matched h fun g v _ _ hg ↦
        onFrame_matched h fun f w _ _ hf ↦ writeFrameToFront_right hf hg
  | writeToBack id source =>
    cases source with
    | array a =>
      rw [effect, Source.sequence, bind_some]
      exact onFrame_matched h fun f w _ _ hholds ↦ writeToBack_right hholds a.length_lt
    | frame src =>
      rw [effect, Source.sequence, bind_map]
      exact withFrame_matched h fun g v _ _ hg ↦
        onFrame_matched h fun f w _ _ hf ↦ writeFrameToBack_right hf hg
  | deleteFromFront id nbBytes =>
    exact onFrame_matched h fun f w _ _ hholds ↦ deleteFromFront_right hholds hclean
  | deleteFromBack id nbBytes =>
    exact onFrame_matched h fun f w _ _ hholds ↦ deleteFromBack_right hholds hclean
  | allocFront id nbBytes =>
    exact onFrame_matched h fun f w _ _ hholds ↦ allocFront_right hholds hclean
  | allocBack id nbBytes =>
    exact onFrame_matched h fun f w _ _ hholds ↦ allocBack_right hholds hclean
  | read id reader indexFrame =>
    refine withFrame_matched h fun f w hid _ hholds ↦ ?_
    have hreads := read_reads hholds reader (isInt32_toInt indexFrame) (hclean f hid)
    have hmatched := reads_matched h Answer.number hreads
    rw [Option.map_map] at hmatched
    exact hmatched
  | write id number indexFrame =>
    exact onFrame_matched h fun f w hid _ hholds ↦ write_right hholds number (hclean f hid)
  | writeBytes id indexFrame b =>
    exact onFrame_matched h fun f w hid _ hholds ↦ writeBytes_right hholds b.length_lt (hclean f hid)
  | readBytes id byteArray indexArray indexFrame nbBytes =>
    refine withFrame_matched h fun f w hid _ hholds ↦ ?_
    have hreads := readBytes_reads hholds byteArray.length_lt (hclean f hid)
    have hmatched := reads_matched h Answer.array hreads
    rw [Option.map_bind] at hmatched
    exact hmatched
  | readBytesTo id toId indexToFrame indexFrame nbBytes =>
    refine withFrame_matched h fun f w hid _ hf ↦ ?_
    rw [← onWindow_bind]
    exact onFrame_matched h fun g v hto _ hg ↦ readBytesTo_right hf hg (hclean f g hid hto)

end programs

/-- The calls of a program, one after the other. -/
def perform (frames : Frames) (op : Op) : Option (Frames × Answer) := some (step frames op)

theorem perform_simulates : Simulates perform Clean Allowed Represents := by
  intro frames windows op hrepresents hclean
  rcases step_matched hrepresents hclean with ⟨hthrew, hsame⟩ | ⟨windows', heffect, hrepresents'⟩
  · exact ⟨_, _, windows, rfl, .inl ⟨hthrew, rfl⟩, hsame⟩
  · exact ⟨_, _, windows', rfl, .inr heffect, hrepresents'⟩

theorem Frame.Holds.inside {f : Frame} {w : Window} (h : f.Holds w) :
    0 ≤ f.lenOffset ∧ 0 ≤ f.lenData ∧ f.lenOffset + f.lenData ≤ f.buf.length := by
  have hlength := h.length
  have hoffset := h.offset_eq
  have hdata := h.data_eq
  omega

/-- A program whose arguments are covered by the checks works on byte sequences with room: every
call throws and changes no sequence and no room, or has exactly its effect on the sequence, and the
ranges stay inside the buffers. -/
theorem frames_refine (ops : List Op) (hclean : CleanRun perform Clean (fun _ ↦ none) ops) :
    ∃ frames answers windows, runOps perform (fun _ ↦ none) ops = some (frames, answers) ∧
      Follows Allowed (fun _ ↦ none) ops answers windows ∧ Represents frames windows ∧
        ∀ id f, frames id = some f →
          0 ≤ f.lenOffset ∧ 0 ≤ f.lenData ∧ f.lenOffset + f.lenData ≤ f.buf.length := by
  obtain ⟨frames, answers, windows, hrun, hfollows, hrepresents⟩ :=
    perform_simulates.refines (fun _ ↦ none) (fun _ ↦ none) (fun _ ↦ .none) ops hclean
  refine ⟨frames, answers, windows, hrun, hfollows, hrepresents, fun id f hid ↦ ?_⟩
  obtain ⟨w, -, hholds⟩ := hrepresents.some hid
  exact hholds.inside

/-- Three bytes behind some room, of which the first is deleted and the next one is read. -/
def someBytes : List Op :=
  [.create 0 ⟨8, 4, by decide, by decide⟩,
    .appendToBack 0 (.array ⟨[1, 2, 3], by decide⟩) 0 3, .deleteFromFront 0 1, .read 0 .byte 0]

theorem frames_refine_bytes :
    ∃ frames answers windows, runOps perform (fun _ ↦ none) someBytes = some (frames, answers) ∧
      Follows Allowed (fun _ ↦ none) someBytes answers windows ∧ Represents frames windows ∧
        ∀ id f, frames id = some f →
          0 ≤ f.lenOffset ∧ 0 ≤ f.lenData ∧ f.lenOffset + f.lenData ≤ f.buf.length := by
  refine frames_refine someBytes ⟨trivial, fun _ _ _ ↦ ⟨?_, fun _ _ _ ↦ ⟨?_, fun _ _ _ ↦ ⟨?_,
    fun _ _ _ ↦ trivial⟩⟩⟩⟩
  · exact fun f _ ↦ .inr (.inl (by decide))
  · exact show (0 : ℤ) ≤ (1 : Int32).toInt by decide
  · exact fun f _ ↦ .inr (.inl (by decide))

/-- A byte of the room in front is read with a negative index. -/
theorem room_read :
    ¬ ∀ ops, ∃ frames answers windows, runOps perform (fun _ ↦ none) ops = some (frames, answers) ∧
      Follows Allowed (fun _ ↦ none) ops answers windows := by
  intro hclaim
  obtain ⟨frames, answers, windows, hrun, hfollows⟩ :=
    hclaim [.create 0 ⟨1, 1, by decide, by decide⟩, .read 0 .byte (-1)]
  have hanswers : (runOps perform (fun _ ↦ none)
      [.create 0 ⟨1, 1, by decide, by decide⟩, .read 0 .byte (-1)]).map Prod.snd =
        some [.done, .number 0] := rfl
  rw [hrun, map_some] at hanswers
  obtain rfl := some.inj hanswers
  obtain ⟨windows₁, -, hfollows⟩ := follows_cons hfollows
  obtain ⟨windows₂, hread, -⟩ := follows_cons hfollows
  rcases hread with ⟨hthrew, -⟩ | heffect
  · cases hthrew
  · obtain ⟨w, -, heffect⟩ := bind_eq_some_iff.mp heffect
    obtain ⟨part, hslice, -⟩ := map_eq_some_iff.mp heffect
    have hnone : slice w.bytes (-1 : Int32).toInt Reader.byte.nbBytes = none :=
      if_neg fun h ↦ h.elim (by decide) fun h ↦ absurd h.1 (by decide)
    rw [hnone] at hslice
    cases hslice

end MicroFramework.Wireless
