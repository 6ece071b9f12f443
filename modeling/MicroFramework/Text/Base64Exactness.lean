import Mathlib.Data.Fintype.Basic
import MicroFramework.Text.Base64

/-!
# When Base64 round trips, and what is rejected

Every array but the empty one comes back.  The decoder rejects a string for its length and for a
misplaced equal sign that it meets; a character outside the alphabet reads as 0, or is outside the
table.
-/

namespace MicroFramework.Text

open List UInt8

/-! ## Groups -/

theorem forall_byte {P : UInt8 → Prop} (h : ∀ n : Fin 256, P (UInt8.ofFin n)) (b : UInt8) : P b :=
  h b.toFin

theorem and_or_distrib_right (x y m : UInt8) : (x ||| y) &&& m = (x &&& m) ||| (y &&& m) := by
  apply UInt8.toBitVec_inj.mp
  simp only [UInt8.toBitVec_and, UInt8.toBitVec_or]
  ext i hi
  simp [Bool.and_or_distrib_right]

/-- Masks without a common bit leave nothing. -/
theorem and_masks (x : UInt8) {m m' : UInt8} (h : m &&& m' = 0) : (x &&& m) &&& m' = 0 := by
  rw [UInt8.and_assoc, h, UInt8.and_zero]

/-- The parts of a byte that go to two characters make it up again. -/
theorem parts_join (b : UInt8) :
    ((b >>> 2) <<< 2) |||
      ((((b <<< 4 &&& (0x30 : UInt8)) &&& (0x30 : UInt8)) ||| (0 : UInt8)) >>> 4) = b ∧
      (((0 : UInt8) ||| ((b >>> 4 &&& (0xf : UInt8)) &&& (0x0F : UInt8))) <<< 4) |||
        ((((b <<< 2 &&& (0x3c : UInt8)) &&& (0x3C : UInt8)) ||| (0 : UInt8)) >>> 2) = b ∧
      (((0 : UInt8) ||| ((b >>> 6 &&& (0x3 : UInt8)) &&& (0x03 : UInt8))) <<< 6) |||
        (b &&& (0x3f : UInt8)) = b := by
  revert b
  apply forall_byte
  decide +kernel

section Bytes

variable (uc0 uc1 uc2 : UInt8)

theorem firstByte_sextets :
    ((uc0 >>> 2) <<< 2) |||
      ((((uc0 <<< 4 &&& (0x30 : UInt8)) ||| (uc1 >>> 4 &&& (0xf : UInt8))) &&& (0x30 : UInt8)) >>> 4) =
      uc0 := by
  rw [and_or_distrib_right, and_masks (uc1 >>> 4) (by decide)]
  exact (parts_join uc0).1

theorem secondByte_sextets :
    ((((uc0 <<< 4 &&& (0x30 : UInt8)) ||| (uc1 >>> 4 &&& (0xf : UInt8))) &&& (0x0F : UInt8)) <<< 4) |||
      ((((uc1 <<< 2 &&& (0x3c : UInt8)) ||| (uc2 >>> 6 &&& (0x3 : UInt8))) &&& (0x3C : UInt8)) >>> 2) =
      uc1 := by
  rw [and_or_distrib_right, and_or_distrib_right, and_masks (uc0 <<< 4) (by decide),
    and_masks (uc2 >>> 6) (by decide)]
  exact (parts_join uc1).2.1

theorem thirdByte_sextets :
    ((((uc1 <<< 2 &&& (0x3c : UInt8)) ||| (uc2 >>> 6 &&& (0x3 : UInt8))) &&& (0x03 : UInt8)) <<< 6) |||
      (uc2 &&& (0x3f : UInt8)) = uc2 := by
  rw [and_or_distrib_right, and_masks (uc1 <<< 2) (by decide)]
  exact (parts_join uc2).2.2

theorem joinGroup_sextets : joinGroup (sextets uc0 uc1 uc2) = [uc0, uc1, uc2] := by
  rw [sextets, joinGroup, firstByte_sextets, secondByte_sextets, thirdByte_sextets]

/-- Two bytes are in the first three values. -/
theorem joinGroup_take_three : joinGroup ((sextets uc0 uc1 uc2).take 3) = [uc0, uc1] := by
  change joinGroup [_, _, _] = _
  rw [joinGroup, firstByte_sextets, secondByte_sextets]

/-- One byte is in the first two values. -/
theorem joinGroup_take_two : joinGroup ((sextets uc0 uc1 uc2).take 2) = [uc0] := by
  change joinGroup [_, _] = _
  rw [joinGroup, firstByte_sextets]

theorem or_lt_sextet {x y : UInt8} (hx : x < 64) (hy : y < 64) : x ||| y < 64 := by
  apply lt_iff_toNat_lt.mpr
  rw [UInt8.toNat_or]
  exact Nat.or_lt_two_pow (n := 6) (lt_iff_toNat_lt.mp hx) (lt_iff_toNat_lt.mp hy)

theorem and_lt_sextet (x : UInt8) {m : UInt8} (hm : m < 64) : x &&& m < 64 := by
  apply lt_iff_toNat_lt.mpr
  rw [UInt8.toNat_and]
  exact Nat.and_le_right.trans_lt (lt_iff_toNat_lt.mp hm)

theorem shift_lt_sextet (x : UInt8) : x >>> 2 < 64 := by
  apply lt_iff_toNat_lt.mpr
  have hx := x.toNat_lt
  have htwo : (2 : UInt8).toNat % 8 = 2 := rfl
  rw [UInt8.toNat_shiftRight, htwo, Nat.shiftRight_eq_div_pow]
  show x.toNat / 2 ^ 2 < 64
  omega

/-- The values of a group have 6 bits. -/
theorem sextets_lt : ∀ v ∈ sextets uc0 uc1 uc2, v < 64 := by
  simp only [sextets, forall_mem_cons, not_mem_nil, false_implies, implies_true, and_true]
  exact ⟨shift_lt_sextet uc0,
    or_lt_sextet (and_lt_sextet _ (by decide)) (and_lt_sextet _ (by decide)),
    or_lt_sextet (and_lt_sextet _ (by decide)) (and_lt_sextet _ (by decide)),
    and_lt_sextet _ (by decide)⟩

end Bytes

/-! ## Reading a group -/

/-- The character of a value is no padding and is read as the value. -/
theorem encodeSextet_spec {v : UInt8} (h : v < 64) :
    encodeSextet v ≠ 61 ∧ decodeChar (encodeSextet v) = .ok v := by
  revert v
  apply forall_byte
  decide +kernel

theorem readGroup_encoded (isLast : Bool) (values : List UInt8) (hvalues : ∀ v ∈ values, v < 64)
    (ibDest : ℕ) (rest : List UInt16) :
    readGroup isLast ibDest (values.map encodeSextet ++ rest) =
      (readGroup isLast (ibDest + values.length) rest).map (values ++ ·) := by
  induction values generalizing ibDest with
  | nil =>
    simp only [map_nil, nil_append, length_nil, Nat.add_zero]
    cases readGroup isLast ibDest rest <;> rfl
  | cons v values ih =>
    obtain ⟨hv, hvalues⟩ := forall_mem_cons.mp hvalues
    rw [map_cons, cons_append, readGroup, if_neg (encodeSextet_spec hv).1,
      (encodeSextet_spec hv).2]
    simp only [ih hvalues (ibDest + 1), length_cons]
    rw [Nat.add_assoc, Nat.add_comm 1]
    cases readGroup isLast (ibDest + (values.length + 1)) rest <;> rfl

theorem readGroup_padding {ibDest : ℕ} (h : 2 ≤ ibDest) (rest : List UInt16) :
    readGroup true ibDest (61 :: rest) = .ok [] := by
  rw [readGroup, if_pos rfl, if_neg]
  rintro (hlt | hfalse)
  · omega
  · cases hfalse

theorem decodeLoop_trio (uc0 uc1 uc2 : UInt8) {rest : List UInt16} {written : List UInt8}
    (h : decodeLoop rest = .ok written) :
    decodeLoop ((sextets uc0 uc1 uc2).map encodeSextet ++ rest) =
      .ok (uc0 :: uc1 :: uc2 :: written) := by
  have hread := readGroup_encoded (decide (rest = [])) (sextets uc0 uc1 uc2)
    (sextets_lt uc0 uc1 uc2) 0 []
  rw [append_nil, readGroup, Except.map, append_nil] at hread
  change decodeLoop (_ :: _ :: _ :: _ :: rest) = _
  rw [decodeLoop, h]
  change (readGroup _ 0 ((sextets uc0 uc1 uc2).map encodeSextet)).map _ = _
  rw [hread, Except.map, joinGroup_sextets]
  rfl

/-! ## The round trip -/

theorem encodeLoop_spec (trios : ℕ) (inArray : List UInt8) (h : 3 * trios ≤ inArray.length) :
    ∃ outArray, encodeLoop trios inArray = .ok (outArray, inArray.drop (3 * trios)) ∧
      outArray.length = 4 * trios ∧
      ∀ rest written, decodeLoop rest = .ok written →
        decodeLoop (outArray ++ rest) = .ok (inArray.take (3 * trios) ++ written) := by
  induction trios generalizing inArray with
  | zero => exact ⟨[], rfl, rfl, fun rest written h ↦ h⟩
  | succ trios ih =>
    match inArray, h with
    | uc0 :: uc1 :: uc2 :: inArray, h =>
      simp only [length_cons] at h
      obtain ⟨outArray, hloop, hlength, hdecode⟩ := ih inArray (by omega)
      refine ⟨(sextets uc0 uc1 uc2).map encodeSextet ++ outArray, ?_, ?_, ?_⟩
      · rw [encodeLoop, hloop]
        rfl
      · rw [length_append, hlength, length_map]
        change 4 + 4 * trios = _
        omega
      · intro rest written hrest
        rw [append_assoc]
        exact decodeLoop_trio uc0 uc1 uc2 (hdecode rest written hrest)

variable {outArray : List UInt16} {trios : ℕ}

theorem outputLength_groups (h : outArray.length = 4 * trios) (c0 c1 c2 c3 : UInt16) :
    outputLength (outArray ++ [c0, c1, c2, c3]) =
      if c3 = 61 then if c2 = 61 then 3 * trios + 1 else 3 * trios + 2 else 3 * trios + 3 := by
  have hlength : (outArray ++ [c0, c1, c2, c3]).length = 4 * trios + 4 := by
    rw [length_append, h]
    rfl
  have hlast : (outArray ++ [c0, c1, c2, c3])[4 * trios + 4 - 1]? = some c3 := by
    rw [getElem?_append_right (by omega), h, show 4 * trios + 4 - 1 - 4 * trios = 3 by omega]
    rfl
  have hprevious : (outArray ++ [c0, c1, c2, c3])[4 * trios + 4 - 2]? = some c2 := by
    rw [getElem?_append_right (by omega), h, show 4 * trios + 4 - 2 - 4 * trios = 2 by omega]
    rfl
  have hgroups : (4 * trios + 4) / 4 * 3 = 3 * trios + 3 := by omega
  unfold outputLength
  simp only [hlength, hlast, hprevious, hgroups, Option.some.injEq]
  split <;> try split
  all_goals omega

/-- The string of an array, decoded: the groups of the loop, and the last group, whose bytes are the
end of the array. -/
theorem fromBase64String_groups
    (hlength : outArray.length = 4 * trios) {front : List UInt8} (back : List UInt8)
    (hdecode : ∀ rest written, decodeLoop rest = .ok written →
      decodeLoop (outArray ++ rest) = .ok (front ++ written)) (hfront : front.length = 3 * trios)
    {c0 c1 c2 c3 : UInt16} (hback : decodeLoop [c0, c1, c2, c3] = .ok back)
    (hroom : outputLength (outArray ++ [c0, c1, c2, c3]) = 3 * trios + back.length) :
    fromBase64String (outArray ++ [c0, c1, c2, c3]) = .ok (front ++ back) := by
  have hgroups : (outArray ++ [c0, c1, c2, c3]).length % 4 = 0 := by
    rw [length_append, hlength]
    change (4 * trios + 4) % 4 = 0
    omega
  unfold fromBase64String
  rw [if_neg (by omega), if_neg (by simp), hdecode _ _ hback, Except.map, hroom, length_append,
    hfront, Nat.sub_self]
  rfl

theorem writePadding_one (inArrayLen : ℕ) (h : inArrayLen % 3 = 1) (outArray : List UInt16)
    (c0 c1 c2 c3 : UInt16) :
    writePadding inArrayLen (outArray ++ [c0, c1, c2, c3]) = outArray ++ [c0, c1, 61, 61] := by
  unfold writePadding
  rw [h]
  simp

theorem writePadding_two (inArrayLen : ℕ) (h : inArrayLen % 3 = 2) (outArray : List UInt16)
    (c0 c1 c2 c3 : UInt16) :
    writePadding inArrayLen (outArray ++ [c0, c1, c2, c3]) = outArray ++ [c0, c1, c2, 61] := by
  unfold writePadding
  rw [h]
  simp

theorem decodeLoop_group (c0 c1 c2 c3 : UInt16) :
    decodeLoop [c0, c1, c2, c3] = (readGroup true 0 [c0, c1, c2, c3]).map joinGroup := by
  rw [decodeLoop, decodeLoop]
  · change (readGroup true 0 [c0, c1, c2, c3]).map (joinGroup · ++ []) = _
    simp only [append_nil]
  · simp

theorem length_group (n : ℕ) :
    (((getBase64EncodedLength n / 4 : ℕ) : ℤ) - 1).toNat = (n - 1) / 3 := by
  unfold getBase64EncodedLength
  split <;> omega

/-- Every array but the empty one comes back. -/
theorem roundTrips_of_ne_nil {inArray : List UInt8} (h : inArray ≠ []) : RoundTrips inArray := by
  have hlength : inArray.length ≠ 0 := fun hnil ↦ h (length_eq_zero_iff.mp hnil)
  set trios := (inArray.length - 1) / 3 with htrios
  obtain ⟨outArray, hloop, hout, hdecode⟩ := encodeLoop_spec trios inArray (by omega)
  have hfront : (inArray.take (3 * trios)).length = 3 * trios := by
    rw [length_take]
    omega
  have hsplit := take_append_drop (3 * trios) inArray
  have hrest : (inArray.drop (3 * trios)).length = inArray.length - 3 * trios := length_drop
  unfold RoundTrips toBase64String
  simp only [length_group, ← htrios, hloop]
  match hback : inArray.drop (3 * trios), hrest with
  | [], hrest =>
    rw [length_nil] at hrest
    omega
  | [uc0], hrest =>
    rw [length_singleton] at hrest
    rw [hback] at hsplit
    have hs := sextets_lt uc0 0 0
    refine ⟨_, rfl, ?_⟩
    change fromBase64String (writePadding _ (outArray ++ [_, _, _, _])) = _
    rw [writePadding_one _ (by omega), fromBase64String_groups hout [uc0] hdecode hfront,
      hsplit]
    · rw [decodeLoop_group]
      have hread := readGroup_encoded true ((sextets uc0 0 0).take 2)
        (fun v hv ↦ hs v (mem_of_mem_take hv)) 0 [61, 61]
      change readGroup true 0 [_, _, 61, 61] = (readGroup true 2 [61, 61]).map _ at hread
      rw [readGroup_padding (le_refl 2), Except.map, append_nil] at hread
      exact (congrArg (Except.map joinGroup) hread).trans
        (congrArg Except.ok (joinGroup_take_two uc0 0 0))
    · rw [outputLength_groups hout, if_pos rfl, if_pos rfl]
      rfl
  | [uc0, uc1], hrest =>
    change 2 = _ at hrest
    rw [hback] at hsplit
    have hs := sextets_lt uc0 uc1 0
    refine ⟨_, rfl, ?_⟩
    change fromBase64String (writePadding _ (outArray ++ [_, _, _, _])) = _
    rw [writePadding_two _ (by omega),
      fromBase64String_groups hout [uc0, uc1] hdecode hfront, hsplit]
    · rw [decodeLoop_group]
      have hread := readGroup_encoded true ((sextets uc0 uc1 0).take 3)
        (fun v hv ↦ hs v (mem_of_mem_take hv)) 0 [61]
      change readGroup true 0 [_, _, _, 61] = (readGroup true 3 [61]).map _ at hread
      rw [readGroup_padding (by omega), Except.map, append_nil] at hread
      exact (congrArg (Except.map joinGroup) hread).trans
        (congrArg Except.ok (joinGroup_take_three uc0 uc1 0))
    · have hne : encodeSextet ((uc1 <<< 2 &&& (0x3c : UInt8)) ||| ((0 : UInt8) >>> 6 &&& 0x3)) ≠ 61 :=
        (encodeSextet_spec (hs _ (by simp [sextets]))).1
      rw [outputLength_groups hout, if_pos rfl]
      exact if_neg hne
  | [uc0, uc1, uc2], hrest =>
    change 3 = _ at hrest
    rw [hback] at hsplit
    have hs := sextets_lt uc0 uc1 uc2
    refine ⟨_, rfl, ?_⟩
    have hwhole : inArray.length % 3 = 0 := by omega
    have hpadding : ∀ out, writePadding inArray.length out = out := by
      intro out
      unfold writePadding
      rw [hwhole]
      rfl
    rw [hpadding]
    change fromBase64String (outArray ++ [_, _, _, _]) = _
    rw [fromBase64String_groups hout [uc0, uc1, uc2] hdecode hfront, hsplit]
    · exact decodeLoop_trio uc0 uc1 uc2 (show decodeLoop [] = .ok [] by simp [decodeLoop])
    · have hne : encodeSextet (uc2 &&& (0x3f : UInt8)) ≠ 61 :=
        (encodeSextet_spec (hs _ (by simp [sextets]))).1
      rw [outputLength_groups hout]
      exact if_neg hne
  | _ :: _ :: _ :: _ :: _, hrest =>
    simp only [length_cons] at hrest
    omega

/-! ## Rejection -/

/-- The characters in front of the first equal sign are in the table. -/
def Plain (c : UInt16) : Prop := c ≠ 61 ∧ c < 128

/-- An equal sign that is not allowed, with nothing outside the table in front of it. -/
def Misplaced (isLast : Bool) (ibDest : ℕ) (group : List UInt16) : Prop :=
  ∃ front back, group = front ++ 61 :: back ∧ (∀ c ∈ front, Plain c) ∧
    (ibDest + front.length < 2 ∨ isLast = false)

/-- The group is read to its end, or to an equal sign that is allowed. -/
def Readable (isLast : Bool) (ibDest : ℕ) (group : List UInt16) : Prop :=
  ∃ front back, group = front ++ back ∧ (∀ c ∈ front, Plain c) ∧
    (back = [] ∨ back.head? = some 61 ∧ 2 ≤ ibDest + front.length ∧ isLast = true)

def ReadsThrough : List UInt16 → Prop
  | c0 :: c1 :: c2 :: c3 :: rest =>
    ReadsThrough rest ∧ Readable (decide (rest = [])) 0 [c0, c1, c2, c3]
  | _ => True

/-- Some group has a misplaced equal sign, and all groups behind it are read through. -/
def MeetsMisplaced : List UInt16 → Prop
  | c0 :: c1 :: c2 :: c3 :: rest =>
    MeetsMisplaced rest ∨ ReadsThrough rest ∧ Misplaced (decide (rest = [])) 0 [c0, c1, c2, c3]
  | _ => False

theorem decodeChar_eq (c : UInt16) :
    (c < 128 ∧ ∃ value, decodeChar c = .ok value) ∨
      (¬ c < 128 ∧ decodeChar c = .error .indexOutOfRange) := by
  unfold decodeChar
  by_cases h : c.toNat < 128
  · refine .inl ⟨UInt16.lt_iff_toNat_lt.mpr h, base64Decode[c.toNat], ?_⟩
    rw [getElem?_eq_getElem h]
  · refine .inr ⟨fun hlt ↦ h (UInt16.lt_iff_toNat_lt.mp hlt), ?_⟩
    have hnone : base64Decode[c.toNat]? = none := getElem?_eq_none (not_lt.mp h)
    rw [hnone]

section Groups

variable {isLast : Bool} {ibDest : ℕ} {c : UInt16} {rest : List UInt16}

/-- Nothing is in front of an equal sign that comes first. -/
theorem front_eq_nil {front back : List UInt16} (hsplit : 61 :: rest = front ++ back)
    (hplain : ∀ d ∈ front, Plain d) : front = [] := by
  cases front with
  | nil => rfl
  | cons d front =>
    obtain ⟨rfl, _⟩ := List.cons.inj hsplit
    exact absurd rfl (hplain 61 mem_cons_self).1

theorem misplaced_padding : Misplaced isLast ibDest (61 :: rest) ↔ ibDest < 2 ∨ isLast = false := by
  constructor
  · rintro ⟨front, back, hsplit, hplain, hend⟩
    obtain rfl := front_eq_nil hsplit hplain
    simpa using hend
  · exact fun h ↦ ⟨[], rest, rfl, by simp, by simpa using h⟩

theorem misplaced_cons (hc : c ≠ 61) :
    Misplaced isLast ibDest (c :: rest) ↔ c < 128 ∧ Misplaced isLast (ibDest + 1) rest := by
  constructor
  · rintro ⟨front, back, hsplit, hplain, hend⟩
    cases front with
    | nil => exact absurd (List.cons.inj hsplit).1 hc
    | cons d front =>
      obtain ⟨rfl, rfl⟩ := List.cons.inj hsplit
      obtain ⟨hd, hplain⟩ := forall_mem_cons.mp hplain
      refine ⟨hd.2, front, back, rfl, hplain, hend.imp_left fun hlt ↦ ?_⟩
      rw [length_cons] at hlt
      omega
  · rintro ⟨hlt, front, back, rfl, hplain, hend⟩
    refine ⟨c :: front, back, rfl, forall_mem_cons.mpr ⟨⟨hc, hlt⟩, hplain⟩,
      hend.imp_left fun hlt ↦ ?_⟩
    rw [length_cons]
    omega

theorem readable_padding : Readable isLast ibDest (61 :: rest) ↔ 2 ≤ ibDest ∧ isLast = true := by
  constructor
  · rintro ⟨front, back, hsplit, hplain, hend⟩
    obtain rfl := front_eq_nil hsplit hplain
    rcases hend with rfl | ⟨_, hend⟩
    · cases hsplit
    · simpa using hend
  · exact fun h ↦ ⟨[], 61 :: rest, rfl, by simp, .inr ⟨rfl, h⟩⟩

theorem readable_cons (hc : c ≠ 61) :
    Readable isLast ibDest (c :: rest) ↔ c < 128 ∧ Readable isLast (ibDest + 1) rest := by
  constructor
  · rintro ⟨front, back, hsplit, hplain, hend⟩
    cases front with
    | nil =>
      obtain rfl : c :: rest = back := hsplit
      rcases hend with hnil | ⟨hhead, _⟩
      · cases hnil
      · exact absurd (Option.some.inj hhead) hc
    | cons d front =>
      obtain ⟨rfl, rfl⟩ := List.cons.inj hsplit
      obtain ⟨hd, hplain⟩ := forall_mem_cons.mp hplain
      refine ⟨hd.2, front, back, rfl, hplain, hend.imp_right fun h ↦ ⟨h.1, ?_, h.2.2⟩⟩
      have htwo := h.2.1
      rw [length_cons] at htwo
      omega
  · rintro ⟨hlt, front, back, rfl, hplain, hend⟩
    refine ⟨c :: front, back, rfl, forall_mem_cons.mpr ⟨⟨hc, hlt⟩, hplain⟩,
      hend.imp_right fun h ↦ ⟨h.1, ?_, h.2.2⟩⟩
    rw [length_cons]
    omega

/-- Reading a group fails with an `ArgumentException` at a misplaced equal sign, and otherwise only
outside the table. -/
theorem readGroup_spec (isLast : Bool) (group : List UInt16) (ibDest : ℕ) :
    (readGroup isLast ibDest group = .error .argument ↔ Misplaced isLast ibDest group) ∧
      ((∃ values, readGroup isLast ibDest group = .ok values) ↔ Readable isLast ibDest group) := by
  induction group generalizing ibDest with
  | nil =>
    constructor
    · constructor
      · intro h
        cases h
      · rintro ⟨front, back, hsplit, _⟩
        simp at hsplit
    · exact ⟨fun _ ↦ ⟨[], [], rfl, by simp, .inl rfl⟩, fun _ ↦ ⟨[], rfl⟩⟩
  | cons c rest ih =>
    rw [readGroup]
    by_cases hc : c = 61
    · subst hc
      rw [if_pos rfl, misplaced_padding, readable_padding]
      by_cases hbad : ibDest < 2 ∨ isLast = false
      · rw [if_pos hbad]
        refine ⟨⟨fun _ ↦ hbad, fun _ ↦ rfl⟩, ?_⟩
        constructor
        · rintro ⟨values, h⟩
          cases h
        · rintro ⟨htwo, hlast⟩
          rw [hlast] at hbad
          simp at hbad
          omega
      · rw [if_neg hbad]
        rw [not_or, not_lt, Bool.not_eq_false] at hbad
        refine ⟨?_, fun _ ↦ hbad, fun _ ↦ ⟨[], rfl⟩⟩
        constructor
        · intro h
          cases h
        · rintro (hlt | hfalse)
          · omega
          · rw [hbad.2] at hfalse
            cases hfalse
    · obtain ⟨hargument, hok⟩ := ih (ibDest + 1)
      rw [if_neg hc, misplaced_cons hc, readable_cons hc, ← hargument, ← hok]
      rcases decodeChar_eq c with ⟨hlt, value, hvalue⟩ | ⟨hlt, hvalue⟩
      · rw [hvalue]
        cases readGroup isLast (ibDest + 1) rest <;> simp [Except.map, hlt]
      · rw [hvalue]
        simp [hlt]

end Groups

/-- The decoder stops with an `ArgumentException` at the misplaced equal sign that it meets. -/
theorem decodeLoop_spec (inString : List UInt16) :
    (decodeLoop inString = .error .argument ↔ MeetsMisplaced inString) ∧
      ((∃ written, decodeLoop inString = .ok written) ↔ ReadsThrough inString) := by
  induction inString using decodeLoop.induct with
  | case1 c0 c1 c2 c3 rest failure hfailure ih =>
    obtain ⟨hargument, hok⟩ := ih
    rw [decodeLoop, MeetsMisplaced, ReadsThrough, ← hargument, ← hok, hfailure]
    simp
  | case2 c0 c1 c2 c3 rest written hwritten ih =>
    obtain ⟨hargument, hok⟩ := ih
    obtain ⟨hgroup, hvalues⟩ := readGroup_spec (decide (rest = [])) [c0, c1, c2, c3] 0
    rw [decodeLoop, MeetsMisplaced, ReadsThrough, ← hargument, ← hok, ← hgroup, ← hvalues, hwritten]
    cases readGroup (decide (rest = [])) 0 [c0, c1, c2, c3] <;> simp [Except.map]
  | case3 inString hshort =>
    rw [decodeLoop.eq_2 _ hshort, MeetsMisplaced.eq_2 _ hshort, ReadsThrough.eq_2 _ hshort]
    simp

/-! ## The exact condition -/

theorem not_roundTrips_nil : ¬ RoundTrips [] := by
  rintro ⟨outString, h, _⟩
  cases h

theorem wellFormed_nil : WellFormed [] := ⟨rfl, [], 0, rfl, by decide, by simp⟩

/-- An `ArgumentException` is thrown for the length, or for a misplaced equal sign. -/
theorem fromBase64String_argument_iff {inString : List UInt16} (h : inString ≠ []) :
    fromBase64String inString = .error .argument ↔
      inString.length % 4 ≠ 0 ∨ MeetsMisplaced inString := by
  unfold fromBase64String
  by_cases hlength : inString.length % 4 ≠ 0
  · simp [hlength]
  · rw [if_neg hlength, if_neg h, ← (decodeLoop_spec inString).1]
    cases decodeLoop inString <;> simp [Except.map, hlength]

/-- Every array but the empty one round trips; and malformed strings are rejected, if and only if the
length is no multiple of 4 or the decoder meets a misplaced equal sign. -/
theorem base64_iff (inArray : List UInt8) (inString : List UInt16) :
    (RoundTrips inArray ↔ inArray ≠ []) ∧
      (RejectsMalformed inString ↔
        WellFormed inString ∨ inString.length % 4 ≠ 0 ∨ MeetsMisplaced inString) := by
  constructor
  · constructor
    · rintro h rfl
      exact not_roundTrips_nil h
    · exact roundTrips_of_ne_nil
  · by_cases hwell : WellFormed inString
    · simp [RejectsMalformed, hwell]
    · have hne : inString ≠ [] := by
        rintro rfl
        exact hwell wellFormed_nil
      rw [← fromBase64String_argument_iff hne]
      simp only [RejectsMalformed, hwell, imp_false, not_false_eq_true, true_implies, false_or]
      constructor
      · exact fun h ↦ h.2
      · intro h
        refine ⟨?_, h⟩
        rw [h]
        intro bytes hbytes
        cases hbytes

/-- The empty array is not encoded; and `"A#AA"` is decoded. -/
theorem base64_fails :
    (¬ ∀ inArray, RoundTrips inArray) ∧ ¬ ∀ inString, RejectsMalformed inString := by
  constructor
  · intro h
    exact not_roundTrips_nil (h [])
  · intro h
    obtain ⟨_, body, padding, hsplit, hpadding, hbody⟩ :=
      (h [65, 35, 65, 65]).1 [0, 0, 0] (by decide)
    have hmem : (35 : UInt16) ∈ body ++ replicate padding 61 := by
      rw [← hsplit]
      decide
    rcases mem_append.mp hmem with hin | hin
    · have hnot := hbody 35 hin
      revert hnot
      unfold InAlphabet
      decide
    · rw [mem_replicate] at hin
      exact absurd hin.2 (by decide)

end MicroFramework.Text
