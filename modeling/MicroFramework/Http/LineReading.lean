import MicroFramework.Http.Unread
import MicroFramework.Unicode.Decoding

/-!
# Which lines are read as they were sent

However the bytes are cut into segments, a line is read as it was sent exactly if it has no NUL and no
CR in it, and ends in CR LF (where the maximum is not the length of the line with its terminator), or
is empty.  A line that ends in LF alone loses its last character.
-/

namespace MicroFramework.Http

open Unicode InputNetworkStreamWrapper List

/-! ## Decoding -/

def asciiText (bytes : List UInt8) : List UInt16 := bytes.map UInt8.toUInt16

section Decoding

variable {bytes : List UInt8}

/-- ASCII bytes are converted one by one, up to the first zero. -/
theorem loop_ascii (rest : List UInt8) (hascii : ∀ b ∈ bytes, b.toNat < 0x80) :
    ∀ st : FromUTF8, st.inputUTF8 = bytes ++ rest → st.iMaxChars = bytes.length →
      st.iMaxBytes = bytes.length → st.outputUTF16_size = bytes.length →
        ∃ flag st', FromUTF8.loop false bytes.length st = some (flag, st') ∧
          st'.outputUTF16 = st.outputUTF16 ++ asciiText (bytes.takeWhile (· ≠ 0)) := by
  induction bytes with
  | nil =>
    intro st _ _ _ _
    exact ⟨true, st, rfl, (append_nil _).symm⟩
  | cons b bytes ih =>
    intro st hinput hchars hmax hsize
    have hb := hascii b mem_cons_self
    have htail : ∀ b ∈ bytes, b.toNat < 0x80 := fun b hb ↦ hascii b (mem_cons_of_mem _ hb)
    have hgo : st.iMaxChars > 0 ∧ st.iMaxBytes > 0 := by
      rw [hchars, hmax, length_cons]
      omega
    rw [length_cons, FromUTF8.loop, if_pos hgo, FromUTF8.body, hinput]
    simp only [cons_append, lead_single hb]
    by_cases hzero : b = 0
    · rw [if_pos (by rw [hzero]; rfl)]
      refine ⟨false, st, rfl, ?_⟩
      rw [hzero]
      simp [asciiText]
    · have hne : b.toNat ≠ 0 := fun h ↦ hzero (UInt8.toNat_inj.mp h)
      have hroom : ¬ st.outputUTF16_size < 1 := by
        rw [hsize, length_cons]
        omega
      rw [if_neg hne, if_neg (by decide), if_neg hroom]
      simp only
      have hunit : UInt16.ofNat b.toNat = b.toUInt16 := by
        apply UInt16.toNat_inj.mp
        simp
      rw [length_cons] at hchars hmax hsize
      obtain ⟨flag, st', hloop, houtput⟩ := ih htail
        ⟨bytes ++ rest, st.outputUTF16 ++ [UInt16.ofNat b.toNat], st.outputUTF16_size - 1,
          st.iMaxChars - 1, st.iMaxBytes - 1⟩ rfl (by simp only; omega) (by simp only; omega)
        (by simp only; omega)
      refine ⟨flag, st', hloop, ?_⟩
      rw [houtput, hunit]
      simp [asciiText, hzero]

/-- What stands in a buffer of zeros is a string up to the conversion's output. -/
theorem takeWhile_written {conversion : Conversion UInt8 UInt16} {size : ℕ}
    (hplain : ∀ unit ∈ conversion.output, unit ≠ 0) :
    (conversion.written (replicate size 0)).takeWhile (fun unit ↦ unit ≠ 0) =
      conversion.output := by
  have hzeros : ∀ n, (replicate n (0 : UInt16)).takeWhile (fun unit ↦ unit ≠ 0) = [] := by
    intro n
    cases n with
    | zero | succ n => rfl
  have houtput : ∀ unit ∈ conversion.output, decide (unit ≠ 0) = true := by
    intro unit hunit
    exact decide_eq_true (hplain unit hunit)
  rw [Conversion.written]
  simp only [drop_replicate]
  rw [append_assoc, takeWhile_append_of_pos houtput]
  split
  · exact append_nil _
  · rw [nil_append, hzeros, append_nil]

theorem decodeString_ascii (rest : List UInt8) (hascii : ∀ b ∈ bytes, b.toNat < 0x80) :
    decodeString (bytes ++ rest) bytes.length = asciiText (bytes.takeWhile (· ≠ 0)) := by
  have hmax : maxBytes bytes.length bytes.length = bytes.length := by
    rw [maxBytes, if_neg (by omega)]
  obtain ⟨flag, st', hloop, houtput⟩ := loop_ascii rest hascii
    ⟨bytes ++ rest, [], bytes.length, bytes.length, bytes.length⟩ rfl rfl rfl rfl
  have hplain : ∀ unit ∈ asciiText (bytes.takeWhile (· ≠ 0)), unit ≠ 0 := by
    intro unit hunit
    obtain ⟨b, hb, rfl⟩ := mem_map.mp hunit
    have hne := mem_takeWhile_imp hb
    intro hzero
    apply of_decide_eq_true hne
    apply UInt8.toNat_inj.mp
    exact congrArg UInt16.toNat hzero
  change st'.outputUTF16 = asciiText (bytes.takeWhile (· ≠ 0)) at houtput
  rw [decodeString, convertFromUTF8, hmax, Int.toNat_natCast, hloop]
  rw [← houtput] at hplain ⊢
  cases flag with
  | true =>
    have hsame : (conclude false st'.inputUTF8 st'.outputUTF16 st'.outputUTF16_size).output =
        st'.outputUTF16 := by
      rw [conclude, if_neg (by decide)]
      split <;> rfl
    simp only
    rw [takeWhile_written (by rw [hsame]; exact hplain), hsame]
  | false =>
    simp only
    exact takeWhile_written hplain

end Decoding

/-! ## Reading a line -/

namespace LineReader

variable {r : LineReader} {maxLineLength : ℤ} {line pre rest : List UInt8} {b : UInt8}

theorem nextByte_cons (h : r.unread = b :: rest) :
    ∃ r', r.nextByte = (some b, r') ∧ r'.unread = rest ∧ r'.lineBufLength = r.lineBufLength := by
  obtain ⟨w', hread, hrest, -⟩ := readByte_cons h
  refine ⟨{ r with toInputNetworkStreamWrapper := w' }, ?_, hrest, rfl⟩
  rw [nextByte, hread]

/-- There is room for a byte, or the line buffer is doubled first. -/
theorem readLineLoop_makeRoom (turns : ℕ) (hmax : (line.length : ℤ) < maxLineLength)
    (hroom : line.length < r.lineBufLength) :
    ∃ turns' r', turns ≤ turns' ∧ r'.unread = r.unread ∧ line.length + 1 < r'.lineBufLength ∧
      readLineLoop maxLineLength (turns + 2) line r =
        readLineLoop maxLineLength (turns' + 1) line r' := by
  by_cases hfree : line.length + 1 < r.lineBufLength
  · exact ⟨turns + 1, r, Nat.le_succ _, rfl, hfree, rfl⟩
  · refine ⟨turns, { r with lineBufLength := r.lineBufLength * 2 }, le_refl _, rfl, ?_, ?_⟩
    · show line.length + 1 < r.lineBufLength * 2
      omega
    · rw [readLineLoop, if_neg (by omega), if_neg (by omega)]

section

variable (hplain : ∀ b ∈ pre, b ≠ 13 ∧ b ≠ 10)

include hplain

/-- Bytes that end no line are stored one after the other. -/
theorem readLineLoop_plain (rest : List UInt8) :
    ∀ (turns : ℕ) (line : List UInt8) (r : LineReader), r.unread = pre ++ rest →
      ((line ++ pre).length : ℤ) ≤ maxLineLength → line.length < r.lineBufLength →
        ∃ turns' r', turns ≤ turns' ∧ r'.unread = rest ∧
          (line ++ pre).length < r'.lineBufLength ∧
          readLineLoop maxLineLength (turns + 2 * pre.length) line r =
            readLineLoop maxLineLength turns' (line ++ pre) r' := by
  induction pre with
  | nil =>
    intro turns line r hunread _ hroom
    rw [append_nil]
    exact ⟨turns, r, le_refl _, hunread, hroom, rfl⟩
  | cons b pre ih =>
    intro turns line r hunread hmax hroom
    obtain ⟨hcr, hlf⟩ := hplain b mem_cons_self
    rw [length_append, length_cons] at hmax
    obtain ⟨turns₁, r₁, hturns₁, hunread₁, hroom₁, hloop₁⟩ := readLineLoop_makeRoom
      (turns + 2 * pre.length) (by omega : (line.length : ℤ) < maxLineLength) hroom
    obtain ⟨r₂, hnext, hunread₂, hlength₂⟩ := nextByte_cons (hunread₁.trans hunread)
    have hread : readLineLoop maxLineLength (turns₁ + 1) line r₁ =
        readLineLoop maxLineLength turns₁ (line ++ [b]) r₂ := by
      rw [readLineLoop, if_pos (by omega), hnext]
      simp only
      rw [if_neg hcr, if_neg hlf]
    obtain ⟨k, rfl⟩ := Nat.exists_eq_add_of_le hturns₁
    obtain ⟨turns', r', hturns', hunread', hroom', hloop'⟩ :=
      ih (fun b hb ↦ hplain b (mem_cons_of_mem _ hb)) (turns + k) (line ++ [b]) r₂ hunread₂
        (by simp only [length_append, length_singleton]; omega)
        (by rw [length_append, length_singleton, hlength₂]; exact hroom₁)
    rw [append_assoc, singleton_append] at hroom' hloop'
    refine ⟨turns', r', by omega, hunread', hroom', ?_⟩
    calc readLineLoop maxLineLength (turns + 2 * (pre.length + 1)) line r
        = readLineLoop maxLineLength (turns + 2 * pre.length + k + 1) line r₁ := hloop₁
      _ = readLineLoop maxLineLength (turns + 2 * pre.length + k) (line ++ [b]) r₂ := hread
      _ = readLineLoop maxLineLength (turns + k + 2 * pre.length) (line ++ [b]) r₂ := by
        rw [Nat.add_right_comm]
      _ = readLineLoop maxLineLength turns' (line ++ b :: pre) r' := hloop'

/-- The bytes up to the end of the line, or as many as fit. -/
theorem readHttpLine_plain
    (hunread : r.unread = pre ++ rest) (hmax : (pre.length : ℤ) ≤ maxLineLength)
    (hroom : 0 < r.lineBufLength) :
    ∃ turns r', r'.unread = rest ∧ pre.length < r'.lineBufLength ∧
      r.readHttpLine maxLineLength = readLineLoop maxLineLength (turns + 2) pre r' := by
  have hturns : 2 * (r.unread.length + 2) = 2 * rest.length + 4 + 2 * pre.length := by
    rw [hunread, length_append]
    omega
  obtain ⟨turns', r', hle, hunread', hroom', hloop⟩ :=
    readLineLoop_plain hplain rest (2 * rest.length + 4) [] r hunread hmax hroom
  obtain ⟨k, rfl⟩ := Nat.exists_eq_add_of_le hle
  refine ⟨2 * rest.length + 2 + k, r', hunread', hroom', ?_⟩
  rw [readHttpLine, hturns, hloop, nil_append]
  congr 1
  omega

/-- A line that ends in CR and any other byte. -/
theorem readHttpLine_cr
    (hunread : r.unread = pre ++ 13 :: b :: rest) (hmax : (pre.length : ℤ) < maxLineLength)
    (hroom : 0 < r.lineBufLength) :
    ∃ r', r'.unread = rest ∧ 0 < r'.lineBufLength ∧
      r.readHttpLine maxLineLength = finishLine maxLineLength (pre ++ [13, b]) r' := by
  obtain ⟨turns, r₁, hunread₁, hroom₁, hloop₁⟩ := readHttpLine_plain hplain hunread hmax.le hroom
  obtain ⟨turns', r₂, -, hunread₂, hroom₂, hloop₂⟩ := readLineLoop_makeRoom turns hmax hroom₁
  obtain ⟨r₃, hcr, hunread₃, hlength₃⟩ := nextByte_cons (hunread₂.trans hunread₁)
  obtain ⟨r₄, hnext, hunread₄, hlength₄⟩ := nextByte_cons hunread₃
  refine ⟨r₄, hunread₄, by omega, ?_⟩
  rw [hloop₁, hloop₂, readLineLoop, if_pos (by omega), hcr]
  simp only
  rw [if_pos trivial, hnext]

theorem readHttpLine_lf
    (hunread : r.unread = pre ++ 10 :: rest) (hmax : (pre.length : ℤ) < maxLineLength)
    (hroom : 0 < r.lineBufLength) :
    ∃ r', r'.unread = rest ∧ 0 < r'.lineBufLength ∧
      r.readHttpLine maxLineLength = finishLine maxLineLength (pre ++ [10]) r' := by
  obtain ⟨turns, r₁, hunread₁, hroom₁, hloop₁⟩ := readHttpLine_plain hplain hunread hmax.le hroom
  obtain ⟨turns', r₂, -, hunread₂, hroom₂, hloop₂⟩ := readLineLoop_makeRoom turns hmax hroom₁
  obtain ⟨r₃, hlf, hunread₃, hlength₃⟩ := nextByte_cons (hunread₂.trans hunread₁)
  refine ⟨r₃, hunread₃, by omega, ?_⟩
  rw [hloop₁, hloop₂, readLineLoop, if_pos (by omega), hlf]
  simp only
  rw [if_neg (by decide), if_pos trivial]

theorem readHttpLine_long
    (hunread : r.unread = pre ++ rest) (hmax : (pre.length : ℤ) = maxLineLength)
    (hroom : 0 < r.lineBufLength) :
    ∃ r', r.readHttpLine maxLineLength = (.error (.web "Line too long"), r') := by
  obtain ⟨turns, r₁, -, -, hloop₁⟩ := readHttpLine_plain hplain hunread hmax.le hroom
  refine ⟨r₁, ?_⟩
  rw [hloop₁, readLineLoop, if_neg (by omega), if_pos hmax]

end

theorem peekByte_cons (h : r.unread = b :: rest) :
    ∃ r', r.peekByte = (.ok b, r') ∧ r'.unread = b :: rest ∧ r'.lineBufLength = r.lineBufLength := by
  by_cases hbuffered : r.buffered = []
  · have hflatten : r.stream.flatten = b :: rest := by
      rw [unread, hbuffered] at h
      exact h
    have hunread := (@refill_unread r.toInputNetworkStreamWrapper).trans hflatten
    cases hrefill : r.refillInternalBuffer.buffered with
    | nil =>
      rw [refill_eq_nil, hflatten] at hrefill
      cases hrefill
    | cons b' buffered =>
      have hhead := hunread
      rw [unread, hrefill, cons_append, List.cons.injEq] at hhead
      refine ⟨{ r with toInputNetworkStreamWrapper := r.refillInternalBuffer }, ?_, hunread, rfl⟩
      rw [peekByte, if_pos hbuffered]
      simp only [hrefill, hhead.1]
  · obtain ⟨b', buffered, hcons⟩ := exists_cons_of_ne_nil hbuffered
    have hhead := h
    rw [unread, hcons, cons_append, List.cons.injEq] at hhead
    refine ⟨r, ?_, h, rfl⟩
    rw [peekByte, if_neg hbuffered]
    simp only [hcons, hhead.1]

theorem peekByte_nil (h : r.unread = []) : ∃ r', r.peekByte = (.error .socket, r') := by
  obtain ⟨hbuffered, hflatten⟩ := append_eq_nil_iff.mp h
  have hrefill := refill_eq_nil.mpr hflatten
  refine ⟨{ r with toInputNetworkStreamWrapper := r.refillInternalBuffer }, ?_⟩
  rw [peekByte, if_pos hbuffered]
  simp only [hrefill]

end LineReader

/-! ## Lines -/

/-- A line as it was sent: its text, and whether it ends in CR LF or in LF alone. -/
structure Line where
  content : List UInt8
  crlf : Bool
deriving DecidableEq

namespace Line

variable (line : Line) (maxLineLength : ℤ)

def bytes : List UInt8 := line.content ++ if line.crlf then [13, 10] else [10]

/-- The text is ASCII without LF, and a CR before the LF belongs to the terminator. -/
structure Proper : Prop where
  ascii : ∀ b ∈ line.content, b.toNat < 0x80
  noLf : ∀ b ∈ line.content, b ≠ 10
  terminator : line.crlf = false → line.content.getLast? ≠ some 13

structure Intact : Prop where
  plain : ∀ b ∈ line.content, b ≠ 0 ∧ b ≠ 13
  fits : (line.content.length : ℤ) < maxLineLength
  terminated : line.crlf = true ∧ maxLineLength ≠ line.content.length + 2 ∨
    line.crlf = false ∧ line.content = [] ∧ maxLineLength ≠ 1

end Line

def lineBytes (lines : List Line) : List UInt8 := lines.flatMap Line.bytes

def textLength (lines : List Line) : ℕ := (lines.map fun line ↦ line.content.length).sum

section Lines

variable {line : Line} {maxLineLength : ℤ} {r : LineReader} {rest : List UInt8}

/-- Behind the first CR of a text and the byte after it there is a shorter line. -/
theorem Line.Proper.split (h : line.Proper) (hcr : 13 ∈ line.content) :
    ∃ (pre : List UInt8) (b : UInt8) (left : Line),
      (∀ b ∈ pre, b.toNat < 0x80 ∧ b ≠ 13 ∧ b ≠ 10) ∧ left.Proper ∧
        line.bytes = pre ++ 13 :: b :: left.bytes ∧
        pre.length + left.content.length < line.content.length := by
  obtain ⟨pre, post, hcontent, hpre⟩ := eq_append_cons_of_mem hcr
  have hplain : ∀ b ∈ pre, b.toNat < 0x80 ∧ b ≠ 13 ∧ b ≠ 10 := by
    intro b hb
    have hmem : b ∈ line.content := by
      rw [hcontent]
      exact mem_append_left _ hb
    refine ⟨h.ascii b hmem, ?_, h.noLf b hmem⟩
    rintro rfl
    exact hpre hb
  have hlength : line.content.length = pre.length + post.length + 1 := by
    rw [hcontent, length_append, length_cons]
    rfl
  cases post with
  | nil =>
    have hcrlf : line.crlf = true := by
      by_contra hlf
      apply h.terminator (eq_false_of_ne_true hlf)
      rw [hcontent, getLast?_concat]
    refine ⟨pre, 13, ⟨[], false⟩, hplain, ⟨?_, ?_, ?_⟩, ?_, ?_⟩
    · intro b hb
      cases hb
    · intro b hb
      cases hb
    · intro _ hlast
      cases hlast
    · rw [Line.bytes, hcontent, if_pos hcrlf, append_assoc]
      rfl
    · show pre.length + 0 < _
      omega
  | cons b post =>
    have hmem : ∀ c ∈ post, c ∈ line.content := by
      intro c hc
      rw [hcontent]
      exact mem_append_right _ (mem_cons_of_mem _ (mem_cons_of_mem _ hc))
    refine ⟨pre, b, ⟨post, line.crlf⟩, hplain, ⟨?_, ?_, ?_⟩, ?_, ?_⟩
    · exact fun c hc ↦ h.ascii c (hmem c hc)
    · exact fun c hc ↦ h.noLf c (hmem c hc)
    · intro hlf hlast
      apply h.terminator hlf
      obtain ⟨post', hpost⟩ := getLast?_eq_some_iff.mp hlast
      change post = post' ++ [13] at hpost
      rw [hcontent, hpost]
      have hregroup : pre ++ 13 :: b :: (post' ++ [13]) = (pre ++ 13 :: b :: post') ++ [13] := by
        rw [append_assoc]
        rfl
      rw [hregroup, getLast?_concat]
    · rw [Line.bytes, Line.bytes, hcontent, append_assoc]
      rfl
    · show pre.length + post.length < _
      rw [length_cons] at hlength
      omega

/-- What a call does with the next line: it returns its text, or throws, or returns less and leaves
shorter lines. -/
inductive Outcome (line : Line) (maxLineLength : ℤ) (rest : List UInt8) :
    Except LineException (List UInt16) × LineReader → Prop
  | intact {r' : LineReader} : line.Intact maxLineLength → r'.unread = rest →
      0 < r'.lineBufLength → Outcome line maxLineLength rest (.ok (asciiText line.content), r')
  | thrown {e : LineException} {r' : LineReader} : ¬ line.Intact maxLineLength →
      Outcome line maxLineLength rest (.error e, r')
  | cut {strLine : List UInt16} {r' : LineReader} (left : List Line) :
      ¬ line.Intact maxLineLength → (∀ line ∈ left, line.Proper) →
        r'.unread = lineBytes left ++ rest → 0 < r'.lineBufLength →
        strLine.length + textLength left < line.content.length →
        Outcome line maxLineLength rest (.ok strLine, r')

theorem length_asciiText_takeWhile (bytes : List UInt8) :
    (asciiText (bytes.takeWhile (· ≠ 0))).length ≤ bytes.length := by
  rw [asciiText, length_map]
  exact (takeWhile_sublist _).length_le

theorem length_asciiText_lt {bytes : List UInt8} (h : 0 ∈ bytes) :
    (asciiText (bytes.takeWhile (· ≠ 0))).length < bytes.length := by
  rw [asciiText, length_map]
  apply lt_of_le_of_ne (takeWhile_sublist _).length_le
  intro hlength
  have hall := (takeWhile_sublist fun b : UInt8 ↦ decide (b ≠ 0)).eq_of_length hlength
  rw [takeWhile_eq_self_iff] at hall
  exact absurd (hall 0 h) (by decide)

/-- The text of a line that was stored with its terminator. -/
theorem finishLine_decoded {content last : List UInt8} (hascii : ∀ b ∈ content, b.toNat < 0x80)
    (hlast : last.length = 2) :
    LineReader.finishLine maxLineLength (content ++ last) r =
      if (content.length : ℤ) + 2 = maxLineLength then (.error (.web "Line too long"), r)
      else (.ok (asciiText (content.takeWhile (· ≠ 0))), r) := by
  have hlength : (content ++ last).length = content.length + 2 := by rw [length_append, hlast]
  rw [LineReader.finishLine, hlength]
  push_cast
  split
  · rfl
  · split
    · rw [decodeString_ascii last hascii]
    · have hnil : content = [] := length_eq_zero_iff.mp (by omega)
      rw [hnil]
      rfl

theorem readHttpLine_tooLong {pre : List UInt8} (hmax : 0 < maxLineLength)
    (hplain : ∀ b ∈ pre, b.toNat < 0x80 ∧ b ≠ 13 ∧ b ≠ 10) (hroom : 0 < r.lineBufLength)
    (hunread : r.unread = pre ++ rest) (hlong : maxLineLength ≤ pre.length) :
    ∃ e r', r.readHttpLine maxLineLength = (.error e, r') := by
  have htake : r.unread = pre.take maxLineLength.toNat ++ (pre.drop maxLineLength.toNat ++ rest) := by
    rw [← append_assoc, take_append_drop]
    exact hunread
  have hlength : ((pre.take maxLineLength.toNat).length : ℤ) = maxLineLength := by
    rw [length_take]
    omega
  obtain ⟨r', hread⟩ := LineReader.readHttpLine_long
    (fun b hb ↦ (hplain b (mem_of_mem_take hb)).2) htake hlength hroom
  exact ⟨_, r', hread⟩

theorem outcome_of_cr (h : line.Proper) (hmax : 0 < maxLineLength) (hroom : 0 < r.lineBufLength)
    (hunread : r.unread = line.bytes ++ rest) (hcr : 13 ∈ line.content) :
    Outcome line maxLineLength rest (r.readHttpLine maxLineLength) := by
  have hcut : ¬ line.Intact maxLineLength := fun hintact ↦ (hintact.plain 13 hcr).2 rfl
  obtain ⟨pre, b, left, hplain, hleft, hbytes, hlength⟩ := h.split hcr
  rw [hbytes, append_assoc] at hunread
  by_cases hlong : maxLineLength ≤ pre.length
  · obtain ⟨e, r', hread⟩ := readHttpLine_tooLong hmax hplain hroom hunread hlong
    rw [hread]
    exact .thrown hcut
  · obtain ⟨r', hrest, hroom', hread⟩ := LineReader.readHttpLine_cr
      (fun b hb ↦ (hplain b hb).2) hunread (not_le.mp hlong) hroom
    rw [hread, finishLine_decoded (fun b hb ↦ (hplain b hb).1) rfl]
    split
    · exact .thrown hcut
    · apply Outcome.cut [left] hcut
      · intro other hother
        rw [mem_singleton.mp hother]
        exact hleft
      · rw [hrest, lineBytes, flatMap_singleton]
        rfl
      · exact hroom'
      · have hle := length_asciiText_takeWhile pre
        show _ + (left.content.length + 0) < _
        omega

/-- A line without CR in its text is read up to its terminator. -/
theorem outcome_of_plain (h : line.Proper) (hmax : 0 < maxLineLength) (hroom : 0 < r.lineBufLength)
    (hunread : r.unread = line.bytes ++ rest) (hcr : 13 ∉ line.content) :
    Outcome line maxLineLength rest (r.readHttpLine maxLineLength) := by
  have hplain : ∀ b ∈ line.content, b.toNat < 0x80 ∧ b ≠ 13 ∧ b ≠ 10 := by
    intro b hb
    refine ⟨h.ascii b hb, ?_, h.noLf b hb⟩
    rintro rfl
    exact hcr hb
  rw [Line.bytes, append_assoc] at hunread
  by_cases hlong : maxLineLength ≤ line.content.length
  · obtain ⟨e, r', hread⟩ := readHttpLine_tooLong hmax hplain hroom hunread hlong
    rw [hread]
    exact .thrown fun hintact ↦ absurd hintact.fits (not_lt.mpr hlong)
  have hfits : (line.content.length : ℤ) < maxLineLength := by omega
  cases hterminator : line.crlf with
  | true =>
    rw [hterminator] at hunread
    obtain ⟨r', hrest, hroom', hread⟩ := LineReader.readHttpLine_cr
      (fun b hb ↦ (hplain b hb).2) hunread hfits hroom
    rw [hread, finishLine_decoded (fun b hb ↦ (hplain b hb).1) rfl]
    by_cases hexact : (line.content.length : ℤ) + 2 = maxLineLength
    · rw [if_pos hexact]
      apply Outcome.thrown
      intro hintact
      rcases hintact.terminated with ⟨-, hne⟩ | ⟨hlf, -⟩
      · exact hne hexact.symm
      · rw [hterminator] at hlf
        cases hlf
    · rw [if_neg hexact]
      by_cases hzero : 0 ∈ line.content
      · apply Outcome.cut [] (fun hintact ↦ (hintact.plain 0 hzero).1 rfl)
        · intro other hother
          cases hother
        · exact hrest
        · exact hroom'
        · exact length_asciiText_lt hzero
      · have hall : line.content.takeWhile (· ≠ 0) = line.content := by
          rw [takeWhile_eq_self_iff]
          intro b hb
          apply decide_eq_true
          rintro rfl
          exact hzero hb
        rw [hall]
        refine .intact ⟨?_, hfits, .inl ⟨hterminator, fun heq ↦ hexact heq.symm⟩⟩ hrest hroom'
        intro b hb
        refine ⟨?_, (hplain b hb).2.1⟩
        rintro rfl
        exact hzero hb
  | false =>
    rw [hterminator] at hunread
    obtain ⟨r', hrest, hroom', hread⟩ := LineReader.readHttpLine_lf
      (fun b hb ↦ (hplain b hb).2) hunread hfits hroom
    rw [hread]
    rcases eq_nil_or_concat line.content with hnil | ⟨init, last, hcontent⟩
    · rw [hnil, nil_append, LineReader.finishLine]
      by_cases hone : maxLineLength = 1
      · rw [if_pos (by rw [hone]; rfl)]
        apply Outcome.thrown
        intro hintact
        rcases hintact.terminated with ⟨hcrlf, -⟩ | ⟨-, -, hne⟩
        · rw [hterminator] at hcrlf
          cases hcrlf
        · exact hne hone
      · rw [if_neg (fun heq ↦ hone heq.symm), if_neg (by decide)]
        have htext : asciiText line.content = [] := by
          rw [hnil]
          rfl
        rw [← htext]
        refine .intact ⟨?_, hfits, .inr ⟨hterminator, hnil, hone⟩⟩ hrest hroom'
        rw [hnil]
        intro b hb
        cases hb
    · rw [concat_eq_append] at hcontent
      have hcut : ¬ line.Intact maxLineLength := by
        intro hintact
        rcases hintact.terminated with ⟨hcrlf, -⟩ | ⟨-, hnil, -⟩
        · rw [hterminator] at hcrlf
          cases hcrlf
        · rw [hcontent] at hnil
          exact append_ne_nil_of_right_ne_nil _ (cons_ne_nil _ _) hnil
      have hinit : ∀ b ∈ init, b.toNat < 0x80 := by
        intro b hb
        apply h.ascii
        rw [hcontent]
        exact mem_append_left _ hb
      have hstored : line.content ++ [10] = init ++ [last, 10] := by
        rw [hcontent, append_assoc]
        rfl
      rw [hstored, finishLine_decoded hinit rfl]
      split
      · exact .thrown hcut
      · apply Outcome.cut [] hcut
        · intro other hother
          cases hother
        · exact hrest
        · exact hroom'
        · have hle := length_asciiText_takeWhile init
          rw [hcontent, length_append]
          exact Nat.lt_succ_of_le hle

theorem readHttpLine_outcome (h : line.Proper) (hmax : 0 < maxLineLength)
    (hroom : 0 < r.lineBufLength) (hunread : r.unread = line.bytes ++ rest) :
    Outcome line maxLineLength rest (r.readHttpLine maxLineLength) := by
  by_cases hcr : 13 ∈ line.content
  · exact outcome_of_cr h hmax hroom hunread hcr
  · exact outcome_of_plain h hmax hroom hunread hcr

end Lines

end MicroFramework.Http
