import MicroFramework.Http.Unread

/-!
# Chunked messages and their headers

The encoding of a body as chunks, and what `GetChunk` makes of the header of a chunk.  It takes the
headers whose size has at most eight digits and that have at most one extension, with a value; from
any other header it throws.
-/

namespace MicroFramework.Http

open ChunkParser List Option

/-- The number that hexadecimal digits of either case stand for. -/
def hexValue (text : List UInt8) : ℕ :=
  text.foldl (fun value c ↦ value * 16 + (hexDigit (toUpper c)).getD 0) 0

/-- Not one of the four bytes that `GetChunk` looks for. -/
def Plain (b : UInt8) : Prop := b ≠ 13 ∧ b ≠ 10 ∧ b ≠ 59 ∧ b ≠ 61

instance (b : UInt8) : Decidable (Plain b) := inferInstanceAs (Decidable (_ ∧ _))

/-- A chunk extension: a name and, it may be, a value, a token or a quoted string. -/
structure Extension where
  name : List UInt8
  value : Option (List UInt8)
  name_plain : ∀ b ∈ name, Plain b
  value_line : ∀ text ∈ value, ∀ b ∈ text, b ≠ 13 ∧ b ≠ 10

/-- A chunk: its size in hexadecimal digits, its extensions, its bytes. -/
structure MessageChunk where
  sizeText : List UInt8
  extensions : List Extension
  data : List UInt8
  sizeText_ne_nil : sizeText ≠ []
  sizeText_digits : ∀ c ∈ sizeText, (hexDigit (toUpper c)).isSome
  sizeText_value : hexValue sizeText = data.length

def crlf : List UInt8 := [13, 10]

def Extension.encode (e : Extension) : List UInt8 :=
  59 :: e.name ++ (e.value.map fun text ↦ 61 :: text).getD []

/-- The line before the bytes of the chunk. -/
def MessageChunk.header (c : MessageChunk) : List UInt8 :=
  c.sizeText ++ c.extensions.flatMap Extension.encode ++ crlf

/-- The chunks of a body, then the last chunk, which is empty, and the rest of the message. -/
def encodeChunks (chunks : List MessageChunk) (last : MessageChunk) (after : List UInt8) :
    List UInt8 :=
  chunks.flatMap (fun c ↦ c.header ++ c.data ++ crlf) ++ last.header ++ after

/-- The headers that `GetChunk` takes. -/
def MessageChunk.Taken (c : MessageChunk) : Prop :=
  c.sizeText.length ≤ 8 ∧
    (c.extensions = [] ∨ ∃ e text, c.extensions = [e] ∧ e.value = some text ∧
      e.name.length ≤ 1024 ∧ text.length ≤ 1024 ∧ ∀ b ∈ text, Plain b)

section Convert

variable {text : List UInt8} {c : UInt8}

theorem digit_cases (h : (hexDigit (toUpper c)).isSome) :
    Plain c ∧ c ≠ 32 ∧ toUpper c ≠ 88 ∧ (hexDigit (toUpper c)).getD 0 < 16 := by
  have hall : ∀ n < 256, (hexDigit (toUpper (UInt8.ofNat n))).isSome →
      Plain (UInt8.ofNat n) ∧ UInt8.ofNat n ≠ 32 ∧ toUpper (UInt8.ofNat n) ≠ 88 ∧
        (hexDigit (toUpper (UInt8.ofNat n))).getD 0 < 16 := by
    set_option maxRecDepth 4000 in decide
  have hc := hall c.toNat c.toNat_lt
  rw [UInt8.ofNat_toNat] at hc
  exact hc h

/-- The digits of a size are taken for what they stand for, as long as 32 bits hold it. -/
theorem toInt32Loop_eq {k value : ℕ} (hdigits : ∀ c ∈ text, (hexDigit (toUpper c)).isSome)
    (hvalue : value < 16 ^ k) (hlength : k + text.length ≤ 8) :
    toInt32Loop value (text.map toUpper) =
      .ok (text.foldl (fun value c ↦ value * 16 + (hexDigit (toUpper c)).getD 0) value) := by
  induction text generalizing k value with
  | nil => rfl
  | cons c text ih =>
    have hc := hdigits c mem_cons_self
    have hlt := (digit_cases hc).2.2.2
    obtain ⟨digit, hdigit⟩ := isSome_iff_exists.mp hc
    rw [hdigit, getD_some] at hlt
    have hpow : 16 ^ (k + 1) ≤ 2 ^ 32 := by
      have hle : 16 ^ (k + 1) ≤ 16 ^ 8 :=
        Nat.pow_le_pow_right (by decide) (by simp only [length_cons] at hlength; omega)
      exact Nat.le_trans hle (by decide)
    have hnext : value * 16 + digit < 16 ^ (k + 1) := by
      rw [Nat.pow_succ]
      omega
    simp only [map_cons, toInt32Loop, hdigit, foldl_cons, getD_some]
    rw [Nat.mod_eq_of_lt (Nat.lt_of_lt_of_le hnext hpow)]
    refine ih (fun d hd ↦ hdigits d (mem_cons_of_mem c hd)) hnext ?_
    simp only [length_cons] at hlength
    omega

theorem trim_eq (h : ∀ c ∈ text, c ≠ 32) : trim text = text := by
  have hdrop : ∀ text : List UInt8, (∀ c ∈ text, c ≠ 32) →
      text.dropWhile (fun c ↦ c == 32) = text := by
    intro text h
    cases text with
    | nil => rfl
    | cons c text => exact dropWhile_cons_of_neg (by simpa using h c mem_cons_self)
  rw [trim, hdrop text h, List.rdropWhile, hdrop text.reverse (by simpa using h),
    reverse_reverse]

/-- The size of a chunk is read from at most eight digits. -/
theorem toInt32_digits (hdigits : ∀ c ∈ text, (hexDigit (toUpper c)).isSome) :
    toInt32 text = if text.length ≤ 8 then .ok (hexValue text) else .error .argument := by
  have htrim : trim text = text := trim_eq fun c hc ↦ (digit_cases (hdigits c hc)).2.1
  have hsentinel : (text.map toUpper).take 2 ≠ [48, 88] := by
    intro heq
    have hmem : (88 : UInt8) ∈ (text.map toUpper).take 2 := by rw [heq]; decide
    obtain ⟨c, hc, h88⟩ := mem_map.mp (mem_of_mem_take hmem)
    exact (digit_cases (hdigits c hc)).2.2.1 h88
  simp only [toInt32, htrim, if_neg hsentinel, length_map]
  by_cases hle : text.length ≤ 8
  · rw [if_neg (by omega), if_pos hle]
    exact toInt32Loop_eq (k := 0) hdigits (by decide) (by omega)
  · rw [if_pos (by omega), if_neg hle]

end Convert

section Parse

/-- `GetChunk` on a string of bytes. -/
def parse : ChunkParser → List UInt8 → Except Exception Chunk × List UInt8
  | _, [] => (.error .connectionAborted, [])
  | p, byte :: bytes =>
    match p.step byte with
    | .error e => (.error e, bytes)
    | .ok p => if p.parsing then parse p bytes else (.ok ⟨p.nextChunkSize, 0⟩, bytes)

open InputNetworkStreamWrapper in
/-- The bytes of a header are parsed alike wherever the buffer and the segments are cut. -/
theorem getChunkLoop_eq {turns : ℕ} {p : ChunkParser} {w : InputNetworkStreamWrapper}
    (hturns : w.unread.length < turns) :
    ∃ w', getChunkLoop turns p w = ((parse p w.unread).1, w') ∧
      w'.unread = (parse p w.unread).2 ∧ SameMode w w' := by
  induction turns generalizing p w with
  | zero => omega
  | succ turns ih =>
    cases hunread : w.unread with
    | nil =>
      obtain ⟨w', hread, hrest, hmode⟩ := readByte_nil hunread
      refine ⟨w', ?_, hrest, hmode⟩
      rw [getChunkLoop, hread]
      rfl
    | cons byte bytes =>
      obtain ⟨w', hread, hrest, hmode⟩ := readByte_cons hunread
      rw [getChunkLoop, hread]
      simp only [parse]
      cases hstep : p.step byte with
      | error e => exact ⟨w', rfl, hrest, hmode⟩
      | ok p' =>
        simp only
        split_ifs
        · rw [hunread, length_cons] at hturns
          obtain ⟨w'', hloop, hrest', hmode'⟩ := @ih p' w' (by rw [hrest]; omega)
          rw [hrest] at hloop hrest'
          exact ⟨w'', hloop, hrest', hmode.trans hmode'⟩
        · exact ⟨w', rfl, hrest, hmode⟩

variable {p : ChunkParser} {bytes rest : List UInt8} {size : ℕ} {buffer : List UInt8}
  {state : ChunkState}

def Throws (p : ChunkParser) (bytes : List UInt8) : Prop := ∃ e, (parse p bytes).1 = .error e

variable {byte : UInt8}

theorem throws_of_step {e : Exception} (h : p.step byte = .error e) :
    Throws p (byte :: rest) := ⟨e, by rw [parse, h]⟩

theorem parse_of_step {p' : ChunkParser} (h : p.step byte = .ok p')
    (hparsing : p'.parsing = true) : parse p (byte :: rest) = parse p' rest := by
  simp only [parse, h, hparsing, if_true]

theorem step_plain (hbyte : Plain byte) (hlf : p.state ≠ .lf) (hinitial : p.state ≠ .initialLF) :
    p.step byte = if 1024 ≤ p.buffer.length then .error .indexOutOfRange
      else .ok { p with buffer := p.buffer ++ [byte] } := by
  obtain ⟨hcr, hlf', hsemicolon, hequals⟩ := hbyte
  simp only [step, if_neg hcr, if_neg hlf', if_neg hsemicolon, if_neg hequals,
    if_neg hinitial, if_neg hlf]

/-- Plain bytes are collected while the buffer has room for them. -/
theorem parse_plain (hplain : ∀ b ∈ bytes, Plain b) (hlf : state ≠ .lf)
    (hinitial : state ≠ .initialLF) (hroom : buffer.length + bytes.length ≤ 1024) :
    parse ⟨size, true, state, buffer⟩ (bytes ++ rest) =
      parse ⟨size, true, state, buffer ++ bytes⟩ rest := by
  induction bytes generalizing buffer with
  | nil => simp
  | cons b bytes ih =>
    simp only [length_cons] at hroom
    have hstep := @step_plain ⟨size, true, state, buffer⟩ b (hplain b mem_cons_self) hlf hinitial
    rw [if_neg (by simp only; omega)] at hstep
    rw [cons_append, parse_of_step hstep rfl,
      ih (fun c hc ↦ hplain c (mem_cons_of_mem b hc))
        (by simp only [length_append, length_singleton]; omega)]
    simp

theorem throws_of_full (hplain : ∀ b ∈ bytes, Plain b) (hlf : state ≠ .lf)
    (hinitial : state ≠ .initialLF) (hroom : 1024 < buffer.length + bytes.length)
    (hbuffer : buffer.length ≤ 1024) :
    Throws ⟨size, true, state, buffer⟩ (bytes ++ rest) := by
  induction bytes generalizing buffer with
  | nil =>
    simp only [length_nil] at hroom
    omega
  | cons b bytes ih =>
    have hstep := @step_plain ⟨size, true, state, buffer⟩ b (hplain b mem_cons_self) hlf hinitial
    by_cases hfull : 1024 ≤ buffer.length
    · rw [if_pos hfull] at hstep
      exact throws_of_step hstep
    · rw [if_neg hfull] at hstep
      simp only [length_cons] at hroom
      rw [Throws, cons_append, parse_of_step hstep rfl]
      refine ih (fun c hc ↦ hplain c (mem_cons_of_mem b hc)) ?_ ?_
      · simp only [length_append, length_singleton]
        omega
      · simp only [length_append, length_singleton]
        omega

theorem throws_of_value (hline : ∀ b ∈ bytes, b ≠ 13 ∧ b ≠ 10) (hbuffer : buffer.length ≤ 1024)
    (hbad : ¬ ((∀ b ∈ bytes, Plain b) ∧ buffer.length + bytes.length ≤ 1024)) :
    Throws ⟨size, true, .value, buffer⟩ (bytes ++ rest) := by
  induction bytes generalizing buffer with
  | nil => exact absurd ⟨by simp, hbuffer⟩ hbad
  | cons b bytes ih =>
    obtain ⟨hcr, hlf⟩ := hline b mem_cons_self
    by_cases hb : Plain b
    · have hstep := @step_plain ⟨size, true, .value, buffer⟩ b hb (by simp) (by simp)
      by_cases hfull : 1024 ≤ buffer.length
      · rw [if_pos hfull] at hstep
        exact throws_of_step hstep
      · rw [if_neg hfull] at hstep
        rw [Throws, cons_append, parse_of_step hstep rfl]
        refine ih (fun c hc ↦ hline c (mem_cons_of_mem b hc)) ?_ fun hgood ↦ hbad ?_
        · simp only [length_append, length_singleton]
          omega
        · refine ⟨forall_mem_cons.mpr ⟨hb, hgood.1⟩, ?_⟩
          have hroom := hgood.2
          simp only [length_append, length_cons] at hroom ⊢
          omega
    · have hb' : b = 59 ∨ b = 61 := by
        simp only [Plain, hcr, hlf, ne_eq, not_false_eq_true, true_and, not_and_or,
          Decidable.not_not] at hb
        exact hb
      rcases hb' with rfl | rfl
      · exact throws_of_step (e := .protocolViolation "Incorrectly formated Chunk") rfl
      · exact throws_of_step (e := .protocolViolation "Incorrectly formated Chunk") rfl

end Parse

section Header

variable {c : MessageChunk} {rest : List UInt8} {size : ℕ} {buffer : List UInt8}

/-- The line of a header goes on with an extension or ends. -/
theorem extensions_cases (extensions : List Extension) (rest : List UInt8) :
    (extensions = [] ∧ extensions.flatMap Extension.encode ++ (crlf ++ rest) = 13 :: 10 :: rest) ∨
      ∃ e es, extensions = e :: es ∧
        extensions.flatMap Extension.encode ++ (crlf ++ rest) =
          59 :: (e.name ++ ((e.value.map fun text ↦ 61 :: text).getD [] ++
            (es.flatMap Extension.encode ++ (crlf ++ rest)))) := by
  cases extensions with
  | nil => exact .inl ⟨rfl, rfl⟩
  | cons e es => exact .inr ⟨e, es, rfl, by simp [Extension.encode]⟩

theorem header_append : c.header ++ rest =
    c.sizeText ++ (c.extensions.flatMap Extension.encode ++ (crlf ++ rest)) := by
  simp [MessageChunk.header]

theorem sizeText_plain : ∀ b ∈ c.sizeText, Plain b :=
  fun b hb ↦ (digit_cases (c.sizeText_digits b hb)).1

/-- The first byte of a header ends the wait for the line feed of the chunk before. -/
theorem parse_initial :
    parse .initial (c.header ++ rest) = parse ⟨0, true, .size, []⟩ (c.header ++ rest) := by
  obtain ⟨b, text, htext⟩ := exists_cons_of_ne_nil c.sizeText_ne_nil
  obtain ⟨hcr, hlf, hsemicolon, hequals⟩ := @sizeText_plain c b (by rw [htext]; exact mem_cons_self)
  have hstep : initial.step b = step ⟨0, true, .size, []⟩ b := by
    simp only [step, initial, if_neg hcr, if_neg hlf, if_neg hsemicolon,
      if_neg hequals]
    rfl
  rw [header_append, htext, cons_append, parse, parse, hstep]

theorem parse_initial_crlf :
    parse .initial (crlf ++ (c.header ++ rest)) =
      parse ⟨0, true, .size, []⟩ (c.header ++ rest) := rfl

theorem step_size_cr (hle : c.sizeText.length ≤ 8) :
    step ⟨0, true, .size, c.sizeText⟩ 13 = .ok ⟨c.data.length, true, .lf, []⟩ := by
  have hsize := toInt32_digits c.sizeText_digits
  rw [if_pos hle, c.sizeText_value] at hsize
  simp only [step, hsize, if_true]

theorem step_size_semicolon (hle : c.sizeText.length ≤ 8) :
    step ⟨0, true, .size, c.sizeText⟩ 59 = .ok ⟨c.data.length, true, .name, []⟩ := by
  have hsize := toInt32_digits c.sizeText_digits
  rw [if_pos hle, c.sizeText_value] at hsize
  simp [step, hsize]

theorem parse_sizeText (hle : c.sizeText.length ≤ 1024) :
    parse ⟨0, true, .size, []⟩ (c.sizeText ++ rest) = parse ⟨0, true, .size, c.sizeText⟩ rest := by
  have hparse := @parse_plain c.sizeText rest 0 [] .size sizeText_plain (by simp) (by simp)
    (by simpa using hle)
  simpa using hparse

theorem parse_name {e : Extension} (hle : e.name.length ≤ 1024) :
    parse ⟨size, true, .name, []⟩ (e.name ++ rest) = parse ⟨size, true, .name, e.name⟩ rest := by
  have hparse := @parse_plain e.name rest size [] .name e.name_plain (by simp) (by simp)
    (by simpa using hle)
  simpa using hparse

/-- The sign between the name and the value of an extension. -/
theorem parse_equals :
    parse ⟨size, true, .name, buffer⟩ (61 :: rest) = parse ⟨size, true, .value, []⟩ rest := rfl

theorem parse_value {text : List UInt8} (hplain : ∀ b ∈ text, Plain b) (hle : text.length ≤ 1024) :
    parse ⟨size, true, .name, buffer⟩ (61 :: (text ++ rest)) =
      parse ⟨size, true, .value, text⟩ rest := by
  have hparse := @parse_plain text rest size [] .value hplain (by simp) (by simp)
    (by simpa using hle)
  rw [parse_equals, hparse]
  rfl

/-- `GetChunk` reads the size from a header that it takes, and stops at the bytes of the chunk. -/
theorem parse_header (h : c.Taken) :
    parse ⟨0, true, .size, []⟩ (c.header ++ rest) = (.ok ⟨c.data.length, 0⟩, rest) := by
  obtain ⟨hle, hextensions⟩ := h
  rw [header_append, parse_sizeText (by omega)]
  rcases hextensions with hnil | ⟨e, text, hone, hvalue, hname, htext, hplain⟩
  · rw [hnil, flatMap_nil, nil_append, crlf, cons_append,
      parse_of_step (step_size_cr hle) rfl]
    rfl
  · rw [hone, flatMap_singleton, Extension.encode, hvalue, map_some, getD_some,
      cons_append, cons_append, parse_of_step (step_size_semicolon hle) rfl,
      append_assoc, parse_name hname, cons_append, parse_value hplain htext]
    rfl

/-- `GetChunk` throws from any other header. -/
theorem throws_header (h : ¬ c.Taken) : Throws ⟨0, true, .size, []⟩ (c.header ++ rest) := by
  rw [header_append]
  by_cases hfull : c.sizeText.length ≤ 1024
  swap
  · exact throws_of_full sizeText_plain (by simp) (by simp) (by simpa using hfull) (by simp)
  rw [Throws, parse_sizeText hfull]
  by_cases hle : c.sizeText.length ≤ 8
  swap
  · have hsize := toInt32_digits c.sizeText_digits
    rw [if_neg hle] at hsize
    rcases extensions_cases c.extensions rest with ⟨-, heq⟩ | ⟨e, es, -, heq⟩
    · rw [heq]
      exact throws_of_step (e := .argument) (by simp only [step, hsize, if_true])
    · rw [heq]
      exact throws_of_step (e := .argument) (by simp [step, hsize])
  rcases extensions_cases c.extensions rest with ⟨hnil, -⟩ | ⟨e, es, hcons, heq⟩
  · exact absurd ⟨hle, .inl hnil⟩ h
  rw [heq, parse_of_step (step_size_semicolon hle) rfl]
  by_cases hname : e.name.length ≤ 1024
  swap
  · exact throws_of_full e.name_plain (by simp) (by simp) (by simpa using hname) (by simp)
  rw [parse_name hname]
  cases hvalue : e.value with
  | none =>
    rw [map_none, getD_none, nil_append]
    rcases extensions_cases es rest with ⟨-, heq⟩ | ⟨e', es', -, heq⟩
    · rw [heq]
      exact throws_of_step (e := .protocolViolation "Wrong state for CR") rfl
    · rw [heq]
      exact throws_of_step (e := .protocolViolation "Incorrectly formated Chunk") rfl
  | some text =>
    rw [map_some, getD_some, cons_append]
    by_cases htext : (∀ b ∈ text, Plain b) ∧ text.length ≤ 1024
    · rw [parse_value htext.1 htext.2]
      rcases extensions_cases es rest with ⟨hnil, -⟩ | ⟨e', es', -, heq⟩
      · rw [hnil] at hcons
        exact absurd ⟨hle, .inr ⟨e, text, hcons, hvalue, hname, htext.2, htext.1⟩⟩ h
      · rw [heq]
        exact throws_of_step (e := .protocolViolation "Incorrectly formated Chunk") rfl
    · rw [parse_equals]
      exact throws_of_value (e.value_line text hvalue) (by simp) (by simpa using htext)

end Header

end MicroFramework.Http
