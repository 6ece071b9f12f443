import Mathlib.Data.Nat.Bitwise
import MicroFramework.Support.LittleEndian

/-!
# The LZW decompressor of the GIF decoder

The token table, the buffers and the decoding loop.  An access outside the token table or outside
the output buffer has no result.
-/

namespace MicroFramework.Graphics.Lzw

/-! ### Token values -/

/-- The number of entries of the token table. -/
def ctokens : ℕ := 4096

/-- `ILen`: the length stands in the upper 12 of the 32 bits. -/
def iLen (tokenValue : ℕ) : ℕ :=
  tokenValue >>> 20

def iPrev (tokenValue : ℕ) : ℕ :=
  (tokenValue >>> 8) &&& (ctokens - 1)

def ch (tokenValue : ℕ) : UInt8 :=
  UInt8.ofNat tokenValue

def chToken (c : UInt8) : ℕ :=
  c.toNat + 1 <<< 20

def nextToken (iTokenPrev tokenPrev : ℕ) (c : UInt8) : ℕ :=
  (((tokenPrev + 1 <<< 20) % 2 ^ 32 &&& 0xFFF <<< 20) + iTokenPrev <<< 8 + c.toNat) % 2 ^ 32

/-! ### The decompressor -/

/-- `LZWDecompressor`.  The input block is given by the bytes not read yet, the output buffer by its
contents, the place of the next byte and the space behind it. -/
structure Decompressor where
  bcodeSize : ℕ
  ibitsToken : ℕ
  itokenLast : ℕ
  chPrev : UInt8
  fEnded : Bool
  fError : Bool
  iInput : ℕ
  cbInput : ℕ
  iTokenPrev : ℕ
  rgtoken : List ℕ
  pbIn : List UInt8
  buffer : List UInt8
  pbOut : ℕ
  cbOut : ℕ
  fNeedInput : Bool
  fNeedOutput : Bool

namespace Decompressor

def wClear (d : Decompressor) : ℕ :=
  2 ^ d.bcodeSize % 2 ^ 16

/-- `WEOD` -/
def wEOD (d : Decompressor) : ℕ :=
  (1 + 2 ^ d.bcodeSize) % 2 ^ 16

def clear (d : Decompressor) : Decompressor :=
  { d with
    ibitsToken := (d.bcodeSize + 1) % 2 ^ 8
    itokenLast := d.wEOD
    rgtoken := d.rgtoken.take d.wClear ++ List.replicate (ctokens - d.wClear) 0 }

/-- The characters' own tokens at the start of the table. -/
def presetTokens (d : Decompressor) : Decompressor :=
  { d with
    rgtoken := (List.range d.wClear).map (fun i ↦ chToken (UInt8.ofNat i)) ++
      d.rgtoken.drop d.wClear }

/-- `LZWDecompressorInit` on memory that holds `before`: the previous token is set to the clear
code while the code size is still that of the old contents. -/
def init (before : Decompressor) (bcodeSize : ℕ) : Decompressor :=
  let d := { before with
    chPrev := 0
    fEnded := false
    fError := false
    iInput := 0
    cbInput := 0
    iTokenPrev := before.wClear }
  let d := { d with
    ibitsToken := (bcodeSize + 1) % 2 ^ 8
    itokenLast := d.wEOD
    bcodeSize := bcodeSize % 2 ^ 8 }
  let d := { d with
    pbIn := []
    buffer := []
    pbOut := 0
    cbOut := 0
    fNeedInput := true
    fNeedOutput := true }
  d.presetTokens.clear

end Decompressor

/-! ### The loop -/

/-- The local variables of `FHandleNext`. -/
structure Locals where
  iInput : ℕ
  cbInput : ℕ
  iTokenPrev : ℕ
  tokenPrev : ℕ
  chFirst : UInt8

/-- The loop that gathers the bits of a token: the rest of the block, the bits and their number. -/
def gather (ibitsToken : ℕ) : List UInt8 → ℕ → ℕ → List UInt8 × ℕ × ℕ
  | [], iInput, cbInput => ([], iInput, cbInput)
  | b :: pbIn, iInput, cbInput =>
    if cbInput < ibitsToken then
      gather ibitsToken pbIn (iInput + b.toNat <<< cbInput) (cbInput + 8)
    else
      (b :: pbIn, iInput, cbInput)

/-- The loop that writes a token's characters backwards from `pbOut`: the first character and the
buffer. -/
def writeString (rgtoken : List ℕ) : ℕ → ℕ → List UInt8 → Option (UInt8 × List UInt8)
  | 0, _, _ => none
  | pbOut + 1, tokenNext, buffer =>
    if buffer.length ≤ pbOut then none
    else
      let chFirst := ch tokenNext
      let buffer := buffer.set pbOut chFirst
      if iLen tokenNext ≤ 1 then
        some (chFirst, buffer)
      else
        match rgtoken[iPrev tokenNext]? with
        | none => none
        | some tokenNext => writeString rgtoken pbOut tokenNext buffer

inductive Turn where
  /-- The loop goes on. -/
  | again (d : Decompressor) (l : Locals)
  | leave (d : Decompressor) (l : Locals)
  /-- The function returns at once. -/
  | failed (d : Decompressor)

namespace Decompressor

/-- The token behind the one that was output is added to the table, if there is one before it and
there is room. -/
def addToken (d : Decompressor) (l : Locals) (iToken token : ℕ) : Turn :=
  let next : Locals := { l with iTokenPrev := iToken, tokenPrev := token }
  if d.itokenLast < 4095 ∧ iLen l.tokenPrev > 0 then
    let iTokenNew := d.itokenLast + 1
    if iTokenNew ≤ l.iTokenPrev then
      .failed { d with itokenLast := iTokenNew, fError := true }
    else
      .again { d with
        itokenLast := iTokenNew
        rgtoken := d.rgtoken.set iTokenNew (nextToken l.iTokenPrev l.tokenPrev l.chFirst)
        ibitsToken :=
          if iTokenNew &&& (iTokenNew + 1) = 0 ∧ iTokenNew < 4095 then d.ibitsToken + 1
          else d.ibitsToken } next
  else
    .again d next

/-- The second half of a turn: the characters of a token are written if there is room. -/
def output (d : Decompressor) (l : Locals) (iToken token : ℕ) : Option Turn :=
  if d.cbOut < iLen token then
    some (.leave { d with fNeedOutput := true } l)
  else
    match writeString d.rgtoken (d.pbOut + iLen token) token d.buffer with
    | none => none
    | some (chFirst, buffer) =>
      some ({ d with
        cbOut := d.cbOut - iLen token
        pbOut := d.pbOut + iLen token
        buffer := buffer }.addToken { l with
          cbInput := l.cbInput - d.ibitsToken
          iInput := l.iInput >>> d.ibitsToken
          chFirst := chFirst } iToken token)

def token (d : Decompressor) (l : Locals) : Option Turn :=
  let iToken := l.iInput &&& (1 <<< d.ibitsToken - 1)
  match d.rgtoken[iToken]? with
  | none => none
  | some token =>
    if iLen token = 0 then
      if iToken = d.wClear then
        some (.again d.clear { l with
          cbInput := l.cbInput - d.ibitsToken
          iInput := l.iInput >>> d.ibitsToken
          iTokenPrev := iToken
          tokenPrev := 0 })
      else if iToken = d.wEOD then
        some (.leave { d with fEnded := true } { l with iTokenPrev := d.wEOD })
      else if iToken ≠ d.itokenLast + 1 then
        some (.failed { d with fError := true })
      else
        d.output l iToken (nextToken l.iTokenPrev l.tokenPrev l.chFirst)
    else
      d.output l iToken token

/-- One turn of the loop of `FHandleNext`. -/
def turn (d : Decompressor) (l : Locals) : Option Turn :=
  let gathered := gather d.ibitsToken d.pbIn l.iInput l.cbInput
  let d := { d with pbIn := gathered.1 }
  let l := { l with iInput := gathered.2.1, cbInput := gathered.2.2 }
  if l.cbInput < d.ibitsToken then
    some (.leave { d with fNeedInput := true } l)
  else
    d.token l

def save (d : Decompressor) (l : Locals) : Decompressor :=
  { d with
    chPrev := l.chFirst
    iTokenPrev := l.iTokenPrev
    iInput := l.iInput
    cbInput := l.cbInput }

/-- The loop of `FHandleNext`; every turn that goes on takes bits from the input. -/
def loop : ℕ → Decompressor → Locals → Option (Bool × Decompressor)
  | 0, _, _ => none
  | fuel + 1, d, l =>
    match d.turn l with
    | none => none
    | some (.again d l) => loop fuel d l
    | some (.leave d l) => some (true, d.save l)
    | some (.failed d) => some (false, d)

def bitsLeft (d : Decompressor) : ℕ :=
  d.cbInput + 8 * d.pbIn.length

def fHandleNext (d : Decompressor) : Option (Bool × Decompressor) :=
  match d.rgtoken[d.iTokenPrev]? with
  | none => none
  | some tokenPrev =>
    loop (d.bitsLeft + 1) d ⟨d.iInput, d.cbInput, d.iTokenPrev, tokenPrev, d.chPrev⟩

def fProcess (d : Decompressor) : Option (Bool × Decompressor) :=
  if d.fEnded ∨ d.fError then some (false, d) else d.fHandleNext

end Decompressor

/-!
## Strings in the token table

A token spells a string when its chain of previous tokens holds the string's characters from the
last to the first and its lengths count them.
-/

/-! ### The parts of a token value -/

theorem iLen_eq (t : ℕ) : iLen t = t / 2 ^ 20 := Nat.shiftRight_eq_div_pow t 20

theorem iPrev_eq (t : ℕ) : iPrev t = t / 2 ^ 8 % 2 ^ 12 := by
  rw [iPrev, ctokens, Nat.shiftRight_eq_div_pow, show 4096 - 1 = 2 ^ 12 - 1 from rfl,
    Nat.and_two_pow_sub_one_eq_mod]

theorem ch_eq {t : ℕ} {c : UInt8} (h : t % 2 ^ 8 = c.toNat) : ch t = c := by
  apply UInt8.toNat_inj.mp
  rw [ch, UInt8.toNat_ofNat']
  exact h

theorem chToken_eq (c : UInt8) : chToken c = c.toNat + 2 ^ 20 := by rw [chToken, Nat.one_shiftLeft]

theorem iLen_chToken (c : UInt8) : iLen (chToken c) = 1 := by
  have hc := c.toNat_lt
  rw [iLen_eq, chToken_eq]
  omega

theorem ch_chToken (c : UInt8) : ch (chToken c) = c := by
  have hc := c.toNat_lt
  apply ch_eq
  rw [chToken_eq]
  omega

theorem iLen_zero : iLen 0 = 0 := by rw [iLen_eq, Nat.zero_div]

/-- The upper 12 of 32 bits. -/
theorem and_lengthMask {t : ℕ} (h : t < 2 ^ 32) : t &&& 0xFFF <<< 20 = t / 2 ^ 20 * 2 ^ 20 := by
  apply Nat.eq_of_testBit_eq
  intro i
  rw [Nat.testBit_and, Nat.testBit_shiftLeft, show (0xFFF : ℕ) = 2 ^ 12 - 1 from rfl,
    Nat.testBit_two_pow_sub_one, Nat.testBit_mul_two_pow, Nat.testBit_div_two_pow]
  by_cases hi : 20 ≤ i
  · by_cases hhigh : i < 32
    · have hlow : i - 20 < 12 := by omega
      simp [hi, hlow, Nat.sub_add_cancel hi]
    · have hzero : t.testBit i = false :=
        Nat.testBit_lt_two_pow (h.trans_le (Nat.pow_le_pow_right (by decide) (by omega)))
      simp [hi, hzero, Nat.sub_add_cancel hi]
  · simp [hi]

theorem nextToken_eq {iTokenPrev tokenPrev : ℕ} (c : UInt8) (hprev : iTokenPrev < ctokens)
    (hlen : iLen tokenPrev + 1 < ctokens) :
    nextToken iTokenPrev tokenPrev c =
      (iLen tokenPrev + 1) * 2 ^ 20 + iTokenPrev * 2 ^ 8 + c.toNat := by
  have hc := c.toNat_lt
  rw [ctokens] at hprev hlen
  rw [iLen_eq] at hlen ⊢
  have hsum : tokenPrev + 2 ^ 20 < 2 ^ 32 := by omega
  rw [nextToken, Nat.one_shiftLeft, Nat.mod_eq_of_lt hsum, and_lengthMask hsum,
    Nat.shiftLeft_eq, Nat.add_div_right _ (by decide), Nat.mod_eq_of_lt (by omega)]

section Next

variable {iTokenPrev tokenPrev : ℕ} (c : UInt8) (hprev : iTokenPrev < ctokens)
  (hlen : iLen tokenPrev + 1 < ctokens)
include hprev hlen

theorem iLen_nextToken : iLen (nextToken iTokenPrev tokenPrev c) = iLen tokenPrev + 1 := by
  have hc := c.toNat_lt
  rw [nextToken_eq c hprev hlen, iLen_eq (_ + _)]
  rw [ctokens] at hprev
  omega

theorem iPrev_nextToken : iPrev (nextToken iTokenPrev tokenPrev c) = iTokenPrev := by
  have hc := c.toNat_lt
  rw [nextToken_eq c hprev hlen, iPrev_eq]
  rw [ctokens] at hprev
  omega

theorem ch_nextToken : ch (nextToken iTokenPrev tokenPrev c) = c := by
  have hc := c.toNat_lt
  apply ch_eq
  rw [nextToken_eq c hprev hlen]
  omega

end Next

/-! ### Spelling -/

/-- The token value `t` spells a string by means of the table. -/
inductive Spells (rgtoken : List ℕ) : ℕ → List UInt8 → Prop
  | single {t : ℕ} {c : UInt8} : iLen t = 1 → ch t = c → Spells rgtoken t [c]
  | longer {t t' : ℕ} {s : List UInt8} {c : UInt8} :
      Spells rgtoken t' s → rgtoken[iPrev t]? = some t' → iLen t = s.length + 1 → ch t = c →
        Spells rgtoken t (s ++ [c])

namespace Spells

variable {rgtoken : List ℕ} {t : ℕ} {s : List UInt8}

section

variable (h : Spells rgtoken t s)

include h

theorem iLen_eq : iLen t = s.length := by
  cases h with
  | single hlen _ => exact hlen
  | longer _ _ hlen _ => rw [hlen, List.length_append, List.length_singleton]

theorem length_pos : 0 < s.length := by
  cases h with
  | single _ _ => exact Nat.one_pos
  | longer _ _ _ _ => simp

/-- An entry that was free is on no chain. -/
theorem set {j : ℕ} (hfree : rgtoken[j]? = some 0) (x : ℕ) : Spells (rgtoken.set j x) t s := by
  induction h with
  | single hlen hch => exact .single hlen hch
  | @longer t t' s c hrest hprev hlen hch ih =>
    refine .longer ih ?_ hlen hch
    have hne : j ≠ iPrev t := by
      rintro rfl
      obtain rfl := Option.some.inj (hfree.symm.trans hprev)
      have hpos := hrest.length_pos
      rw [← hrest.iLen_eq, iLen_zero] at hpos
      exact Nat.lt_irrefl 0 hpos
    rw [List.getElem?_set_ne hne, hprev]

theorem next {iTokenPrev : ℕ} (hprev : rgtoken[iTokenPrev]? = some t)
    (hindex : iTokenPrev < ctokens) (hlen : s.length + 1 < ctokens) (c : UInt8) :
    Spells rgtoken (nextToken iTokenPrev t c) (s ++ [c]) := by
  rw [← h.iLen_eq] at hlen
  refine .longer h ?_ ?_ (ch_nextToken c hindex hlen)
  · rw [iPrev_nextToken c hindex hlen, hprev]
  · rw [iLen_nextToken c hindex hlen, h.iLen_eq]

end

theorem set_split {pos : ℕ} {buffer : List UInt8} (c : UInt8) (h : pos + 1 ≤ buffer.length) :
    buffer.set pos c = buffer.take pos ++ [c] ++ buffer.drop (pos + 1) := by
  rw [List.set_eq_take_append_cons_drop, if_pos (Nat.lt_of_succ_le h), List.append_assoc]
  rfl

/-- The backward loop puts the string in front of the place where it starts, and leaves the rest
of the buffer. -/
theorem writeString_eq (h : Spells rgtoken t s) {pbOut : ℕ} {buffer : List UInt8}
    (hroom : s.length ≤ pbOut) (hbuffer : pbOut ≤ buffer.length) :
    ∃ first, s.head? = some first ∧ writeString rgtoken pbOut t buffer =
      some (first, buffer.take (pbOut - s.length) ++ s ++ buffer.drop pbOut) := by
  induction h generalizing pbOut buffer with
  | @single t c hlen hch =>
    obtain ⟨pos, rfl⟩ := Nat.exists_eq_add_of_le' hroom
    refine ⟨c, rfl, ?_⟩
    have hset := set_split c hbuffer
    rw [List.length_singleton, writeString, if_neg (Nat.not_le.mpr hbuffer), hch,
      if_pos hlen.le, hset, Nat.add_sub_cancel]
  | @longer t t' s c hrest hprev hlen hch ih =>
    rw [List.length_append, List.length_singleton] at hroom
    obtain ⟨pos, rfl⟩ := Nat.exists_eq_add_of_le' ((Nat.le_add_left 1 _).trans hroom)
    have hpos := hrest.length_pos
    have hset := set_split c hbuffer
    have hlength : (buffer.take pos).length = pos := List.length_take_of_le (by omega)
    obtain ⟨first, hfirst, hwrite⟩ := @ih pos (buffer.set pos c) (by omega)
      (by rw [List.length_set]; omega)
    refine ⟨first, ?_, ?_⟩
    · rw [List.head?_append, hfirst, Option.some_or]
    · have hfront : (buffer.set pos c).take (pos - s.length) =
          buffer.take (pos + 1 - (s ++ [c]).length) := by
        have hsub : pos + 1 - (s ++ [c]).length = pos - s.length := by
          rw [List.length_append, List.length_singleton, Nat.add_sub_add_right]
        rw [hsub, hset, List.append_assoc, List.take_append_of_le_length (by omega),
          List.take_take, min_eq_left (Nat.sub_le _ _)]
      have hback : (buffer.set pos c).drop pos = c :: buffer.drop (pos + 1) := by
        rw [hset, List.append_assoc, List.drop_left' hlength]
        rfl
      rw [writeString, if_neg (Nat.not_le.mpr hbuffer), if_neg (by omega), hprev]
      dsimp only
      rw [hch, hwrite, hfront, hback, List.append_assoc, List.append_assoc, List.append_assoc]
      rfl

end Spells

end MicroFramework.Graphics.Lzw
