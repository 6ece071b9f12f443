import Mathlib.Tactic.Ring
import MicroFramework.Graphics.LzwReference

/-!
# One call of the decompressor

A call goes on with what the data stands for, as far as the input and the output buffer let it,
without an access outside its table or its output buffer.
-/

namespace MicroFramework.Graphics.Lzw

open Support Dictionary Nat Decompressor

variable {b : ℕ} {bytes rest collected : List UInt8} {r r' : Dictionary} {value count : ℕ}
  {d d' : Decompressor} {l l' : Locals} {status : Status}

/-! ### Gathering bits -/

/-- Gathering moves bits from the block into the hand: the value and the number of all bits stay,
and it stops short only at the end of the block. -/
theorem gather_spec (ibitsToken : ℕ) (pbIn rest : List UInt8) (iInput cbInput : ℕ)
    (hlt : iInput < 2 ^ cbInput) {gathered : List UInt8 × ℕ × ℕ}
    (hgathered : gather ibitsToken pbIn iInput cbInput = gathered) :
    gathered.2.1 + 2 ^ gathered.2.2 * leValue (gathered.1 ++ rest) =
        iInput + 2 ^ cbInput * leValue (pbIn ++ rest) ∧
      gathered.2.2 + 8 * gathered.1.length = cbInput + 8 * pbIn.length ∧
      gathered.2.1 < 2 ^ gathered.2.2 ∧
      (gathered.2.2 < ibitsToken → gathered.1 = []) := by
  induction pbIn generalizing iInput cbInput with
  | nil =>
    subst hgathered
    exact ⟨rfl, rfl, hlt, fun _ ↦ rfl⟩
  | cons c pbIn ih =>
    rw [gather] at hgathered
    split at hgathered
    case isTrue =>
      have hc := c.toNat_lt
      have hshift : c.toNat <<< cbInput = c.toNat * 2 ^ cbInput := shiftLeft_eq _ _
      have hpow : 2 ^ (cbInput + 8) = 2 ^ cbInput * 256 := by rw [Nat.pow_add]
      have hnext : iInput + c.toNat <<< cbInput < 2 ^ (cbInput + 8) := by
        rw [hshift, hpow]
        calc iInput + c.toNat * 2 ^ cbInput < 2 ^ cbInput + c.toNat * 2 ^ cbInput :=
              Nat.add_lt_add_right hlt _
          _ = 2 ^ cbInput * (c.toNat + 1) := by ring
          _ ≤ 2 ^ cbInput * 256 := mul_le_mul_left _ (by omega)
      obtain ⟨hvalue, hcount, hfits, hempty⟩ := ih _ _ hnext hgathered
      refine ⟨hvalue.trans ?_, hcount.trans ?_, hfits, hempty⟩
      · rw [hshift, hpow, List.cons_append, leValue]
        ring
      · rw [List.length_cons]
        omega
    case isFalse hnot =>
      subst hgathered
      exact ⟨rfl, rfl, hlt, fun h ↦ absurd h hnot⟩

variable {cbInput high iInput width code : ℕ}

theorem mod_of_le (h : width ≤ cbInput) :
    (iInput + 2 ^ cbInput * high) % 2 ^ width = iInput % 2 ^ width := by
  obtain ⟨more, rfl⟩ := Nat.exists_eq_add_of_le h
  rw [Nat.pow_add, Nat.mul_assoc, add_mul_mod_self_left]

theorem div_of_le (h : width ≤ cbInput) :
    (iInput + 2 ^ cbInput * high) / 2 ^ width =
      iInput / 2 ^ width + 2 ^ (cbInput - width) * high := by
  obtain ⟨more, rfl⟩ := Nat.exists_eq_add_of_le h
  rw [Nat.pow_add, Nat.mul_assoc, add_mul_div_left _ _ (Nat.two_pow_pos width),
    Nat.add_sub_cancel_left]

/-! ### The simulation -/

/-- Inside the loop: the output so far has led to this dictionary, and what is in hand, in the
block and still to come is the rest of the data. -/
structure Sim (b : ℕ) (bytes rest collected : List UInt8) (r : Dictionary) (value count : ℕ)
    (d : Decompressor) (l : Locals) : Prop where
  reaches : Reaches b bytes (collected ++ d.buffer.take d.pbOut) r value count
  table : TableOf b r d
  prev : PrevOf b r value count d l
  value_eq : value = l.iInput + 2 ^ l.cbInput * leValue (d.pbIn ++ rest)
  count_eq : count = l.cbInput + 8 * (d.pbIn ++ rest).length
  input_lt : l.iInput < 2 ^ l.cbInput
  space : d.pbOut + d.cbOut = d.buffer.length

/-- The data decodes to the output so far and stops. -/
structure Decoded (b : ℕ) (bytes collected : List UInt8) (d : Decompressor) (status : Status) :
    Prop where
  decode_eq : decode b bytes = (collected ++ d.buffer.take d.pbOut, status)
  bits : d.ibitsToken ≤ 12
  space : d.pbOut + d.cbOut = d.buffer.length

theorem width_le (b : ℕ) (r : Dictionary) : r.width b ≤ 12 := min_le_left _ _

theorem Sim.decoded_of_stop (h : Sim b bytes rest collected r value count d l)
    (hwidth : r.width b ≤ count) (hstep : r.step b (value % 2 ^ r.width b) = .stop status)
    (hbuffer : d'.buffer = d.buffer) (hpbOut : d'.pbOut = d.pbOut) (hcbOut : d'.cbOut = d.cbOut)
    (hbits : d'.ibitsToken = d.ibitsToken) : Decoded b bytes collected d' status where
  decode_eq := by
    rw [decode, h.reaches.decodeFrom_eq, decodeFrom_of_stop hwidth hstep, hbuffer,
      hpbOut, List.append_nil]
  bits := by
    rw [hbits, h.table.bits]
    exact width_le b r
  space := by rw [hbuffer, hpbOut, hcbOut, h.space]

/-- The bits that are still to be read inside the loop. -/
def bitsOf (d : Decompressor) (l : Locals) : ℕ :=
  l.cbInput + 8 * d.pbIn.length

/-- What a turn may end with: the loop goes on with fewer bits; it waits for input or for room for
a string; or the data has stopped. -/
def TurnOk (b : ℕ) (bytes rest collected : List UInt8) (d : Decompressor) (l : Locals) :
    Turn → Prop
  | .again d' l' =>
    (∃ r value count, Sim b bytes rest collected r value count d' l') ∧
      bitsOf d' l' < bitsOf d l ∧ d'.fEnded = d.fEnded ∧ d'.fError = d.fError ∧
        d'.fNeedInput = false
  | .leave d' l' =>
    d'.fError = d.fError ∧
    ((∃ r value count, Sim b bytes rest collected r value count d' l') ∧ d'.fEnded = d.fEnded ∧
        (d'.fNeedInput = true ∧ d'.pbIn = [] ∧ l'.cbInput < d'.ibitsToken ∨
          d'.fNeedInput = false ∧ d'.fNeedOutput = true ∧ bitsOf d' l' ≤ bitsOf d l ∧
            d.cbOut < 4096) ∨
      d'.fEnded = true ∧ Decoded b bytes collected d' .ended)
  | .failed d' => d'.fError = true ∧ d'.fEnded = d.fEnded ∧ Decoded b bytes collected d' .error

/-- The bits of a code are taken from the hand. -/
theorem Sim.take (h : Sim b bytes rest collected r value count d l)
    (hwidth : r.width b ≤ l.cbInput) :
    value % 2 ^ r.width b = l.iInput % 2 ^ r.width b ∧
      value / 2 ^ r.width b = l.iInput / 2 ^ r.width b +
        2 ^ (l.cbInput - r.width b) * leValue (d.pbIn ++ rest) ∧
      count - r.width b = l.cbInput - r.width b + 8 * (d.pbIn ++ rest).length ∧
      l.iInput / 2 ^ r.width b < 2 ^ (l.cbInput - r.width b) ∧ r.width b ≤ count := by
  refine ⟨?_, ?_, ?_, ?_, ?_⟩
  · rw [h.value_eq, mod_of_le hwidth]
  · rw [h.value_eq, div_of_le hwidth]
  · rw [h.count_eq]
    omega
  · apply Nat.div_lt_of_lt_mul
    rw [← Nat.pow_add, add_sub_of_le hwidth]
    exact h.input_lt
  · rw [h.count_eq]
    omega

/-- The table is the same where the decompressor has the same code size, table and width. -/
theorem TableOf.congr (h : TableOf b r d) (hr : r'.strings = r.strings)
    (hcodeSize : d'.bcodeSize = d.bcodeSize) (hbits : d'.ibitsToken = d.ibitsToken)
    (hlast : d'.itokenLast = d.itokenLast) (htoken : d'.rgtoken = d.rgtoken) :
    TableOf b r' d' := by
  have hnext : r'.nextCode b = r.nextCode b := by rw [nextCode, hr, nextCode]
  exact {
    codeSize := hcodeSize.trans h.codeSize
    bits := by rw [hbits, h.bits, width, width, hnext]
    last := by rw [hlast, hnext, h.last]
    room := hnext.trans_le h.room
    length := by rw [htoken, h.length]
    roots := by
      rw [htoken]
      exact h.roots
    free := by
      rw [htoken, hnext]
      exact h.free
    strings := by
      rw [htoken, hr]
      exact h.strings
    lengths := by
      rw [hr]
      exact h.lengths }

theorem width_empty (hb : 2 ≤ b) (hb' : b ≤ 8) : empty.width b = b + 1 := by
  have hlow : 2 ^ 2 ≤ 2 ^ b := Nat.pow_le_pow_right (by decide) hb
  have hlog : Nat.log 2 (2 ^ b + 2) = b := by
    apply log_eq_of_pow_le_of_lt_pow
    · exact le_add_right _ _
    · rw [Nat.pow_succ]
      omega
  have hnext : empty.nextCode b = 2 ^ b + 2 := rfl
  rw [width, hnext, hlog, min_eq_right (by omega)]

theorem tableOf_clear (hb : 2 ≤ b) (hb' : b ≤ 8) (hcodeSize : d.bcodeSize = b)
    (hlength : 2 ^ b ≤ d.rgtoken.length)
    (hroots : ∀ c < 2 ^ b, d.rgtoken[c]? = some (chToken (UInt8.ofNat c))) :
    TableOf b .empty d.clear := by
  have hhigh : 2 ^ b ≤ 2 ^ 8 := Nat.pow_le_pow_right (by decide) hb'
  have hclear : d.wClear = 2 ^ b := by
    rw [wClear, hcodeSize, mod_eq_of_lt (hhigh.trans_lt (by decide))]
  have hEOD : d.wEOD = 2 ^ b + 1 := by
    rw [wEOD, hcodeSize, mod_eq_of_lt (by omega), Nat.add_comm]
  have hnext : empty.nextCode b = 2 ^ b + 2 := rfl
  have htable : d.clear.rgtoken = d.rgtoken.take (2 ^ b) ++ List.replicate (4096 - 2 ^ b) 0 := by
    rw [← hclear]
    rfl
  have htake : (d.rgtoken.take (2 ^ b)).length = 2 ^ b := List.length_take_of_le hlength
  exact {
    codeSize := hcodeSize
    bits := by
      rw [width_empty hb hb']
      change (d.bcodeSize + 1) % 2 ^ 8 = _
      rw [hcodeSize, mod_eq_of_lt (by omega)]
    last := by
      change d.wEOD + 1 = _
      rw [hEOD, hnext]
    room := by
      rw [hnext]
      omega
    length := by
      rw [htable, List.length_append, htake, List.length_replicate, ctokens]
      omega
    roots := fun c hc ↦ by
      rw [htable, List.getElem?_append_left (hc.trans_eq htake.symm), List.getElem?_take_of_lt hc]
      exact hroots c hc
    free := fun j hj hj' _ ↦ by
      rw [htable, List.getElem?_append_right (htake.trans_le hj), htake]
      apply List.getElem?_replicate_of_lt
      rw [ctokens] at hj'
      omega
    strings := fun k s hs ↦ by cases hs
    lengths := fun s hs ↦ by cases hs }

theorem step_of_ne (hclear : code ≠ 2 ^ b) (hend : code ≠ 2 ^ b + 1) :
    r.step b code = match r.prev, r.lookup b code with
      | none, some s => .go s { r with prev := some s }
      | some p, some s => .go s (r.add b (p ++ s.take 1) s)
      | some p, none =>
        if code = r.nextCode b then
          .go (p ++ p.take 1) (r.add b (p ++ p.take 1) (p ++ p.take 1))
        else .stop .error
      | none, none => .stop .error :=
  (if_neg hclear).trans (if_neg hend)

variable {s : List UInt8}

theorem take_one_of_head? {c : UInt8} (h : s.head? = some c) : s.take 1 = [c] := by
  rw [List.take_one, h]
  rfl

theorem lookup_of_control (h : code = 2 ^ b ∨ code = 2 ^ b + 1) :
    r.lookup b code = none := by
  rw [lookup, if_neg (by omega), if_pos (by omega)]

/-- A string goes to the output if there is room for it. -/
theorem output_ok (h : Sim b bytes rest collected r value count d l)
    (hflag : d.fNeedInput = false) (hwidth : r.width b ≤ l.cbInput)
    {iToken token : ℕ} {r' : Dictionary} (hspells : Spells d.rgtoken token s)
    (hlength : s.length ≤ 4095) (hstep : r.step b (value % 2 ^ r.width b) = .go s r')
    (hadd : ∀ (d₁ : Decompressor) (l₁ : Locals), d₁.rgtoken = d.rgtoken →
      d₁.itokenLast = d.itokenLast → d₁.ibitsToken = d.ibitsToken →
      d₁.bcodeSize = d.bcodeSize → l₁.iTokenPrev = l.iTokenPrev → l₁.tokenPrev = l.tokenPrev →
      s.head? = some l₁.chFirst →
      ∃ d', d₁.addToken l₁ iToken token =
          .again d' { l₁ with iTokenPrev := iToken, tokenPrev := token } ∧
        TableOf b r' d' ∧
        PrevOf b r' (value / 2 ^ r.width b) (count - r.width b) d'
          { l₁ with iTokenPrev := iToken, tokenPrev := token } ∧
        d'.pbIn = d₁.pbIn ∧ d'.buffer = d₁.buffer ∧ d'.pbOut = d₁.pbOut ∧ d'.cbOut = d₁.cbOut ∧
        d'.fEnded = d₁.fEnded ∧ d'.fError = d₁.fError ∧ d'.fNeedInput = d₁.fNeedInput) :
    ∃ T, d.output l iToken token = some T ∧ TurnOk b bytes rest collected d l T := by
  obtain ⟨-, hdiv, hcount, hlt, hle⟩ := h.take hwidth
  rw [output, hspells.iLen_eq]
  by_cases hroom : d.cbOut < s.length
  · rw [if_pos hroom]
    refine ⟨_, rfl, rfl, .inl ⟨⟨r, value, count, ?_⟩, rfl, .inr ⟨hflag, rfl, le_rfl, by omega⟩⟩⟩
    exact ⟨h.reaches, ⟨h.table.codeSize, h.table.bits, h.table.last, h.table.room, h.table.length,
      h.table.roots, h.table.free, h.table.strings, h.table.lengths⟩,
      ⟨h.prev.entry, h.prev.start, h.prev.string⟩, h.value_eq, h.count_eq, h.input_lt, h.space⟩
  · rw [if_neg hroom]
    have hspace := h.space
    have hend : d.pbOut + s.length ≤ d.buffer.length := by omega
    obtain ⟨first, hfirst, hwrite⟩ := hspells.writeString_eq (le_add_left _ _) hend
    rw [hwrite]
    dsimp only
    obtain ⟨d', hd', htable, hprev, hpbIn, hbuffer, hpbOut, hcbOut, hended, herror,
      hneed⟩ := hadd
      { d with
        cbOut := d.cbOut - s.length
        pbOut := d.pbOut + s.length
        buffer := d.buffer.take (d.pbOut + s.length - s.length) ++ s ++
          d.buffer.drop (d.pbOut + s.length) }
      { l with
        cbInput := l.cbInput - d.ibitsToken
        iInput := l.iInput >>> d.ibitsToken
        chFirst := first } rfl rfl rfl rfl rfl rfl hfirst
    rw [hd']
    have hbits := h.table.bits
    have hwpos := r.width_pos b
    refine ⟨_, rfl, ⟨r', value / 2 ^ r.width b, count - r.width b, ?_⟩, ?_, hended, herror,
      hneed.trans hflag⟩
    · have hlen : (d.buffer.take d.pbOut ++ s).length = d.pbOut + s.length := by
        rw [List.length_append, List.length_take_of_le (by omega)]
      have hout : d'.buffer.take d'.pbOut = d.buffer.take d.pbOut ++ s := by
        rw [hbuffer, hpbOut]
        dsimp only
        rw [Nat.add_sub_cancel, List.take_left' hlen]
      refine ⟨?_, htable, hprev, ?_, ?_, ?_, ?_⟩
      · rw [hout, ← List.append_assoc]
        exact .tail h.reaches hle hstep
      · dsimp only
        rw [hdiv, hpbIn, shiftRight_eq_div_pow, hbits]
      · dsimp only
        rw [hcount, hpbIn, hbits]
      · dsimp only
        rw [shiftRight_eq_div_pow, hbits]
        exact hlt
      · rw [hpbOut, hcbOut, hbuffer]
        dsimp only
        rw [List.length_append, Nat.add_sub_cancel, hlen, List.length_drop]
        omega
    · rw [bitsOf, bitsOf, hpbIn]
      dsimp only
      rw [hbits]
      omega

section Token

variable (hb : 2 ≤ b) (hb' : b ≤ 8) (hstray : ¬Stray b bytes)
  (h : Sim b bytes rest collected r value count d l) (hflag : d.fNeedInput = false)
  (hwidth : r.width b ≤ l.cbInput)
include hb h hflag hwidth

/-- A turn on a code that has a string. -/
theorem string_ok {s : List UInt8} {token : ℕ} (hs : r.lookup b (value % 2 ^ r.width b) = some s)
    (htoken : d.rgtoken[value % 2 ^ r.width b]? = some token)
    (hspells : Spells d.rgtoken token s) (hlt : value % 2 ^ r.width b < r.nextCode b)
    (hlength : s.length ≤ r.strings.length + 1) :
    ∃ T, d.output l (value % 2 ^ r.width b) token = some T ∧
      TurnOk b bytes rest collected d l T := by
  have hlong := length_lt hb h.table.room hlength
  rw [ctokens] at hlong
  have hclear : value % 2 ^ r.width b ≠ 2 ^ b := fun heq ↦ by
    rw [lookup_of_control (.inl heq)] at hs
    cases hs
  have hend : value % 2 ^ r.width b ≠ 2 ^ b + 1 := fun heq ↦ by
    rw [lookup_of_control (.inr heq)] at hs
    cases hs
  have hle := (h.take hwidth).2.2.2.2
  have hstep := step_of_ne (r := r) hclear hend
  rw [hs] at hstep
  cases hprev : r.prev with
  | none =>
    -- the first code: there is nothing to add a character to
    rw [hprev] at hstep
    refine output_ok h hflag hwidth hspells (by omega) hstep ?_
    intro d₁ l₁ htokens hlast hbits hcodeSize hiTokenPrev htokenPrev hfirst
    obtain ⟨hnil, hzero | hnextClear⟩ := h.prev.start hprev
    · refine ⟨d₁, ?_, h.table.congr rfl hcodeSize hbits hlast htokens, ⟨?_, ?_, ?_⟩, rfl, rfl,
        rfl, rfl, rfl, rfl, rfl⟩
      · rw [addToken, htokenPrev, hzero, if_neg]
        rw [iLen_zero]
        exact fun hpos ↦ Nat.lt_irrefl 0 hpos.2
      · rw [htokens, htoken]
      · intro hnone
        cases hnone
      · intro p hp
        obtain rfl := Option.some.inj hp
        rw [htokens]
        exact ⟨hspells, hlt, hfirst, hlength⟩
    · exact absurd (hnextClear hle) hclear
  | some p =>
    rw [hprev] at hstep
    obtain ⟨hp, hindex, hhead, hplength⟩ := h.prev.string p hprev
    refine output_ok h hflag hwidth hspells (by omega) hstep ?_
    intro d₁ l₁ htokens hlast hbits hcodeSize hiTokenPrev htokenPrev hfirst
    rw [take_one_of_head? hfirst]
    apply addToken_eq hb (h.table.congr rfl hcodeSize hbits hlast htokens)
    · rw [htokens, htokenPrev]
      exact hp
    · rw [htokens, hiTokenPrev, htokenPrev]
      exact h.prev.entry
    · rw [hiTokenPrev]
      exact hindex
    · exact hplength
    · exact hfirst
    · rw [htokens]
      exact .inr ⟨htoken, hspells, hlt, hlength⟩

/-- A turn on the code that the dictionary gets next. -/
theorem repeat_ok {p : List UInt8} (hprev : r.prev = some p)
    (hnext : value % 2 ^ r.width b = r.nextCode b) (hfits : value % 2 ^ r.width b < ctokens)
    (hs : r.lookup b (value % 2 ^ r.width b) = none) :
    ∃ T, d.output l (value % 2 ^ r.width b)
        (nextToken l.iTokenPrev l.tokenPrev l.chFirst) = some T ∧
      TurnOk b bytes rest collected d l T := by
  obtain ⟨hp, hindex, hhead, hplength⟩ := h.prev.string p hprev
  have hlong := length_lt hb h.table.room hplength
  have htake := take_one_of_head? hhead
  have hclear : value % 2 ^ r.width b ≠ 2 ^ b := by
    rw [hnext, nextCode]
    omega
  have hend : value % 2 ^ r.width b ≠ 2 ^ b + 1 := by
    rw [hnext, nextCode]
    omega
  have hstep := step_of_ne (r := r) hclear hend
  rw [hs, hprev] at hstep
  dsimp only at hstep
  rw [if_pos hnext, htake] at hstep
  have hroom := h.table.room
  have hspells : Spells d.rgtoken (nextToken l.iTokenPrev l.tokenPrev l.chFirst)
      (p ++ [l.chFirst]) := hp.next h.prev.entry (hindex.trans_le hroom) hlong l.chFirst
  refine output_ok h hflag hwidth hspells ?_ hstep ?_
  · rw [List.length_append, List.length_singleton]
    rw [ctokens] at hlong
    omega
  · intro d₁ l₁ htokens hlast hbits hcodeSize hiTokenPrev htokenPrev hfirst
    have hsame : l₁.chFirst = l.chFirst := by
      rw [List.head?_append, hhead, Option.some_or] at hfirst
      exact (Option.some.inj hfirst).symm
    rw [← hsame] at hfirst ⊢
    apply addToken_eq hb (h.table.congr rfl hcodeSize hbits hlast htokens)
    · rw [htokens, htokenPrev]
      exact hp
    · rw [htokens, hiTokenPrev, htokenPrev]
      exact h.prev.entry
    · rw [hiTokenPrev]
      exact hindex
    · exact hplength
    · exact hfirst
    · exact .inl ⟨rfl, hnext, hfits, by rw [hiTokenPrev, htokenPrev]⟩

include hb' hstray in
/-- A turn on the bits of a code. -/
theorem token_ok : ∃ T, d.token l = some T ∧ TurnOk b bytes rest collected d l T := by
  obtain ⟨hmod, hdiv, hcount, hlt, hle⟩ := h.take hwidth
  have hbits := h.table.bits
  have hfits : value % 2 ^ r.width b < ctokens := by
    calc value % 2 ^ r.width b < 2 ^ r.width b := mod_lt _ (Nat.two_pow_pos _)
      _ ≤ 2 ^ 12 := Nat.pow_le_pow_right (by decide) (width_le b r)
  have hcode : l.iInput &&& (1 <<< d.ibitsToken - 1) = value % 2 ^ r.width b := by
    rw [hbits, one_shiftLeft, and_two_pow_sub_one_eq_mod, hmod]
  rw [token, hcode]
  cases hs : r.lookup b (value % 2 ^ r.width b) with
  | some s =>
    obtain ⟨t, ht, hspells, hnext, hlength⟩ := h.table.of_lookup_some hs
    have hpos := hspells.length_pos
    rw [← hspells.iLen_eq] at hpos
    rw [ht]
    dsimp only
    rw [if_neg hpos.ne']
    exact string_ok hb h hflag hwidth hs ht hspells hnext hlength
  | none =>
    obtain ⟨hzero, hwhich⟩ := h.table.of_lookup_none hfits hs
    have hwpos := r.width_pos b
    rw [hzero]
    dsimp only
    rw [if_pos iLen_zero, h.table.wClear_eq hb', h.table.wEOD_eq hb', h.table.last]
    by_cases hclear : value % 2 ^ r.width b = 2 ^ b
    · have hstep : r.step b (value % 2 ^ r.width b) = .go [] .empty := by
        rw [step, if_pos hclear]
      have htable := tableOf_clear hb hb' h.table.codeSize
        (by rw [h.table.length, ← hclear]; exact hfits.le) h.table.roots
      rw [if_pos hclear]
      refine ⟨_, rfl, ⟨.empty, value / 2 ^ r.width b, count - r.width b, ?_⟩, ?_, rfl, rfl, hflag⟩
      · refine ⟨?_, htable, ⟨?_, ?_, ?_⟩, ?_, ?_, ?_, h.space⟩
        · have hreaches := Dictionary.Reads.tail h.reaches hle hstep
          rw [List.append_nil] at hreaches
          exact hreaches
        · rw [hclear]
          exact htable.free _ le_rfl (hclear ▸ hfits) (.inl (Nat.lt_add_of_pos_right Nat.two_pos))
        · exact fun _ ↦ ⟨rfl, .inl rfl⟩
        · intro p hp
          cases hp
        · rw [hdiv, hbits, shiftRight_eq_div_pow]
          rfl
        · rw [hcount, hbits]
          rfl
        · rw [hbits, shiftRight_eq_div_pow]
          exact hlt
      · rw [bitsOf, bitsOf, hbits]
        change _ + 8 * d.pbIn.length < _
        dsimp only
        omega
    · rw [if_neg hclear]
      by_cases hend : value % 2 ^ r.width b = 2 ^ b + 1
      · have hstep : r.step b (value % 2 ^ r.width b) = .stop .ended := by
          rw [step, if_neg hclear, if_pos hend]
        rw [if_pos hend]
        exact ⟨_, rfl, rfl, .inr ⟨rfl, h.decoded_of_stop hle hstep rfl rfl rfl rfl⟩⟩
      · have hstep := step_of_ne (r := r) hclear hend
        rw [hs] at hstep
        rw [if_neg hend]
        by_cases hnext : value % 2 ^ r.width b = r.nextCode b
        · rw [if_neg (not_not.mpr hnext)]
          cases hprev : r.prev with
          | none => exact absurd ⟨_, r, value, count, h.reaches, hprev, hle, hnext⟩ hstray
          | some p => exact repeat_ok hb h hflag hwidth hprev hnext hfits hs
        · rw [if_pos hnext]
          have hstop : r.step b (value % 2 ^ r.width b) = .stop .error := by
            rw [hstep]
            cases r.prev with
            | none => rfl
            | some p => exact if_neg hnext
          exact ⟨_, rfl, rfl, rfl, h.decoded_of_stop hle hstop rfl rfl rfl rfl⟩

end Token

end MicroFramework.Graphics.Lzw
