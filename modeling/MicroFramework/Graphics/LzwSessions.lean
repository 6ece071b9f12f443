import MicroFramework.Graphics.LzwRuns

/-!
# Decoding through any buffers

However the data is cut into input blocks and whatever output buffers are supplied, the
decompressor puts out what the data stands for and stops as it stops, without an access outside
its table or its output buffer.
-/

namespace MicroFramework.Graphics.Lzw

open Support Dictionary List Option

/-! ### Sessions -/

/-- How the decompressor stands: at the end, after an error or waiting for input. -/
def Decompressor.status (d : Decompressor) : Option Status :=
  if d.fEnded = true then some .ended
  else if d.fError = true then some .error
  else if d.fNeedInput = true then some .needInput
  else none

/-- The turns that the loop makes from a state of the decompressor. -/
inductive Decompressor.Turns (d : Decompressor) : Decompressor → Locals → Prop
  | start {tokenPrev : ℕ} : d.rgtoken[d.iTokenPrev]? = some tokenPrev →
      Turns d d ⟨d.iInput, d.cbInput, d.iTokenPrev, tokenPrev, d.chPrev⟩
  | next {d₁ d₂ : Decompressor} {l₁ l₂ : Locals} :
      Turns d d₁ l₁ → d₁.turn l₁ = some (.again d₂ l₂) → Turns d d₂ l₂

/-- A decompressor and the contents of the output buffers that it has filled before. -/
structure Session where
  d : Decompressor
  collected : List UInt8

namespace Session

/-- All output. -/
def out (s : Session) : List UInt8 :=
  s.collected ++ s.d.buffer.take s.d.pbOut

def input (s : Session) (block : List UInt8) : Session where
  d := { s.d with pbIn := block, fNeedInput := false }
  collected := s.collected

def output (s : Session) (buffer : List UInt8) : Session where
  d := { s.d with buffer := buffer, pbOut := 0, cbOut := buffer.length, fNeedOutput := false }
  collected := s.out

end Session

/-- The sessions in which the decompressor has been given these bytes, in blocks and with output
buffers of any sizes from 4096 on. -/
inductive Fed (b : ℕ) (before : Decompressor) : List UInt8 → Session → Prop
  | start : Fed b before [] ⟨before.init b, []⟩
  | input {bytes : List UInt8} {s : Session} (block : List UInt8) :
      Fed b before bytes s → s.d.pbIn = [] → Fed b before (bytes ++ block) (s.input block)
  | output {bytes : List UInt8} {s : Session} (buffer : List UInt8) :
      Fed b before bytes s → 4096 ≤ buffer.length → Fed b before bytes (s.output buffer)
  | process {bytes : List UInt8} {s : Session} {more : Bool} {d : Decompressor} :
      Fed b before bytes s → s.d.fProcess = some (more, d) → Fed b before bytes { s with d := d }

variable {b : ℕ} {bytes rest collected : List UInt8} {r r' : Dictionary} {value count : ℕ}
  {d d' : Decompressor} {l l' : Locals} {status : Status}

/-! ### Turns -/

theorem TurnOk.congr {d₁ : Decompressor} {l₁ : Locals} {T : Turn}
    (h : TurnOk b bytes rest collected d₁ l₁ T) (hbits : bitsOf d₁ l₁ = bitsOf d l)
    (hended : d₁.fEnded = d.fEnded) (herror : d₁.fError = d.fError) (hcbOut : d₁.cbOut = d.cbOut) :
    TurnOk b bytes rest collected d l T := by
  cases T with
  | again d' l' =>
    rw [TurnOk, hbits, hended, herror] at h
    exact h
  | leave d' l' =>
    rw [TurnOk, hbits, hended, herror, hcbOut] at h
    exact h
  | failed d' =>
    rw [TurnOk, hended] at h
    exact h

/-- The decompressor has not stopped, and the saved state is that of the loop. -/
structure Running (b : ℕ) (bytes rest collected : List UInt8) (d : Decompressor) : Prop where
  ended : d.fEnded = false
  error : d.fError = false
  sim : ∃ r value count tokenPrev, Sim b bytes rest collected r value count d
    ⟨d.iInput, d.cbInput, d.iTokenPrev, tokenPrev, d.chPrev⟩
  waits : d.fNeedInput = true → d.pbIn = [] ∧ d.cbInput < d.ibitsToken

/-- The decompressor has not stopped, or it has stopped as the data stops. -/
inductive Follows (b : ℕ) (bytes rest collected : List UInt8) (d : Decompressor) : Prop
  | running : Running b bytes rest collected d → Follows b bytes rest collected d
  | ended : d.fEnded = true → Decoded b bytes collected d .ended →
      Follows b bytes rest collected d
  | error : d.fEnded = false → d.fError = true → Decoded b bytes collected d .error →
      Follows b bytes rest collected d

/-- What a process of the decompressor leads to: it has stopped or waits for input, or it waits for
room after reading some bits if there was room for a string. -/
def Settles (d : Decompressor) (bits : ℕ) (d' : Decompressor) : Prop :=
  d'.status ≠ none ∨
    d'.fNeedOutput = true ∧ d'.bitsLeft ≤ bits ∧ (4096 ≤ d.cbOut → d'.bitsLeft < bits)

theorem Sim.save (h : Sim b bytes rest collected r value count d l) :
    Sim b bytes rest collected r value count (d.save l) l :=
  ⟨h.reaches, h.table.congr rfl rfl rfl rfl rfl, ⟨h.prev.entry, h.prev.start, h.prev.string⟩,
    h.value_eq, h.count_eq, h.input_lt, h.space⟩

section Loop

variable (hb : 2 ≤ b) (hb' : b ≤ 8) (hstray : ¬Stray b bytes)
include hb hb' hstray

theorem turn_ok (h : Sim b bytes rest collected r value count d l)
    (hwait : d.fNeedInput = true → d.pbIn = [] ∧ l.cbInput < d.ibitsToken) :
    ∃ T, d.turn l = some T ∧ TurnOk b bytes rest collected d l T := by
  obtain ⟨hvalue, hcount, hfits, hempty⟩ :=
    gather_spec d.ibitsToken d.pbIn rest l.iInput l.cbInput h.input_lt rfl
  have hall := gather_spec d.ibitsToken d.pbIn [] l.iInput l.cbInput h.input_lt rfl
  rw [Decompressor.turn]
  dsimp only
  have hsim : Sim b bytes rest collected r value count
      { d with pbIn := (gather d.ibitsToken d.pbIn l.iInput l.cbInput).1 }
      { l with
        iInput := (gather d.ibitsToken d.pbIn l.iInput l.cbInput).2.1
        cbInput := (gather d.ibitsToken d.pbIn l.iInput l.cbInput).2.2 } := by
    refine ⟨h.reaches, h.table.congr rfl rfl rfl rfl rfl,
      ⟨h.prev.entry, h.prev.start, h.prev.string⟩, ?_, ?_, hfits, h.space⟩
    · exact h.value_eq.trans hvalue.symm
    · rw [h.count_eq, length_append, length_append]
      dsimp only
      omega
  by_cases hshort : (gather d.ibitsToken d.pbIn l.iInput l.cbInput).2.2 < d.ibitsToken
  · rw [if_pos hshort]
    refine ⟨_, rfl, rfl, .inl ⟨⟨r, value, count, ?_⟩, rfl, .inl ⟨rfl, hempty hshort, hshort⟩⟩⟩
    exact ⟨hsim.reaches, hsim.table.congr rfl rfl rfl rfl rfl,
      ⟨hsim.prev.entry, hsim.prev.start, hsim.prev.string⟩, hsim.value_eq, hsim.count_eq,
      hsim.input_lt, hsim.space⟩
  · have hflag : d.fNeedInput = false := by
      rw [Bool.eq_false_iff]
      intro hneed
      obtain ⟨hnil, hlt⟩ := hwait hneed
      rw [hnil] at hshort
      exact hshort hlt
    rw [if_neg hshort]
    have hwidth := h.table.bits.ge.trans (Nat.le_of_not_lt hshort)
    obtain ⟨T, hT, hok⟩ := token_ok hb hb' hstray hsim hflag hwidth
    exact ⟨T, hT, hok.congr hcount rfl rfl rfl⟩

/-! ### The loop -/

/-- The loop ends, and the decompressor has followed the data. -/
theorem loop_ok {fuel : ℕ} (h : Sim b bytes rest collected r value count d l)
    (hwait : d.fNeedInput = true → d.pbIn = [] ∧ l.cbInput < d.ibitsToken)
    (hended : d.fEnded = false) (herror : d.fError = false) (hfuel : bitsOf d l < fuel) :
    ∃ more d', Decompressor.loop fuel d l = some (more, d') ∧
      Follows b bytes rest collected d' ∧ Settles d (bitsOf d l) d' := by
  induction fuel generalizing r value count d l with
  | zero => exact absurd hfuel (Nat.not_lt_zero _)
  | succ fuel ih =>
    obtain ⟨T, hT, hok⟩ := turn_ok hb hb' hstray h hwait
    rw [Decompressor.loop, hT]
    cases T with
    | again d' l' =>
      obtain ⟨⟨r', value', count', hsim⟩, hbits, hended', herror', hflag⟩ := hok
      obtain ⟨more, d'', hloop, hfollows, hsettles⟩ := ih hsim
        (fun hneed ↦ absurd hneed (by rw [hflag]; decide)) (hended'.trans hended)
        (herror'.trans herror) (by omega)
      refine ⟨more, d'', hloop, hfollows, hsettles.imp_right fun ⟨hneed, hle, _⟩ ↦ ?_⟩
      exact ⟨hneed, hle.trans hbits.le, fun _ ↦ hle.trans_lt hbits⟩
    | leave d' l' =>
      obtain ⟨herror', ⟨⟨r', value', count', hsim⟩, hended', hwhy⟩ | ⟨hended', hdecoded⟩⟩ := hok
      · rcases hwhy with ⟨hneed, hnil, hlt⟩ | ⟨hneed, hfull, hle, hroom⟩
        · refine ⟨true, _, rfl, .running ⟨hended'.trans hended, herror'.trans herror,
            ⟨r', value', count', _, hsim.save⟩, fun _ ↦ ⟨hnil, hlt⟩⟩, .inl ?_⟩
          rw [Decompressor.status]
          change (if d'.fEnded = true then _ else if d'.fError = true then _ else
            if d'.fNeedInput = true then _ else _) ≠ _
          rw [hended', hended, herror', herror, hneed]
          decide
        · refine ⟨true, _, rfl, .running ⟨hended'.trans hended, herror'.trans herror,
            ⟨r', value', count', _, hsim.save⟩,
            fun hneed' ↦ absurd (hneed.symm.trans hneed') (by decide)⟩,
            .inr ⟨hfull, hle, fun hlarge ↦ absurd hroom (Nat.not_lt.mpr hlarge)⟩⟩
      · refine ⟨true, _, rfl, .ended hended' ⟨hdecoded.decode_eq, hdecoded.bits, hdecoded.space⟩,
          .inl ?_⟩
        rw [Decompressor.status]
        change (if d'.fEnded = true then _ else _) ≠ _
        rw [hended']
        exact fun hnone ↦ by cases hnone
    | failed d' =>
      obtain ⟨herror', hended', hdecoded⟩ := hok
      refine ⟨false, d', rfl, .error (hended'.trans hended) herror' hdecoded, .inl ?_⟩
      rw [Decompressor.status, hended', hended, herror']
      exact fun hnone ↦ by cases hnone

/-- The turns of the loop stay in the simulation. -/
theorem Running.turns (h : Running b bytes rest collected d) (hturns : d.Turns d' l') :
    ∃ r value count, Sim b bytes rest collected r value count d' l' ∧
      (d'.fNeedInput = true → d'.pbIn = [] ∧ l'.cbInput < d'.ibitsToken) := by
  induction hturns with
  | start htoken =>
    obtain ⟨r, value, count, tokenPrev, hsim⟩ := h.sim
    obtain rfl := some.inj (hsim.prev.entry.symm.trans htoken)
    exact ⟨r, value, count, hsim, h.waits⟩
  | @next d₁ d₂ l₁ l₂ hturns hturn ih =>
    obtain ⟨r, value, count, hsim, hwait⟩ := ih
    obtain ⟨T, hT, hok⟩ := turn_ok hb hb' hstray hsim hwait
    obtain rfl := some.inj (hT.symm.trans hturn)
    obtain ⟨⟨r', value', count', hsim'⟩, -, -, -, hflag⟩ := hok
    exact ⟨r', value', count', hsim', fun hneed ↦ absurd hneed (by rw [hflag]; decide)⟩

theorem process_ok (h : Follows b bytes rest collected d) :
    ∃ more d', d.fProcess = some (more, d') ∧ Follows b bytes rest collected d' ∧
      Settles d d.bitsLeft d' := by
  rw [Decompressor.fProcess]
  cases h with
  | running h =>
    obtain ⟨r, value, count, tokenPrev, hsim⟩ := h.sim
    have hgo : ¬(d.fEnded = true ∨ d.fError = true) := by
      rw [h.ended, h.error]
      decide
    have hentry : d.rgtoken[d.iTokenPrev]? = some tokenPrev := hsim.prev.entry
    rw [if_neg hgo, Decompressor.fHandleNext, hentry]
    exact loop_ok hb hb' hstray hsim h.waits h.ended h.error (Nat.lt_succ_self _)
  | ended hended hdecoded =>
    rw [if_pos (.inl hended)]
    refine ⟨false, d, rfl, .ended hended hdecoded, .inl ?_⟩
    rw [Decompressor.status, if_pos hended]
    exact fun hnone ↦ by cases hnone
  | error hended herror hdecoded =>
    rw [if_pos (.inr herror)]
    refine ⟨false, d, rfl, .error hended herror hdecoded, .inl ?_⟩
    rw [Decompressor.status, hended, herror]
    exact fun hnone ↦ by cases hnone

end Loop

/-! ### Runs -/

/-- What the data and the memory have to be like: after the start and after each clear code the
first code is not the next one; the previous token that is set up before the code size is an entry
of the table, and one without a string unless the data starts with a clear code. -/
structure Sound (b : ℕ) (before : Decompressor) (bytes : List UInt8) : Prop where
  stray : ¬Stray b bytes
  index : before.wClear < ctokens
  start : 2 ^ b ≤ before.wClear ∨ StartsClear b bytes

/-- The decompressor as it is set up. -/
theorem follows_init {before : Decompressor} (hb : 2 ≤ b) (hb' : b ≤ 8)
    (h : Sound b before bytes) : Follows b bytes bytes [] (before.init b) := by
  have hhigh : 2 ^ b ≤ 2 ^ 8 := Nat.pow_le_pow_right (by decide) hb'
  have hcodeSize : b % 2 ^ 8 = b := Nat.mod_eq_of_lt (by omega)
  have hclear : 2 ^ (b % 2 ^ 8) % 2 ^ 16 = 2 ^ b := by
    rw [hcodeSize, Nat.mod_eq_of_lt (hhigh.trans_lt (by decide))]
  have hroots : ∀ (more : List ℕ), ∀ c < 2 ^ b,
      ((List.range (2 ^ (b % 2 ^ 8) % 2 ^ 16)).map (fun i ↦ chToken (UInt8.ofNat i)) ++ more)[c]? =
        some (chToken (UInt8.ofNat c)) := by
    intro more c hc
    rw [hclear, getElem?_append_left (by rw [length_map, length_range]; exact hc),
      getElem?_map, getElem?_range hc]
    rfl
  have hlength : ∀ (more : List ℕ), 2 ^ b ≤
      ((List.range (2 ^ (b % 2 ^ 8) % 2 ^ 16)).map (fun i ↦ chToken (UInt8.ofNat i)) ++
        more).length := by
    intro more
    rw [hclear, length_append, length_map, length_range]
    exact Nat.le_add_right _ _
  have htable : TableOf b .empty (before.init b) :=
    tableOf_clear hb hb' hcodeSize (hlength _) (hroots _)
  have hindex : before.wClear < (before.init b).rgtoken.length := by
    rw [htable.length]
    exact h.index
  obtain ⟨tokenPrev, hentry⟩ : ∃ t, (before.init b).rgtoken[before.wClear]? = some t :=
    ⟨_, getElem?_eq_getElem hindex⟩
  refine .running ⟨rfl, rfl, ⟨.empty, leValue bytes, 8 * bytes.length, tokenPrev, ?_⟩,
    fun _ ↦ ⟨rfl, ?_⟩⟩
  · refine ⟨.refl, htable, ⟨hentry, ?_, fun p hp ↦ (by cases hp)⟩,
      ?_, ?_, Nat.one_pos, rfl⟩
    · refine fun _ ↦ ⟨rfl, ?_⟩
      rcases h.start with hfree | hstart
      · have hzero := htable.free before.wClear hfree h.index (Nat.lt_or_ge _ _)
        exact .inl (some.inj (hentry.symm.trans hzero))
      · rw [width_empty hb hb']
        exact .inr hstart
    · change leValue bytes = 0 + 2 ^ 0 * leValue bytes
      rw [Nat.zero_add, Nat.pow_zero, Nat.one_mul]
    · exact (Nat.zero_add _).symm
  · rw [htable.bits]
    exact width_pos b _

/-- The next block is the start of what is still to come. -/
theorem Follows.input {block : List UInt8} (h : Follows b bytes (block ++ rest) collected d)
    (hnil : d.pbIn = []) :
    Follows b bytes rest collected { d with pbIn := block, fNeedInput := false } := by
  cases h with
  | running h =>
    obtain ⟨r, value, count, tokenPrev, hsim⟩ := h.sim
    refine .running ⟨h.ended, h.error, ⟨r, value, count, tokenPrev, ?_⟩, fun hneed ↦ by cases hneed⟩
    have hvalue := hsim.value_eq
    have hcount := hsim.count_eq
    rw [hnil] at hvalue hcount
    exact ⟨hsim.reaches, hsim.table.congr rfl rfl rfl rfl rfl,
      ⟨hsim.prev.entry, hsim.prev.start, hsim.prev.string⟩, hvalue, hcount, hsim.input_lt,
      hsim.space⟩
  | ended hended hdecoded => exact .ended hended ⟨hdecoded.decode_eq, hdecoded.bits, hdecoded.space⟩
  | error hended herror hdecoded =>
    exact .error hended herror ⟨hdecoded.decode_eq, hdecoded.bits, hdecoded.space⟩

/-- The output so far stays in front of the next buffer. -/
theorem Follows.output (h : Follows b bytes rest collected d) (buffer : List UInt8) :
    Follows b bytes rest (collected ++ d.buffer.take d.pbOut)
      { d with buffer := buffer, pbOut := 0, cbOut := buffer.length, fNeedOutput := false } := by
  have hspace : 0 + buffer.length = buffer.length := Nat.zero_add _
  have hout : collected ++ d.buffer.take d.pbOut ++ buffer.take 0 =
      collected ++ d.buffer.take d.pbOut := by rw [take_zero, append_nil]
  cases h with
  | running h =>
    obtain ⟨r, value, count, tokenPrev, hsim⟩ := h.sim
    refine .running ⟨h.ended, h.error, ⟨r, value, count, tokenPrev, ?_⟩, h.waits⟩
    refine ⟨?_, hsim.table.congr rfl rfl rfl rfl rfl,
      ⟨hsim.prev.entry, hsim.prev.start, hsim.prev.string⟩, hsim.value_eq, hsim.count_eq,
      hsim.input_lt, hspace⟩
    dsimp only
    rw [hout]
    exact hsim.reaches
  | ended hended hdecoded =>
    refine .ended hended ⟨?_, hdecoded.bits, hspace⟩
    dsimp only
    rw [hout, hdecoded.decode_eq]
  | error hended herror hdecoded =>
    refine .error hended herror ⟨?_, hdecoded.bits, hspace⟩
    dsimp only
    rw [hout, hdecoded.decode_eq]

theorem Fed.follows {before : Decompressor} {s : Session} (hb : 2 ≤ b) (hb' : b ≤ 8)
    (h : Fed b before bytes s) (rest : List UInt8) (hsound : Sound b before (bytes ++ rest)) :
    Follows b (bytes ++ rest) rest s.collected s.d := by
  induction h generalizing rest with
  | start => exact follows_init hb hb' hsound
  | @input bytes s block _ hnil ih =>
    rw [append_assoc] at hsound ⊢
    exact (ih (block ++ rest) hsound).input hnil
  | @output bytes s buffer _ hsize ih => exact (ih rest hsound).output buffer
  | @process bytes s more d _ hprocess ih =>
    obtain ⟨more', d', hd', hfollows, -⟩ := process_ok hb hb' hsound.stray (ih rest hsound)
    obtain ⟨-, rfl⟩ := Prod.mk.inj (some.inj (hprocess.symm.trans hd'))
    exact hfollows

/-! ### The output and the end -/

structure Decodes (b : ℕ) (bytes : List UInt8) (s : Session) : Prop where
  /-- A process of the decompressor stays inside the table and the output buffer. -/
  defined : s.d.fProcess ≠ none
  space : s.d.pbOut + s.d.cbOut = s.d.buffer.length
  bits : s.d.ibitsToken ≤ 12
  /-- The codes are never wider inside the loop either. -/
  turns : s.d.fEnded = false → s.d.fError = false →
    ∀ d' l', s.d.Turns d' l' → d'.ibitsToken ≤ 12
  /-- The output is the start of what the data stands for. -/
  output : s.out <+: (decode b bytes).1
  /-- The output and the end are those of the data. -/
  final : ∀ status, s.d.status = some status → decode b bytes = (s.out, status)
  /-- With room for a string a process stops, waits for input or reads some bits. -/
  progress : 4096 ≤ s.d.cbOut → ∀ more d', s.d.fProcess = some (more, d') →
    d'.status ≠ none ∨ d'.fNeedOutput = true ∧ d'.bitsLeft < s.d.bitsLeft

theorem decode_of_sim (h : Sim b bytes rest collected r value count d l) :
    decode b bytes = (collected ++ d.buffer.take d.pbOut ++ (r.decodeFrom b value count).1,
      (r.decodeFrom b value count).2) :=
  h.reaches.decodeFrom_eq

/-- However sound data is cut into blocks and whatever output buffers are supplied, the output and
the end are those of the data. -/
theorem decodes_of_sound {b : ℕ} {before : Decompressor} {bytes : List UInt8} {s : Session}
    (hb : 2 ≤ b) (hb' : b ≤ 8) (hsound : Sound b before bytes) (h : Fed b before bytes s) :
    Decodes b bytes s := by
  have hsound' : Sound b before (bytes ++ []) := by rwa [append_nil]
  have hfollows := h.follows hb hb' [] hsound'
  obtain ⟨more, d', hprocess, -, hsettles⟩ := process_ok hb hb' hsound'.stray hfollows
  rw [append_nil] at hfollows
  have hdefined : s.d.fProcess ≠ none := by
    rw [hprocess]
    exact fun hnone ↦ by cases hnone
  have hprogress : 4096 ≤ s.d.cbOut → ∀ more d', s.d.fProcess = some (more, d') →
      d'.status ≠ none ∨ d'.fNeedOutput = true ∧ d'.bitsLeft < s.d.bitsLeft := by
    intro hroom more' d'' hprocess'
    obtain ⟨-, rfl⟩ := Prod.mk.inj (some.inj (hprocess.symm.trans hprocess'))
    exact hsettles.imp_right fun ⟨hneed, _, hless⟩ ↦ ⟨hneed, hless hroom⟩
  cases hfollows with
  | running hrunning =>
    obtain ⟨r, value, count, tokenPrev, hsim⟩ := hrunning.sim
    refine ⟨hdefined, hsim.space, ?_, fun _ _ d₁ l₁ hturns ↦ ?_, ?_, fun status hstatus ↦ ?_,
      hprogress⟩
    · rw [hsim.table.bits]
      exact width_le b r
    · obtain ⟨r₁, value₁, count₁, hsim₁, -⟩ := hrunning.turns hb hb' hsound.stray hturns
      rw [hsim₁.table.bits]
      exact width_le b r₁
    · rw [decode_of_sim hsim]
      exact prefix_append _ _
    · rw [Decompressor.status, hrunning.ended, hrunning.error] at hstatus
      by_cases hneed : s.d.fNeedInput = true
      · obtain ⟨hnil, hlt⟩ := hrunning.waits hneed
        rw [hneed] at hstatus
        obtain rfl := some.inj hstatus
        have hcount : count < r.width b := by
          rw [hsim.count_eq, hnil, ← hsim.table.bits]
          exact hlt
        rw [decode_of_sim hsim, decodeFrom_of_lt hcount, append_nil]
        rfl
      · rw [Bool.eq_false_iff.mpr hneed] at hstatus
        cases hstatus
  | ended hended hdecoded =>
    refine ⟨hdefined, hdecoded.space, hdecoded.bits, fun hrun ↦ absurd (hended.symm.trans hrun)
      (by decide), ?_, fun status hstatus ↦ ?_, hprogress⟩
    · rw [hdecoded.decode_eq]
      exact prefix_rfl
    · rw [Decompressor.status, if_pos hended] at hstatus
      obtain rfl := some.inj hstatus
      exact hdecoded.decode_eq
  | error hended herror hdecoded =>
    refine ⟨hdefined, hdecoded.space, hdecoded.bits, fun _ hrun ↦ absurd (herror.symm.trans hrun)
      (by decide), ?_, fun status hstatus ↦ ?_, hprogress⟩
    · rw [hdecoded.decode_eq]
      exact prefix_rfl
    · rw [Decompressor.status, hended, herror] at hstatus
      obtain rfl := some.inj hstatus
      exact hdecoded.decode_eq

/-! ### Two short sessions -/

/-- Memory that holds the code size of the data. -/
def sampleMemory : Decompressor where
  bcodeSize := 2
  ibitsToken := 0
  itokenLast := 0
  chPrev := 0
  fEnded := false
  fError := false
  iInput := 0
  cbInput := 0
  iTokenPrev := 0
  rgtoken := []
  pbIn := []
  buffer := []
  pbOut := 0
  cbOut := 0
  fNeedInput := false
  fNeedOutput := false

/-- The decompressor with one output buffer and one block. -/
def sampleSession (block : List UInt8) : Session :=
  ((⟨sampleMemory.init 2, []⟩ : Session).output (replicate 4096 0)).input block

theorem fed_sampleSession (block : List UInt8) : Fed 2 sampleMemory block (sampleSession block) :=
  .input block (.output _ .start (length_replicate.ge)) rfl

theorem fProcess_sampleSession_stray :
    ((sampleSession [0x34, 0x0A]).d.fProcess.map
      fun result ↦ result.2.buffer.take result.2.pbOut) = some [0, 0] := by
  decide +kernel

theorem decode_stray : decode 2 [0x34, 0x0A] = ([], .error) := by
  have hwidth : empty.width 2 = 3 := width_empty (by decide) (by decide)
  have hclear : empty.step 2 (leValue [0x34, 0x0A] % 2 ^ 3) = .go [] .empty := rfl
  have hnext : empty.step 2 (leValue [0x34, 0x0A] / 2 ^ 3 % 2 ^ 3) = .stop .error := rfl
  rw [decode, decodeFrom_of_go (by rw [hwidth]; decide) (by rw [hwidth, hclear]),
    hwidth, decodeFrom_of_stop (by rw [hwidth]; decide) (by rw [hwidth, hnext])]
  rfl

/-- The next code right after a clear code is not taken as an error. -/
theorem not_decodes_of_stray :
    ¬ ∀ (b : ℕ) (before : Decompressor) (bytes : List UInt8) (s : Session), 2 ≤ b → b ≤ 8 →
      Fed b before bytes s → Decodes b bytes s := by
  intro hall
  obtain ⟨result, hprocess, hout⟩ := map_eq_some_iff.mp fProcess_sampleSession_stray
  have hdecodes := hall 2 sampleMemory [0x34, 0x0A] _ (by decide) (by decide)
    (.process (fed_sampleSession _) hprocess)
  have houtput := hdecodes.output
  rw [decode_stray, Session.out] at houtput
  dsimp only at houtput
  rw [hout] at houtput
  exact absurd (prefix_nil.mp houtput) (by decide)

namespace Dictionary

/-- The first code that is read. -/
theorem Reads.head {out : List UInt8} {r₀ : Dictionary} {value₀ count₀ : ℕ}
    (h : Reads b r₀ value₀ count₀ out r value count) :
    r = r₀ ∧ value = value₀ ∧ count = count₀ ∨
      ∃ more r' out', r₀.step b (value₀ % 2 ^ r₀.width b) = .go more r' ∧
        Reads b r' (value₀ / 2 ^ r₀.width b) (count₀ - r₀.width b) out' r value count := by
  induction h with
  | refl => exact .inl ⟨rfl, rfl, rfl⟩
  | tail _ hwidth hstep ih =>
    rcases ih with ⟨rfl, rfl, rfl⟩ | ⟨more, r', out', hfirst, hreads⟩
    · exact .inr ⟨_, _, [], hstep, .refl⟩
    · exact .inr ⟨more, r', _, hfirst, .tail hreads hwidth hstep⟩

end Dictionary

/-- A clear code, a character and the end code. -/
theorem sound_sample : Sound 2 sampleMemory [0x44, 0x01] := by
  refine ⟨?_, by decide, .inl (by decide)⟩
  rintro ⟨out, r, value, count, hreaches, hnone, -, hnext⟩
  have hempty : empty.width 2 = 3 := width_empty (by decide) (by decide)
  have hfirst : width 2 ⟨[], some [0]⟩ = 3 := hempty
  rcases Dictionary.Reads.head hreaches with ⟨rfl, rfl, rfl⟩ | ⟨more, r', out', hstep, hreaches⟩
  · rw [hempty] at hnext
    exact absurd hnext (by decide)
  · rw [hempty] at hstep hreaches
    obtain ⟨rfl, rfl⟩ := Dictionary.Reply.go.inj (hstep.symm.trans rfl)
    rcases hreaches.head with ⟨rfl, rfl, rfl⟩ | ⟨more, r', out', hstep, hreaches⟩
    · rw [hempty] at hnext
      exact absurd hnext (by decide)
    · rw [hempty] at hstep hreaches
      have hzero : empty.step 2 (leValue [0x44, 0x01] / 2 ^ 3 % 2 ^ 3) =
          .go [0] ⟨[], some [0]⟩ := rfl
      obtain ⟨rfl, rfl⟩ := Dictionary.Reply.go.inj (hstep.symm.trans hzero)
      rcases hreaches.head with ⟨rfl, rfl, rfl⟩ | ⟨more, r', out', hstep, -⟩
      · cases hnone
      · rw [hfirst] at hstep
        have hend : step 2 ⟨[], some [0]⟩
            (leValue [0x44, 0x01] / 2 ^ 3 / 2 ^ 3 % 2 ^ 3) = .stop .ended := rfl
        exact absurd (hstep.symm.trans hend) (by simp)

theorem fProcess_sampleSession : ((sampleSession [0x44, 0x01]).d.fProcess.map
    fun result ↦ (result.2.buffer.take result.2.pbOut, result.2.status)) =
      some ([0], some .ended) := by
  decide +kernel

/-- A short session gives its character and the end. -/
theorem decodes_sample : decode 2 [0x44, 0x01] = ([0], .ended) := by
  obtain ⟨result, hprocess, hresult⟩ := map_eq_some_iff.mp fProcess_sampleSession
  obtain ⟨hout, hstatus⟩ := Prod.mk.inj hresult
  have hdecodes := decodes_of_sound (by decide) (by decide) sound_sample
    (.process (fed_sampleSession _) hprocess)
  have hfinal := hdecodes.final _ hstatus
  rw [hfinal, Session.out]
  dsimp only
  rw [hout]
  rfl

end MicroFramework.Graphics.Lzw
