import Mathlib.Data.UInt
import MicroFramework.Library.Runs
import MicroFramework.Library.Simulation

/-!
# The attributes of the MAC layer

The requests of the upper layer that read and write the attributes, and the registers they should
be.  A value is cast to a byte or a word before it is brought into the range of its attribute, so
that only some values outside the byte go to the nearest bound, and the superframe order reads as
the beacon order.  The backoff exponents keep their order in every run.
-/

namespace MicroFramework.Wireless

open Library Function Option Int32

/-! ## The data of the requests -/

inductive PibAttribute
  | phyCurrentChannel
  | phyChannelsSupported
  | phyTransmitPower
  | phyCCAMode
  | phyCurrentPage
  | phyMaxFrameDuration
  | phySHRDuration
  | phySymbolsPerOctet
  | macAckWaitDuration
  | macAssociatedPANCoord
  | macAssociationPermit
  | macAutoRequest
  | macBattLifeExt
  | macBattLifeExtPeriods
  | macBeaconPayload
  | macBeaconOrder
  | macBeaconTxTime
  | macBSN
  | macCoordExtendedAddress
  | macCoordShortAddress
  | macDSN
  | macGTSPermit
  | macMaxBE
  | macMaxCSMABackoffs
  | macMaxFrameTotalWaitTime
  | macMaxFrameRetries
  | macMinBE
  | macPanId
  | macPromiscuousMode
  | macResponseWaitTime
  | macRxOnWhenIdle
  | macSecurityEnabled
  | macShortAddress
  | macSuperframeOrder
  | macSyncSymbolOffset
  | macTimestampSupported
  | macTransactionPersistenceTime
  deriving DecidableEq

/-- The value of an attribute with its type.  A float is given by its bits; an array or a frame may
be null, and a frame is given by its bytes. -/
inductive PibValue
  | undefined
  | int (value : Int32)
  | intArray (value : Option (List Int32))
  | float (bits : UInt32)
  | bool (value : Bool)
  | frame (value : Option (List UInt8))
  deriving DecidableEq

/-- The results of requests to the MAC layer that this development uses. -/
inductive MacEnum
  | success
  | channelAccessFailure
  | frameTooLong
  | invalidParameter
  | noAck
  | unsupportedAttribute
  | congested
  | notImplemented
  deriving DecidableEq

inductive PhyStatus
  | busy
  | busyRx
  | busyTx
  | forceTxOff
  | idle
  | invalidParam
  | rxOn
  | success
  | tRxOff
  | txOn
  | unsupportedAttr
  | readOnly
  deriving DecidableEq

/-- The PHY layer as far as its own attributes go. -/
structure Phy (σ : Type*) where
  getRequest : σ → PibAttribute → PhyStatus × PibValue
  setRequest : σ → PibAttribute → PibValue → σ × PhyStatus

/-- What the PHY layer was last told to filter by. -/
structure AddressFilter where
  enable : Bool
  shortAddr : UInt16
  panId : UInt16
  panCoordinator : Bool
  deriving DecidableEq

/-- The state variables of the MAC layer. -/
structure State (σ : Type*) where
  phy : σ
  aExtendedAddress : UInt64
  phySupports2006 : Bool
  macBeaconOrder : UInt8
  macSuperframeOrder : UInt8
  macMinBE : UInt8
  macMaxBE : UInt8
  macMaxCSMABackoffs : UInt8
  macMaxFrameRetries : UInt8
  macDSN : UInt8
  macBSN : UInt8
  macPanId : UInt16
  macShortAddr : UInt16
  macPromiscousMode : Bool
  panCoordinator : Bool
  macBeaconPayload : Option (List UInt8)
  addressFilter : AddressFilter

inductive Task
  | getRequest (attr : PibAttribute) (attributeIndex : Int32) (handler : Bool)
  | setRequest (attr : PibAttribute) (index : Int32) (value : PibValue) (handler : Bool)
  deriving DecidableEq

/-- What the handler of a request is invoked with. -/
inductive Confirm
  | get (status : MacEnum) (attr : PibAttribute) (attributeIndex : Int32) (value : PibValue)
  | set (status : MacEnum) (attr : PibAttribute) (index : Int32)
  deriving DecidableEq

section Requests

variable {σ : Type*}

namespace State

def cReservedShortAddr : UInt16 := 0xFFFF

def cBroadcastPanId : UInt16 := 0xFFFF

def updateAddressFilter (s : State σ) : State σ :=
  { s with addressFilter := ⟨!s.macPromiscousMode, s.macShortAddr, s.macPanId, s.panCoordinator⟩ }

def reset (s : State σ) (macDSN macBSN : UInt8) : State σ :=
  updateAddressFilter
    { s with
      macBeaconOrder := 15
      macSuperframeOrder := 15
      macMinBE := 3
      macMaxBE := 5
      macMaxCSMABackoffs := 4
      macMaxFrameRetries := 3
      macDSN := macDSN
      macBSN := macBSN
      macPanId := cBroadcastPanId
      macShortAddr := cReservedShortAddr
      macPromiscousMode := false
      panCoordinator := false
      macBeaconPayload := none }

def setMacPanId (s : State σ) (value : UInt16) : State σ :=
  if value ≠ s.macPanId then updateAddressFilter { s with macPanId := value } else s

def setMacShortAddr (s : State σ) (value : UInt16) : State σ :=
  if value ≠ s.macShortAddr then updateAddressFilter { s with macShortAddr := value } else s

def setMacPromiscousMode (s : State σ) (value : Bool) : State σ :=
  if value ≠ s.macPromiscousMode then updateAddressFilter { s with macPromiscousMode := value }
  else s

end State

/-- The cast of an integer to a byte keeps its low bits. -/
def byteOf (value : Int32) : UInt8 :=
  value.toUInt32.toUInt8

def wordOf (value : Int32) : UInt16 :=
  value.toUInt32.toUInt16

def intOfByte (value : UInt8) : Int32 :=
  ofNat value.toNat

def intOfWord (value : UInt16) : Int32 :=
  ofNat value.toNat

def fixParameter (value min max : UInt8) : UInt8 :=
  if value < min then min else if value > max then max else value

/-- A value of the PHY layer has one of three types. -/
def phyValue : PibValue → PibValue
  | .int value => .int value
  | .intArray value => .intArray value
  | .float bits => .float bits
  | _ => .undefined

namespace State

def getRequest (phy : Phy σ) (s : State σ) (attr : PibAttribute) : MacEnum × PibValue :=
  match attr with
  | .phyCurrentChannel | .phyChannelsSupported | .phyTransmitPower | .phyCCAMode | .phyCurrentPage
  | .phyMaxFrameDuration | .phySHRDuration | .phySymbolsPerOctet =>
    match phy.getRequest s.phy attr with
    | (.success, value) => (.success, phyValue value)
    | _ => (.unsupportedAttribute, .undefined)
  | .macBeaconPayload => (.success, .frame s.macBeaconPayload)
  | .macPanId => (.success, .int (intOfWord s.macPanId))
  | .macPromiscuousMode => (.success, .bool s.macPromiscousMode)
  | .macShortAddress => (.success, .int (intOfWord s.macShortAddr))
  | .macBeaconOrder => (.success, .int (intOfByte s.macBeaconOrder))
  | .macSuperframeOrder => (.success, .int (intOfByte s.macBeaconOrder))
  | .macMinBE => (.success, .int (intOfByte s.macMinBE))
  | .macMaxBE => (.success, .int (intOfByte s.macMaxBE))
  | .macMaxCSMABackoffs => (.success, .int (intOfByte s.macMaxCSMABackoffs))
  | .macMaxFrameRetries => (.success, .int (intOfByte s.macMaxFrameRetries))
  | _ => (.unsupportedAttribute, .undefined)

def setInt (s : State σ) (value : PibValue) (assign : Int32 → State σ) : State σ × MacEnum :=
  match value with
  | .int value => (assign value, .success)
  | _ => (s, .invalidParameter)

def setMacMaxBE (s : State σ) (value : UInt8) : State σ :=
  let s := { s with macMaxBE := value }
  if s.macMinBE > s.macMaxBE then { s with macMinBE := s.macMaxBE } else s

def setRequest (phy : Phy σ) (s : State σ) (attr : PibAttribute) (value : PibValue) :
    State σ × MacEnum :=
  match attr with
  | .phyCurrentChannel | .phyChannelsSupported | .phyTransmitPower | .phyCCAMode | .phyCurrentPage
  | .phyMaxFrameDuration | .phySHRDuration | .phySymbolsPerOctet =>
    match phy.setRequest s.phy attr (phyValue value) with
    | (phy', .success) => ({ s with phy := phy' }, .success)
    | (phy', .invalidParam) => ({ s with phy := phy' }, .invalidParameter)
    | (phy', _) => ({ s with phy := phy' }, .unsupportedAttribute)
  | .macBeaconPayload =>
    match value with
    | .frame value => ({ s with macBeaconPayload := value }, .success)
    | _ => (s, .invalidParameter)
  | .macPanId => s.setInt value fun value ↦ s.setMacPanId (wordOf value)
  | .macPromiscuousMode =>
    match value with
    | .bool value => (s.setMacPromiscousMode value, .success)
    | _ => (s, .invalidParameter)
  | .macShortAddress => s.setInt value fun value ↦ s.setMacShortAddr (wordOf value)
  | .macBeaconOrder =>
    s.setInt value fun value ↦ { s with macBeaconOrder := fixParameter (byteOf value) 0 15 }
  | .macSuperframeOrder =>
    s.setInt value fun value ↦ { s with macSuperframeOrder := fixParameter (byteOf value) 0 15 }
  | .macMinBE =>
    s.setInt value fun value ↦ { s with macMinBE := fixParameter (byteOf value) 0 s.macMaxBE }
  | .macMaxBE => s.setInt value fun value ↦ s.setMacMaxBE (fixParameter (byteOf value) 3 8)
  | .macMaxCSMABackoffs =>
    s.setInt value fun value ↦ { s with macMaxCSMABackoffs := fixParameter (byteOf value) 0 5 }
  | .macMaxFrameRetries =>
    s.setInt value fun value ↦ { s with macMaxFrameRetries := fixParameter (byteOf value) 0 7 }
  | _ => (s, .unsupportedAttribute)

/-- One task.  A request for a value without a handler is not looked at. -/
def process (phy : Phy σ) (s : State σ) : Task → Option (State σ × Option Confirm)
  | .getRequest attr attributeIndex handler =>
    if handler then
      let result := s.getRequest phy attr
      some (s, some (.get result.1 attr attributeIndex result.2))
    else some (s, none)
  | .setRequest attr index value handler =>
    let result := s.setRequest phy attr value
    some (result.1, if handler then some (.set result.2 attr index) else none)

end State

end Requests

/-! ## The registers -/

abbrev Registers := PibAttribute → PibValue

/-- The nearest integer between two bounds. -/
def clamp (min max value : Int32) : Int32 :=
  if value < min then min else if max < value then max else value

namespace Registers

def maxBE (r : Registers) : Int32 :=
  match r .macMaxBE with
  | .int value => value
  | _ => 0

def range (r : Registers) : PibAttribute → Option (Int32 × Int32)
  | .macPanId | .macShortAddress => some (0, 65535)
  | .macBeaconOrder | .macSuperframeOrder => some (0, 15)
  | .macMinBE => some (0, r.maxBE)
  | .macMaxBE => some (3, 8)
  | .macMaxCSMABackoffs => some (0, 5)
  | .macMaxFrameRetries => some (0, 7)
  | _ => none

/-- The upper exponent lowers the other one that is above it. -/
def lowered (r : Registers) : Registers :=
  match r .macMinBE with
  | .int value => if r.maxBE < value then update r .macMinBE (.int r.maxBE) else r
  | _ => r

def assign (r : Registers) (attr : PibAttribute) (value : Int32) : Registers :=
  let updated : Registers := update r attr (.int value)
  if attr = .macMaxBE then updated.lowered else updated

def set (r : Registers) (attr : PibAttribute) (value : PibValue) : Option Registers :=
  match attr, value, r.range attr with
  | .macPromiscuousMode, .bool _, _ => some (update r attr value)
  | _, .int value, some (min, max) => some (r.assign attr (clamp min max value))
  | _, _, _ => none

end Registers

/-- The attributes that the MAC layer keeps as numbers or as a flag. -/
def PibAttribute.supported : PibAttribute → Bool
  | .macPanId | .macShortAddress | .macPromiscuousMode | .macBeaconOrder | .macSuperframeOrder
  | .macMinBE | .macMaxBE | .macMaxCSMABackoffs | .macMaxFrameRetries => true
  | _ => false

/-- What registers answer to a task.  Other attributes than theirs leave them alone. -/
def Registers.Answers (r : Registers) (task : Task) (confirm : Option Confirm) (r' : Registers) :
    Prop :=
  match task with
  | .getRequest attr attributeIndex handler =>
    r' = r ∧ (attr.supported →
      confirm = if handler then some (.get .success attr attributeIndex (r attr)) else none)
  | .setRequest attr index value handler =>
    if attr.supported then
      ∃ status, confirm = (if handler then some (.set status attr index) else none) ∧
        match r.set attr value with
        | some updated => status = .success ∧ r' = updated
        | none => status ≠ .success ∧ r' = r
    else r' = r

/-! ## Casts and bounds -/

theorem toInt_intOfByte (b : UInt8) : (intOfByte b).toInt = b.toNat := by
  have hb := b.toNat_lt
  exact toInt_ofNat_of_lt (by omega)

theorem toInt_intOfWord (w : UInt16) : (intOfWord w).toInt = w.toNat := by
  have hw := w.toNat_lt
  exact toInt_ofNat_of_lt (by omega)

theorem toNat_toUInt32 (value : Int32) : (value.toUInt32.toNat : ℤ) = value.toInt % 2 ^ 32 := by
  have hcast : value.toInt = (value.toUInt32.toNat : ℤ).bmod (2 ^ 32) :=
    BitVec.toInt_eq_toNat_bmod _
  have hlt := value.toUInt32.toNat_lt
  rw [hcast, Int.bmod_def]
  split <;> omega

theorem toNat_byteOf (value : Int32) : ((byteOf value).toNat : ℤ) = value.toInt % 256 := by
  have hlow : (byteOf value).toNat = value.toUInt32.toNat % 256 := UInt32.toNat_toUInt8 _
  have hcast := toNat_toUInt32 value
  omega

theorem toNat_wordOf (value : Int32) : ((wordOf value).toNat : ℤ) = value.toInt % 65536 := by
  have hlow : (wordOf value).toNat = value.toUInt32.toNat % 65536 := UInt32.toNat_toUInt16 _
  have hcast := toNat_toUInt32 value
  omega

theorem toNat_fixParameter {min max : UInt8} (h : min ≤ max) (value : UInt8) :
    (fixParameter value min max).toNat = Max.max min.toNat (Min.min max.toNat value.toNat) := by
  have hle : min.toNat ≤ max.toNat := UInt8.le_iff_toNat_le.mp h
  rw [fixParameter]
  simp only [gt_iff_lt, UInt8.lt_iff_toNat_lt]
  split
  · omega
  · split <;> omega

theorem toInt_clamp {min max : Int32} (h : min ≤ max) (value : Int32) :
    (clamp min max value).toInt = Max.max min.toInt (Min.min max.toInt value.toInt) := by
  have hle : min.toInt ≤ max.toInt := le_iff_toInt_le.mp h
  rw [clamp]
  simp only [lt_iff_toInt_lt]
  split
  · omega
  · split <;> omega

/-- What a cast leaves of a value outside its size is beyond the bound on that side. -/
def CastFits (size low high value : ℤ) : Prop :=
  (value < 0 → value % size ≤ low) ∧ (size ≤ value → high ≤ value % size)

/-- What a cast leaves has the bounds of the value exactly when the cast fits. -/
theorem clamp_emod_iff {size low high : ℤ} (hlow : 0 ≤ low) (hlt : low < high)
    (hhigh : high < size) (value : ℤ) :
    max low (min high (value % size)) = max low (min high value) ↔
      CastFits size low high value := by
  have hnonneg : 0 ≤ value % size := Int.emod_nonneg _ (by omega)
  have hsize : value % size < size := Int.emod_lt_of_pos _ (by omega)
  rw [CastFits, imp_iff_not_or, imp_iff_not_or]
  by_cases hinside : 0 ≤ value ∧ value < size
  · rw [Int.emod_eq_of_lt hinside.1 hinside.2]
    omega
  · simp only [max_def, min_def]
    split_ifs <;> omega

theorem fixParameter_eq_clamp_iff {low high : UInt8} (h : low < high) (value : Int32) :
    intOfByte (fixParameter (byteOf value) low high) =
        clamp (intOfByte low) (intOfByte high) value ↔
      CastFits 256 low.toNat high.toNat value.toInt := by
  have hlt : low.toNat < high.toNat := UInt8.lt_iff_toNat_lt.mp h
  have hle : low ≤ high := UInt8.le_iff_toNat_le.mpr (Nat.le_of_lt hlt)
  have hhigh := high.toNat_lt
  have hcast := toNat_byteOf value
  have hint : intOfByte low ≤ intOfByte high := by
    rw [le_iff_toInt_le, toInt_intOfByte, toInt_intOfByte]
    omega
  rw [← toInt_inj, toInt_intOfByte, toNat_fixParameter hle, toInt_clamp hint, toInt_intOfByte,
    toInt_intOfByte, ← clamp_emod_iff (by omega) (by omega) (by omega)]
  omega

theorem wordOf_eq_clamp_iff (value : Int32) :
    intOfWord (wordOf value) = clamp 0 65535 value ↔ CastFits 65536 0 65535 value.toInt := by
  have hword := (wordOf value).toNat_lt
  have hcast := toNat_wordOf value
  have hclamp : (clamp 0 65535 value).toInt = Max.max 0 (Min.min 65535 value.toInt) :=
    toInt_clamp (by decide) value
  rw [← toInt_inj, toInt_intOfWord, hclamp, ← clamp_emod_iff (by omega) (by omega) (by omega)]
  omega

/-! ## The registers of a state -/

section Steps

variable {σ : Type*} {phy : Phy σ} {s s' : State σ}

namespace State

/-- What each attribute should read as. -/
def registers (s : State σ) : Registers
  | .macPanId => .int (intOfWord s.macPanId)
  | .macPromiscuousMode => .bool s.macPromiscousMode
  | .macShortAddress => .int (intOfWord s.macShortAddr)
  | .macBeaconOrder => .int (intOfByte s.macBeaconOrder)
  | .macSuperframeOrder => .int (intOfByte s.macSuperframeOrder)
  | .macMinBE => .int (intOfByte s.macMinBE)
  | .macMaxBE => .int (intOfByte s.macMaxBE)
  | .macMaxCSMABackoffs => .int (intOfByte s.macMaxCSMABackoffs)
  | .macMaxFrameRetries => .int (intOfByte s.macMaxFrameRetries)
  | _ => .undefined

/-- The exponents are in their ranges. -/
structure Sound (s : State σ) : Prop where
  min_le : s.macMinBE ≤ s.macMaxBE
  three_le : 3 ≤ s.macMaxBE
  le_eight : s.macMaxBE ≤ 8

theorem sound_reset (s : State σ) (macDSN macBSN : UInt8) : (s.reset macDSN macBSN).Sound :=
  ⟨(by decide : (3 : UInt8) ≤ 5), (by decide : (3 : UInt8) ≤ 5), (by decide : (5 : UInt8) ≤ 8)⟩

/-- What an attribute that is a byte or a word is set to. -/
def castSize : PibAttribute → ℤ
  | .macPanId | .macShortAddress => 65536
  | _ => 256

/-- A task that the registers can follow: an integer whose cast fits its range, and any value but
the superframe order, or the latter while it is the beacon order. -/
def Fits (s : State σ) : Task → Prop
  | .getRequest attr _ handler =>
    attr = .macSuperframeOrder → handler → s.macSuperframeOrder = s.macBeaconOrder
  | .setRequest attr _ (.int value) _ =>
    ∀ low high, s.registers.range attr = some (low, high) →
      CastFits (castSize attr) low.toInt high.toInt value.toInt
  | .setRequest .. => True

end State

theorem fixParameter_mem {low high : UInt8} (h : low ≤ high) (value : UInt8) :
    low ≤ fixParameter value low high ∧ fixParameter value low high ≤ high := by
  have hfix := toNat_fixParameter h value
  simp only [UInt8.le_iff_toNat_le] at h ⊢
  omega

namespace State

theorem setRequest_exponents (phy : Phy σ) (s : State σ) {attr : PibAttribute}
    (hmin : attr ≠ .macMinBE) (hmax : attr ≠ .macMaxBE) (value : PibValue) :
    (s.setRequest phy attr value).1.macMinBE = s.macMinBE ∧
      (s.setRequest phy attr value).1.macMaxBE = s.macMaxBE := by
  cases attr with
  | macMinBE => exact absurd rfl hmin
  | macMaxBE => exact absurd rfl hmax
  | macPanId =>
    cases value <;> simp only [setRequest, setInt, setMacPanId, and_self]
    split <;> exact ⟨rfl, rfl⟩
  | macShortAddress =>
    cases value <;> simp only [setRequest, setInt, setMacShortAddr, and_self]
    split <;> exact ⟨rfl, rfl⟩
  | macPromiscuousMode =>
    cases value <;> simp only [setRequest, setMacPromiscousMode, and_self]
    split <;> exact ⟨rfl, rfl⟩
  | phyCurrentChannel | phyChannelsSupported | phyTransmitPower | phyCCAMode | phyCurrentPage
  | phyMaxFrameDuration | phySHRDuration | phySymbolsPerOctet =>
    simp only [setRequest]
    split <;> exact ⟨rfl, rfl⟩
  | _ => cases value <;> exact ⟨rfl, rfl⟩

/-- The exponents stay in their ranges, whatever is set. -/
theorem Sound.setRequest (h : s.Sound) (attr : PibAttribute) (value : PibValue) :
    (s.setRequest phy attr value).1.Sound := by
  by_cases hmin : attr = .macMinBE
  · subst hmin
    cases value with
    | int value =>
      have hzero : (0 : UInt8) ≤ s.macMaxBE := UInt8.le_iff_toNat_le.mpr (Nat.zero_le _)
      exact ⟨(fixParameter_mem hzero _).2, h.three_le, h.le_eight⟩
    | _ => exact h
  by_cases hmax : attr = .macMaxBE
  · subst hmax
    cases value with
    | int value =>
      obtain ⟨hthree, height⟩ := fixParameter_mem (by decide : (3 : UInt8) ≤ 8) (byteOf value)
      show (s.setMacMaxBE (fixParameter (byteOf value) 3 8)).Sound
      rw [setMacMaxBE]
      split
      · exact ⟨UInt8.le_refl _, hthree, height⟩
      · rename_i hle
        exact ⟨UInt8.not_lt.mp hle, hthree, height⟩
    | _ => exact h
  obtain ⟨hsame, hsame'⟩ := setRequest_exponents phy s hmin hmax value
  exact ⟨hsame ▸ hsame' ▸ h.min_le, hsame' ▸ h.three_le, hsame' ▸ h.le_eight⟩

def stored (s : State σ) : PibAttribute → Int32 → Int32
  | .macPanId, value | .macShortAddress, value => intOfWord (wordOf value)
  | .macBeaconOrder, value | .macSuperframeOrder, value =>
    intOfByte (fixParameter (byteOf value) 0 15)
  | .macMinBE, value => intOfByte (fixParameter (byteOf value) 0 s.macMaxBE)
  | .macMaxBE, value => intOfByte (fixParameter (byteOf value) 3 8)
  | .macMaxCSMABackoffs, value => intOfByte (fixParameter (byteOf value) 0 5)
  | .macMaxFrameRetries, value => intOfByte (fixParameter (byteOf value) 0 7)
  | _, value => value

theorem stored_eq_clamp_iff (h : s.Sound) {attr : PibAttribute} {low high : Int32}
    (hrange : s.registers.range attr = some (low, high)) (value : Int32) :
    s.stored attr value = clamp low high value ↔
      CastFits (castSize attr) low.toInt high.toInt value.toInt := by
  have hbytes (low' high' : UInt8) (hlt : low' < high')
      (hpair : some (intOfByte low', intOfByte high') = some (low, high)) :
      intOfByte (fixParameter (byteOf value) low' high') = clamp low high value ↔
        CastFits 256 low.toInt high.toInt value.toInt := by
    obtain ⟨rfl, rfl⟩ := Prod.mk.inj (some.inj hpair)
    rw [toInt_intOfByte, toInt_intOfByte]
    exact fixParameter_eq_clamp_iff hlt value
  have hwords (hpair : some ((0 : Int32), (65535 : Int32)) = some (low, high)) :
      intOfWord (wordOf value) = clamp low high value ↔
        CastFits 65536 low.toInt high.toInt value.toInt := by
    obtain ⟨rfl, rfl⟩ := Prod.mk.inj (some.inj hpair)
    exact wordOf_eq_clamp_iff value
  cases attr with
  | macPanId | macShortAddress => exact hwords hrange
  | macBeaconOrder | macSuperframeOrder => exact hbytes 0 15 (by decide) hrange
  | macMinBE =>
    have hpos : 0 < s.macMaxBE := UInt8.lt_of_lt_of_le (by decide : (0 : UInt8) < 3) h.three_le
    exact hbytes 0 s.macMaxBE hpos hrange
  | macMaxBE => exact hbytes 3 8 (by decide) hrange
  | macMaxCSMABackoffs => exact hbytes 0 5 (by decide) hrange
  | macMaxFrameRetries => exact hbytes 0 7 (by decide) hrange
  | _ => cases hrange

theorem registers_setMacMaxBE (value : UInt8) :
    (s.setMacMaxBE value).registers = s.registers.assign .macMaxBE (intOfByte value) := by
  have hlt : intOfByte value < intOfByte s.macMinBE ↔ value < s.macMinBE := by
    rw [lt_iff_toInt_lt, toInt_intOfByte, toInt_intOfByte, UInt8.lt_iff_toNat_lt]
    exact Int.ofNat_lt
  have hset : s.setMacMaxBE value = if value < s.macMinBE
      then { s with macMaxBE := value, macMinBE := value } else { s with macMaxBE := value } := rfl
  have hassign : s.registers.assign .macMaxBE (intOfByte value) =
      if intOfByte value < intOfByte s.macMinBE
      then update (update s.registers .macMaxBE (.int (intOfByte value)))
        .macMinBE (.int (intOfByte value))
      else update s.registers .macMaxBE (.int (intOfByte value)) := rfl
  rw [hset, hassign]
  by_cases h : value < s.macMinBE
  · rw [if_pos h, if_pos (hlt.mpr h)]
    funext attr
    cases attr <;> rfl
  · rw [if_neg h, if_neg (mt hlt.mp h)]
    funext attr
    cases attr <;> rfl

theorem setRequest_int (phy : Phy σ) {attr : PibAttribute} {low high : Int32}
    (hrange : s.registers.range attr = some (low, high)) (value : Int32) :
    (s.setRequest phy attr (.int value)).2 = .success ∧
      (s.setRequest phy attr (.int value)).1.registers =
        s.registers.assign attr (s.stored attr value) := by
  refine ⟨?_, ?_⟩
  · cases attr <;> first | rfl | cases hrange
  · cases attr with
    | macMaxBE => exact registers_setMacMaxBE _
    | macPanId =>
      show (s.setMacPanId (wordOf value)).registers = _
      rw [setMacPanId]
      split
      · funext attr; cases attr <;> rfl
      · rename_i hsame
        have hpan : s.macPanId = wordOf value := (not_not.mp hsame).symm
        funext attr
        cases attr <;> first | rfl | exact congrArg (fun w ↦ PibValue.int (intOfWord w)) hpan
    | macShortAddress =>
      show (s.setMacShortAddr (wordOf value)).registers = _
      rw [setMacShortAddr]
      split
      · funext attr; cases attr <;> rfl
      · rename_i hsame
        have hshort : s.macShortAddr = wordOf value := (not_not.mp hsame).symm
        funext attr
        cases attr <;> first | rfl | exact congrArg (fun w ↦ PibValue.int (intOfWord w)) hshort
    | macBeaconOrder | macSuperframeOrder | macMinBE | macMaxCSMABackoffs | macMaxFrameRetries =>
      funext attr; cases attr <;> rfl
    | _ => cases hrange

end State

/-! ## What the registers answer -/

namespace Registers

variable {r : Registers} {attr : PibAttribute} {low high : Int32}

theorem lowered_of_ne (r : Registers) (hne : attr ≠ .macMinBE) : r.lowered attr = r attr := by
  rw [lowered]
  cases r .macMinBE with
  | int value =>
    by_cases hlt : r.maxBE < value
    · exact (congrFun (if_pos hlt) attr).trans (update_of_ne hne _ _)
    · exact congrFun (if_neg hlt) attr
  | _ => rfl

theorem assign_self (r : Registers) (attr : PibAttribute) (value : Int32) :
    r.assign attr value attr = .int value := by
  rw [assign]
  split
  · rename_i hmax
    rw [lowered_of_ne _ (by rw [hmax]; decide), update_self]
  · exact update_self ..

theorem assign_inj {value value' : Int32} :
    r.assign attr value = r.assign attr value' ↔ value = value' := by
  refine ⟨fun h ↦ ?_, congrArg _⟩
  have hself := congrFun h attr
  rw [assign_self, assign_self] at hself
  exact PibValue.int.inj hself

theorem supported_of_range (hrange : r.range attr = some (low, high)) : attr.supported = true := by
  cases attr <;> first | rfl | cases hrange

theorem set_int (hrange : r.range attr = some (low, high)) (value : Int32) :
    r.set attr (.int value) = some (r.assign attr (clamp low high value)) := by
  rw [set.eq_def, hrange]
  cases attr <;> rfl

end Registers

namespace State

/-- Where the range takes an integer, the task is matched exactly when the cast fits. -/
theorem answers_int_iff (h : s.Sound) {attr : PibAttribute} {low high : Int32}
    (hrange : s.registers.range attr = some (low, high)) (index value : Int32) (handler : Bool) :
    s.registers.Answers (.setRequest attr index (.int value) handler)
        (if handler then some (.set (s.setRequest phy attr (.int value)).2 attr index) else none)
        (s.setRequest phy attr (.int value)).1.registers ↔
      CastFits (castSize attr) low.toInt high.toInt value.toInt := by
  obtain ⟨hstatus, hregisters⟩ := setRequest_int phy hrange value
  rw [Registers.Answers, if_pos (Registers.supported_of_range hrange), Registers.set_int hrange,
    hstatus, hregisters, ← stored_eq_clamp_iff h hrange]
  constructor
  · rintro ⟨-, -, -, hassign⟩
    exact Registers.assign_inj.mp hassign
  · intro hstored
    exact ⟨.success, rfl, rfl, by rw [hstored]⟩

/-- A value of another type is refused and changes nothing, and the flag takes a flag only. -/
theorem answers_other (attr : PibAttribute) (index : Int32) {value : PibValue} (handler : Bool)
    (hvalue : ∀ low high x, s.registers.range attr = some (low, high) → value ≠ .int x) :
    s.registers.Answers (.setRequest attr index value handler)
      (if handler then some (.set (s.setRequest phy attr value).2 attr index) else none)
      (s.setRequest phy attr value).1.registers := by
  cases attr with
  | macPromiscuousMode =>
    cases value with
    | bool value =>
      refine ⟨.success, rfl, rfl, ?_⟩
      show (s.setMacPromiscousMode value).registers = _
      rw [setMacPromiscousMode]
      split
      · funext attr
        cases attr <;> rfl
      · rename_i hsame
        have hmode : s.macPromiscousMode = value := (not_not.mp hsame).symm
        funext attr
        cases attr <;> first | rfl | exact congrArg PibValue.bool hmode
    | _ => exact ⟨.invalidParameter, rfl, nofun, rfl⟩
  | macPanId | macShortAddress | macBeaconOrder | macSuperframeOrder | macMinBE | macMaxBE
  | macMaxCSMABackoffs | macMaxFrameRetries =>
    cases value with
    | int value => exact absurd rfl (hvalue _ _ value rfl)
    | _ => exact ⟨.invalidParameter, rfl, nofun, rfl⟩
  | phyCurrentChannel | phyChannelsSupported | phyTransmitPower | phyCCAMode | phyCurrentPage
  | phyMaxFrameDuration | phySHRDuration | phySymbolsPerOctet =>
    show (s.setRequest phy _ value).1.registers = s.registers
    simp only [setRequest]
    split <;> rfl
  | _ => cases value <;> rfl

def Matches (phy : Phy σ) (s : State σ) (task : Task) : Prop :=
  ∃ s' confirm, s.process phy task = some (s', confirm) ∧
    s.registers.Answers task confirm s'.registers

theorem intOfByte_inj {b b' : UInt8} : intOfByte b = intOfByte b' ↔ b = b' := by
  refine ⟨fun h ↦ ?_, congrArg _⟩
  have hint := congrArg toInt h
  rw [toInt_intOfByte, toInt_intOfByte] at hint
  exact UInt8.toNat_inj.mp (Int.ofNat_inj.mp hint)

theorem getRequest_supported {attr : PibAttribute} (h : attr.supported = true)
    (hne : attr ≠ .macSuperframeOrder) : s.getRequest phy attr = (.success, s.registers attr) := by
  cases attr <;> first | rfl | exact absurd rfl hne | cases h

theorem matches_get_iff (attr : PibAttribute) (attrIndex : Int32) (handler : Bool) :
    s.Matches phy (.getRequest attr attrIndex handler) ↔
      s.Fits (.getRequest attr attrIndex handler) := by
  cases handler with
  | false =>
    refine iff_of_true ⟨s, none, rfl, rfl, fun _ ↦ rfl⟩ ?_
    intro _ hhandler
    exact absurd hhandler Bool.false_ne_true
  | true =>
    by_cases horder : attr = .macSuperframeOrder
    · subst horder
      constructor
      · rintro ⟨s', confirm, hprocess, -, hconfirm⟩ - -
        obtain ⟨rfl, rfl⟩ := Prod.mk.inj (some.inj hprocess)
        have hget := some.inj (hconfirm rfl)
        exact (intOfByte_inj.mp (PibValue.int.inj (Confirm.get.inj hget).2.2.2)).symm
      · intro hfits
        have hsame : s.getRequest phy .macSuperframeOrder =
            (.success, s.registers .macSuperframeOrder) :=
          congrArg (fun b ↦ (MacEnum.success, PibValue.int (intOfByte b))) (hfits rfl rfl).symm
        exact ⟨s, _, rfl, rfl, fun _ ↦ by rw [hsame]; rfl⟩
    · refine iff_of_true ⟨s, _, rfl, rfl, ?_⟩ fun heq ↦ absurd heq horder
      intro hsupported
      rw [getRequest_supported hsupported horder]
      rfl

theorem matches_iff_fits (phy : Phy σ) (h : s.Sound) (task : Task) :
    s.Matches phy task ↔ s.Fits task := by
  cases task with
  | getRequest attr attrIndex handler => exact matches_get_iff attr attrIndex handler
  | setRequest attr index value handler =>
    have hanswers : s.Matches phy (.setRequest attr index value handler) ↔
        s.registers.Answers (.setRequest attr index value handler)
          (if handler then some (.set (s.setRequest phy attr value).2 attr index) else none)
          (s.setRequest phy attr value).1.registers := by
      refine ⟨?_, fun hanswers ↦ ⟨_, _, rfl, hanswers⟩⟩
      rintro ⟨s', confirm, hprocess, hanswers⟩
      obtain ⟨rfl, rfl⟩ := Prod.mk.inj (some.inj hprocess)
      exact hanswers
    rw [hanswers]
    by_cases hint : ∃ low high x, s.registers.range attr = some (low, high) ∧ value = .int x
    · obtain ⟨low, high, x, hrange, rfl⟩ := hint
      rw [answers_int_iff h hrange]
      refine ⟨fun hcast low' high' hrange' ↦ ?_, fun hfits ↦ hfits low high hrange⟩
      obtain ⟨rfl, rfl⟩ := Prod.mk.inj (some.inj (hrange'.symm.trans hrange))
      exact hcast
    · refine iff_of_true (answers_other attr index handler ?_) ?_
      · intro low high x hrange hvalue
        exact hint ⟨low, high, x, hrange, hvalue⟩
      · cases value with
        | int x =>
          intro low high hrange
          exact absurd ⟨low, high, x, hrange, rfl⟩ hint
        | _ => trivial

end State

theorem State.Sound.process (h : s.Sound) {task : Task} {confirm : Option Confirm}
    (hprocess : s.process phy task = some (s', confirm)) : s'.Sound := by
  cases task with
  | getRequest attr attrIndex handler =>
    cases handler <;> obtain ⟨rfl, -⟩ := Prod.mk.inj (some.inj hprocess) <;> exact h
  | setRequest attr index value handler =>
    obtain ⟨rfl, -⟩ := Prod.mk.inj (some.inj hprocess)
    exact h.setRequest attr value

/-- Tasks that fit the registers are matched by them. -/
theorem simulates_process (phy : Phy σ) :
    Simulates (fun s task ↦ s.process phy task) State.Fits Registers.Answers
      fun s r ↦ s.Sound ∧ s.registers = r := by
  rintro s r task ⟨hsound, rfl⟩ hfits
  obtain ⟨s', confirm, hprocess, hanswers⟩ := (State.matches_iff_fits phy hsound task).mpr hfits
  exact ⟨s', confirm, s'.registers, hprocess, hanswers, hsound.process hprocess, rfl⟩

abbrev TaskReachable (phy : Phy σ) : State σ → Prop :=
  Reachable (fun s task ↦ (s.process phy task).map Prod.fst) (fun _ _ ↦ True)
    fun s ↦ ∃ before macDSN macBSN, s = State.reset before macDSN macBSN

theorem TaskReachable.sound (h : TaskReachable phy s) : s.Sound := by
  apply h.invariant
  · rintro _ ⟨before, macDSN, macBSN, rfl⟩
    exact State.sound_reset ..
  · intro s task s' hsound _ hstep
    obtain ⟨⟨_, confirm⟩, hprocess, rfl⟩ := map_eq_some_iff.mp hstep
    exact hsound.process hprocess

/-- In every state that tasks lead to from a reset, the exponents are ordered, a task is matched by
the registers exactly when it fits them, and tasks that fit them are answered as the registers
answer. -/
theorem attributes_independent (phy : Phy σ) (s : State σ) (hreach : TaskReachable phy s) :
    s.macMinBE ≤ s.macMaxBE ∧ (∀ task, s.Matches phy task ↔ s.Fits task) ∧
      ∀ tasks, CleanRun (fun s task ↦ s.process phy task) State.Fits s tasks →
        ∃ s' confirms, runOps (fun s task ↦ s.process phy task) s tasks = some (s', confirms) ∧
          Follows Registers.Answers s.registers tasks confirms s'.registers := by
  have hsound := hreach.sound
  refine ⟨hsound.min_le, State.matches_iff_fits phy hsound, ?_⟩
  intro tasks hclean
  obtain ⟨s', confirms, r, hrun, hfollows, -, hregisters⟩ :=
    (simulates_process phy).refines s _ ⟨hsound, rfl⟩ tasks hclean
  rw [← hregisters] at hfollows
  exact ⟨s', confirms, hrun, hfollows⟩

end Steps

/-! ## Samples -/

def samplePhy : Phy Unit where
  getRequest _ _ := (.unsupportedAttr, .undefined)
  setRequest s _ _ := (s, .unsupportedAttr)

def sampleState : State Unit :=
  State.reset
    ⟨(), 0, true, 0, 0, 0, 0, 0, 0, 0, 0, 0, 0, false, false, none, ⟨false, 0, 0, false⟩⟩ 0 0

theorem sampleState_reachable : TaskReachable samplePhy sampleState := .start ⟨_, _, _, rfl⟩

/-- More retries than there may be are brought to the bound. -/
theorem attributes_independent_retries :
    ∃ s' confirms, runOps (fun s task ↦ State.process samplePhy s task) sampleState
        [.setRequest .macMaxFrameRetries 0 (.int 9) true, .getRequest .macMaxFrameRetries 0 true] =
          some (s', confirms) ∧
      Follows Registers.Answers sampleState.registers
        [.setRequest .macMaxFrameRetries 0 (.int 9) true, .getRequest .macMaxFrameRetries 0 true]
        confirms s'.registers := by
  refine (attributes_independent samplePhy sampleState sampleState_reachable).2.2 _ ⟨?_, ?_⟩
  · intro low high hrange
    obtain ⟨rfl, rfl⟩ := Prod.mk.inj (some.inj hrange)
    exact ⟨by decide, by decide⟩
  · intro s' confirm _
    exact ⟨fun hattr ↦ absurd hattr (by decide), fun _ _ _ ↦ trivial⟩

/-- The superframe order reads as the beacon order, and 256 retries become none. -/
theorem attributes_interfere :
    ¬ (∀ s : State Unit, TaskReachable samplePhy s → ∀ task, s.Matches samplePhy task) ∧
      ¬ sampleState.Matches samplePhy (.setRequest .macMaxFrameRetries 0 (.int 256) true) := by
  constructor
  · intro hall
    have hset : TaskReachable samplePhy
        (sampleState.setRequest samplePhy .macBeaconOrder (.int 3)).1 :=
      .step (.setRequest .macBeaconOrder 0 (.int 3) true) sampleState_reachable trivial rfl
    have hfits := (State.matches_iff_fits samplePhy hset.sound _).mp
      (hall _ hset (.getRequest .macSuperframeOrder 0 true))
    exact absurd (hfits rfl rfl) (by decide)
  · rw [State.matches_iff_fits samplePhy sampleState_reachable.sound]
    intro hfits
    exact absurd ((hfits 0 7 rfl).2 (by decide)) (by decide)

end MicroFramework.Wireless
