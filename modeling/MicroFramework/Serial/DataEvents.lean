import MicroFramework.Serial.FlowControl

/-!
# The data events of a serial port

A sink is told of received characters once until a `Read` ends.  The history of a port tells which
events came after the last `Read` or `DiscardBuffer`, under any order of arrivals and calls by any
number of readers.
-/

namespace MicroFramework.Serial

open Library Option

def eventErrorRxOver : ℕ := 1

def eventDataChars : ℕ := 5

/-- What the sinks and the callers see. -/
inductive Entry
  | errorEvent (event : ℕ)
  | dataEvent (event : ℕ)
  /-- The end of a `Read` that clears the flag and signals what is left. -/
  | readEnd
  /-- The end of a `DiscardBuffer`, or of a `Read` that is refused. -/
  | otherEnd
  deriving DecidableEq

inductive Reader
  /-- The loop wants so many characters. -/
  | loop (toRead : ℕ)
  /-- The loop has been left. -/
  | leaving
  deriving DecidableEq

structure EventPort where
  usart : Usart
  fDataEventSet : Bool
  dataEventCallback : Bool
  errorEventCallback : Bool
  /-- The `Read` calls in progress, by their callers. -/
  readers : ℕ → Option Reader
  /-- The events and the ends of calls, the latest first. -/
  log : List Entry
  /-- Since the last `Read` that came to its end a `DiscardBuffer` or a refused `Read` left the
  flag set. -/
  leftSet : Bool

/-- An arrival, a call or a part of a call that runs with interrupts off. -/
inductive PortAction
  | addCharToRxBuffer (c : UInt8) (now : ℕ)
  | powerSave (enable : Bool)
  | read (caller : ℕ) (data : Bool) (size : ℕ)
  | readTurn (caller : ℕ)
  | discardBuffer (fRx : Bool)
  deriving DecidableEq

namespace EventPort

def setEvent (p : EventPort) (event : ℕ) : EventPort :=
  if event < eventDataChars then
    if p.errorEventCallback then { p with log := .errorEvent event :: p.log } else p
  else if !p.fDataEventSet && p.dataEventCallback then
    { p with fDataEventSet := true, log := .dataEvent (event - eventDataChars) :: p.log }
  else p

/-- `AddCharToRxBuffer`; a flow-control character for the transmitter goes no further. -/
def addCharToRxBuffer (p : EventPort) (c : UInt8) (now : ℕ) : EventPort :=
  let result := p.usart.addCharToRxBuffer c now
  let p' := { p with usart := result.2 }
  if p.usart.txSwFlowCtrl = true ∧ (c = xoff ∨ c = xon) then p'
  else if result.1 then p'.setEvent eventDataChars
  else p'.setEvent eventErrorRxOver

/-- A call returns that does not touch the flag. -/
def otherEnd (p : EventPort) : EventPort :=
  { p with log := .otherEnd :: p.log, leftSet := p.leftSet || p.fDataEventSet }

def setReader (p : EventPort) (caller : ℕ) (reader : Option Reader) : EventPort :=
  { p with readers := Function.update p.readers caller reader }

/-- The last section of `Read`. -/
def readEnd (p : EventPort) : EventPort :=
  let p := { p with fDataEventSet := false, log := .readEnd :: p.log, leftSet := false }
  if p.usart.rxQueue.isEmpty then p else p.setEvent eventDataChars

/-- `Read` up to its loop. -/
def startRead (p : EventPort) (caller : ℕ) (data : Bool) (size : ℕ) : Option EventPort :=
  if (p.readers caller).isSome then none
  else if data && p.usart.canRead then some (p.setReader caller (some (.loop size)))
  else some p.otherEnd

/-- A turn of the loop of a `Read`, or its last section. -/
def readTurn (p : EventPort) (caller : ℕ) : Option EventPort :=
  match p.readers caller with
  | none => none
  | some .leaving => some (p.readEnd.setReader caller none)
  | some (.loop toRead) =>
    if toRead = 0 then some (p.setReader caller (some .leaving))
    else
      match p.usart.readBlock toRead with
      | (none, s) => some ({ p with usart := s }.setReader caller (some .leaving))
      | (some chars, s) =>
        some ({ p with usart := s }.setReader caller (some (.loop (toRead - chars.length))))

def discardBuffer (p : EventPort) (fRx : Bool) : EventPort :=
  { p with usart := p.usart.discardBuffer fRx }.otherEnd

/-- One action; `none` when a caller is not in a `Read`, or in one already. -/
def step (p : EventPort) : PortAction → Option EventPort
  | .addCharToRxBuffer c now => some (p.addCharToRxBuffer c now)
  | .powerSave enable => some { p with usart := (p.usart.setPowerSave enable).2 }
  | .read caller data size => p.startRead caller data size
  | .readTurn caller => p.readTurn caller
  | .discardBuffer fRx => some (p.discardBuffer fRx)

/-- The port was just opened, and a sink for data events is connected. -/
def Opened (p : EventPort) : Prop :=
  ∃ txBuffer rxBuffer txSize rxSize htx hrx flowSwIn flowSwOut flowHwIn errorEventCallback,
    p = ⟨.initializePort txBuffer rxBuffer txSize rxSize htx hrx flowSwIn flowSwOut flowHwIn,
      false, true, errorEventCallback, fun _ ↦ none, [], false⟩

/-! ### What is promised -/

def IsData (e : Entry) : Prop :=
  ∃ event, e = .dataEvent event

/-- No end of a `Read` or a `DiscardBuffer`. -/
def IsEvent (e : Entry) : Prop :=
  e ≠ .readEnd ∧ e ≠ .otherEnd

/-- A data event came after the last end of a `Read` or a `DiscardBuffer`. -/
def Told (p : EventPort) : Prop :=
  Since IsEvent IsData p.log

/-- With characters in the receive queue the sink has been told. -/
def Notified (p : EventPort) : Prop :=
  p.usart.rxQueue.numberOfElements ≠ 0 → p.Told

/-- The action puts a character into the receive queue. -/
def Pushes (p : EventPort) : PortAction → Prop
  | .addCharToRxBuffer c _ =>
    ¬ (p.usart.txSwFlowCtrl = true ∧ (c = xoff ∨ c = xon)) ∧ p.usart.rxQueue.full = false
  | _ => False

/-- The action is a call that leaves the flag and the receive queue as they are. -/
def Passes (p : EventPort) : PortAction → Prop
  | .discardBuffer false => True
  | .read _ data _ => (data && p.usart.canRead) = false
  | _ => False

/-- No character comes in while a call has left the flag set, and a call that leaves the receive
queue as it is finds it empty. -/
def Clean (p : EventPort) (a : PortAction) : Prop :=
  ¬ (p.Pushes a ∧ p.leftSet = true) ∧
    ¬ (p.Passes a ∧ p.usart.rxQueue.numberOfElements ≠ 0)

/-! ### One action -/

variable {p p' : EventPort}

/-- What holds of a port as long as its actions are clean. -/
structure Coalesced (p : EventPort) : Prop where
  connected : p.dataEventCallback = true
  waiting : p.usart.rxQueue.numberOfElements ≠ 0 → p.fDataEventSet = true ∧ p.Told
  set : p.fDataEventSet = true → p.leftSet = true ∨ p.Told
  left : p.leftSet = true → p.fDataEventSet = true ∧ ¬ p.Told

variable {c : UInt8} {s : Usart}

/-- A received character that is no flow control: it is refused by a full queue, and put into any
other. -/
theorem addCharToRxBuffer_cases (now : ℕ)
    (hflow : ¬ (s.txSwFlowCtrl = true ∧ (c = xoff ∨ c = xon))) :
    s.rxQueue.full = true ∧ s.addCharToRxBuffer c now = (false, s) ∨
      s.rxQueue.full = false ∧ (s.addCharToRxBuffer c now).1 = true ∧
        (s.addCharToRxBuffer c now).2.rxQueue.numberOfElements =
          s.rxQueue.numberOfElements + 1 := by
  have hxoff : ¬ (s.txSwFlowCtrl = true ∧ c = xoff) := fun h ↦ hflow ⟨h.1, .inl h.2⟩
  have hxon : ¬ (s.txSwFlowCtrl = true ∧ c = xon) := fun h ↦ hflow ⟨h.1, .inr h.2⟩
  have hsome := s.rxQueue.push_isSome c
  cases hpush : s.rxQueue.push c with
  | none =>
    rw [hpush] at hsome
    refine .inl ⟨by simpa using hsome, ?_⟩
    rw [Usart.addCharToRxBuffer, if_neg hxoff, if_neg hxon, hpush]
  | some q =>
    rw [hpush] at hsome
    have hcount := HalQueue.numberOfElements_push hpush
    refine .inr ⟨by simpa using hsome, ?_⟩
    rw [Usart.addCharToRxBuffer_push hxoff hxon hpush]
    split
    · rw [(frame_sendXoff _ _).1]
      exact ⟨rfl, hcount⟩
    · exact ⟨rfl, hcount⟩

theorem rxQueue_addCharToRxBuffer (now : ℕ) (hflow : s.txSwFlowCtrl = true ∧ (c = xoff ∨ c = xon)) :
    (s.addCharToRxBuffer c now).2.rxQueue = s.rxQueue := by
  rw [Usart.addCharToRxBuffer]
  by_cases hxoff : s.txSwFlowCtrl = true ∧ c = xoff
  · rw [if_pos hxoff]
  · have hxon : s.txSwFlowCtrl = true ∧ c = xon :=
      ⟨hflow.1, hflow.2.resolve_left fun h ↦ hxoff ⟨hflow.1, h⟩⟩
    rw [if_neg hxoff, if_pos hxon]

theorem setEvent_dataChars (hconnected : p.dataEventCallback = true) :
    p.setEvent eventDataChars =
      if p.fDataEventSet = true then p
      else { p with fDataEventSet := true, log := .dataEvent 0 :: p.log } := by
  rw [setEvent, if_neg (Nat.lt_irrefl _), hconnected]
  cases p.fDataEventSet <;> rfl

theorem setEvent_errorRxOver : p.setEvent eventErrorRxOver = p ∨
    p.setEvent eventErrorRxOver = { p with log := .errorEvent eventErrorRxOver :: p.log } := by
  rw [setEvent, if_pos (by decide)]
  split
  · exact .inr rfl
  · exact .inl rfl

variable {event now : ℕ}

theorem told_cons_data (log : List Entry) :
    Since IsEvent IsData (.dataEvent event :: log) :=
  .inl ⟨event, rfl⟩

theorem told_cons_error {log : List Entry} :
    Since IsEvent IsData (.errorEvent event :: log) ↔ Since IsEvent IsData log := by
  have hdata : ¬ IsData (.errorEvent event) := fun ⟨_, h⟩ ↦ by cases h
  have hevent : IsEvent (.errorEvent event) := ⟨by simp, by simp⟩
  rw [since_cons]
  exact ⟨fun h ↦ (h.resolve_left hdata).2, fun h ↦ .inr ⟨hevent, h⟩⟩

theorem not_told_cons_otherEnd (log : List Entry) : ¬ Since IsEvent IsData (.otherEnd :: log) := by
  rintro (⟨_, h⟩ | ⟨h, -⟩)
  · cases h
  · exact h.2 rfl

/-- A port with the same flags and history, and not more characters. -/
theorem Coalesced.of_le (h : p.Coalesced) (hconnected : p'.dataEventCallback = p.dataEventCallback)
    (hset : p'.fDataEventSet = p.fDataEventSet) (htold : p'.Told ↔ p.Told)
    (hleft : p'.leftSet = p.leftSet)
    (hqueue : p'.usart.rxQueue.numberOfElements ≠ 0 → p.usart.rxQueue.numberOfElements ≠ 0) :
    p'.Coalesced where
  connected := hconnected.trans h.connected
  waiting hn := by
    rw [hset, htold]
    exact h.waiting (hqueue hn)
  set hflag := by
    rw [hleft, htold]
    exact h.set (hset ▸ hflag)
  left hflag := by
    rw [hset, htold]
    exact h.left (hleft ▸ hflag)

/-- An empty port whose last call leaves the flag as it is. -/
theorem Coalesced.otherEnd (h : p.Coalesced) (hconnected : p'.dataEventCallback = true)
    (hset : p'.fDataEventSet = p.fDataEventSet) (hlog : p'.log = .otherEnd :: p.log)
    (hleft : p'.leftSet = (p.leftSet || p.fDataEventSet))
    (hqueue : p'.usart.rxQueue.numberOfElements = 0) : p'.Coalesced where
  connected := hconnected
  waiting hn := absurd hqueue hn
  set hflag := by
    rw [hleft, ← hset, hflag, Bool.or_true]
    exact .inl rfl
  left hflag := by
    rw [hleft, Bool.or_eq_true] at hflag
    rw [hset, Told, hlog]
    exact ⟨hflag.elim (fun hleft ↦ (h.left hleft).1) id, not_told_cons_otherEnd _⟩

/-- A port after the last section of a `Read`. -/
theorem coalesced_readEnd (hconnected : p.dataEventCallback = true) : p.readEnd.Coalesced := by
  rw [readEnd]
  split
  case isTrue hempty =>
    exact {
      connected := hconnected
      waiting := fun hn ↦ absurd (HalQueue.isEmpty_iff.mp hempty) hn
      set := fun hflag ↦ by cases hflag
      left := fun hflag ↦ by cases hflag }
  case isFalse =>
    have hset : EventPort.setEvent
        { p with fDataEventSet := false, log := .readEnd :: p.log, leftSet := false }
          eventDataChars = _ := setEvent_dataChars hconnected
    rw [hset, if_neg Bool.false_ne_true]
    exact {
      connected := hconnected
      waiting := fun _ ↦ ⟨rfl, told_cons_data _⟩
      set := fun _ ↦ .inr (told_cons_data _)
      left := fun hflag ↦ by cases hflag }

/-- The port after a character is put into the receive queue. -/
theorem addCharToRxBuffer_pushes (hconnected : p.dataEventCallback = true)
    (hpushes : p.Pushes (.addCharToRxBuffer c now)) :
    (p.usart.addCharToRxBuffer c now).2.rxQueue.numberOfElements =
        p.usart.rxQueue.numberOfElements + 1 ∧
      p.addCharToRxBuffer c now =
        if p.fDataEventSet = true then { p with usart := (p.usart.addCharToRxBuffer c now).2 }
        else { p with
          usart := (p.usart.addCharToRxBuffer c now).2
          fDataEventSet := true
          log := .dataEvent 0 :: p.log } := by
  obtain ⟨hflow, hfull⟩ := hpushes
  rcases addCharToRxBuffer_cases now hflow with ⟨hfull', -⟩ | ⟨-, hok, hcount⟩
  · exact absurd (hfull'.symm.trans hfull) (by decide)
  · have hset := setEvent_dataChars
      (p := { p with usart := (p.usart.addCharToRxBuffer c now).2 }) hconnected
    refine ⟨hcount, ?_⟩
    rw [addCharToRxBuffer, if_neg hflow, if_pos hok, hset]

/-- A character that is not put into the queue changes nothing that counts. -/
theorem Coalesced.addCharToRxBuffer (h : p.Coalesced)
    (hpushes : ¬ p.Pushes (.addCharToRxBuffer c now)) :
    (p.addCharToRxBuffer c now).Coalesced := by
  by_cases hflow : p.usart.txSwFlowCtrl = true ∧ (c = xoff ∨ c = xon)
  · rw [EventPort.addCharToRxBuffer, if_pos hflow]
    have hqueue := rxQueue_addCharToRxBuffer now hflow
    refine h.of_le rfl rfl Iff.rfl rfl fun hn ↦ ?_
    rw [← hqueue]
    exact hn
  · rcases addCharToRxBuffer_cases now hflow with ⟨-, hrefused⟩ | ⟨hfull, -⟩
    · rw [EventPort.addCharToRxBuffer, if_neg hflow, hrefused, if_neg Bool.false_ne_true]
      rcases setEvent_errorRxOver (p := p) with hsame | herror
      · rw [hsame]
        exact h
      · rw [herror]
        exact h.of_le rfl rfl told_cons_error rfl id
    · exact absurd ⟨hflow, hfull⟩ hpushes

/-- A block that is read only takes characters away. -/
theorem numberOfElements_readBlock (s : Usart) (toRead : ℕ) :
    (s.readBlock toRead).2.rxQueue.numberOfElements ≠ 0 → s.rxQueue.numberOfElements ≠ 0 := by
  intro hn
  have hqueue : (s.readBlock toRead).2.rxQueue = (s.rxQueue.popBlock toRead).2 := by
    rw [Usart.readBlock]
    cases hblock : s.rxQueue.popBlock toRead with
    | mk chars q =>
      cases chars with
      | none => rfl
      | some chars =>
        dsimp only
        split
        · rw [(frame_sendXon _ _).1]
        · rfl
  rw [hqueue, HalQueue.numberOfElements_popBlock] at hn
  omega

variable {a : PortAction}

/-- A clean action keeps the flag and the history in step. -/
theorem Coalesced.step (h : p.Coalesced) (hclean : p.Clean a)
    (hstep : p.step a = some p') : p'.Coalesced := by
  obtain ⟨hpush, hpass⟩ := hclean
  cases a with
  | addCharToRxBuffer c now =>
    obtain rfl := some.inj hstep
    by_cases hpushes : p.Pushes (.addCharToRxBuffer c now)
    · have hleft : p.leftSet ≠ true := fun hleft ↦ hpush ⟨hpushes, hleft⟩
      obtain ⟨hcount, heq⟩ := addCharToRxBuffer_pushes h.connected hpushes
      rw [heq]
      by_cases hset : p.fDataEventSet = true
      · have htold := (h.set hset).resolve_left hleft
        rw [if_pos hset]
        exact ⟨h.connected, fun _ ↦ ⟨hset, htold⟩, fun _ ↦ .inr htold,
          fun hleft' ↦ absurd hleft' hleft⟩
      · rw [if_neg hset]
        exact ⟨h.connected, fun _ ↦ ⟨rfl, told_cons_data _⟩, fun _ ↦ .inr (told_cons_data _),
          fun hleft' ↦ absurd hleft' hleft⟩
    · exact h.addCharToRxBuffer hpushes
  | powerSave enable =>
    obtain rfl := some.inj hstep
    exact h.of_le rfl rfl Iff.rfl rfl id
  | read caller data size =>
    rw [EventPort.step, startRead] at hstep
    split at hstep
    · cases hstep
    · split at hstep
      case isTrue =>
        obtain rfl := some.inj hstep
        exact h.of_le rfl rfl Iff.rfl rfl id
      case isFalse hrefused =>
        obtain rfl := some.inj hstep
        have hempty := not_not.mp fun hn ↦ hpass ⟨Bool.eq_false_iff.mpr hrefused, hn⟩
        exact h.otherEnd h.connected rfl rfl rfl hempty
  | readTurn caller =>
    rw [EventPort.step, readTurn] at hstep
    split at hstep
    case h_1 => cases hstep
    case h_2 =>
      obtain rfl := some.inj hstep
      exact (coalesced_readEnd h.connected).of_le rfl rfl Iff.rfl rfl id
    case h_3 toRead _ =>
      split at hstep
      case isTrue =>
        obtain rfl := some.inj hstep
        exact h.of_le rfl rfl Iff.rfl rfl id
      case isFalse =>
        have hfewer := numberOfElements_readBlock p.usart toRead
        split at hstep
        case h_1 s hblock =>
          obtain rfl := some.inj hstep
          rw [hblock] at hfewer
          exact h.of_le rfl rfl Iff.rfl rfl hfewer
        case h_2 chars s hblock =>
          obtain rfl := some.inj hstep
          rw [hblock] at hfewer
          exact h.of_le rfl rfl Iff.rfl rfl hfewer
  | discardBuffer fRx =>
    obtain rfl := some.inj hstep
    refine h.otherEnd h.connected rfl rfl rfl ?_
    cases fRx with
    | true =>
      have hcount := p.usart.rxQueue.numberOfElements_discard
      change (p.usart.discardBuffer true).rxQueue.numberOfElements = 0
      rw [Usart.discardBuffer, if_pos rfl]
      dsimp only
      split
      · rw [(frame_sendXon _ _).1]
        exact hcount
      · exact hcount
    | false => exact not_not.mp fun hn ↦ hpass ⟨trivial, hn⟩

/-- An action that is not clean leaves characters that the sink was not told of. -/
theorem Coalesced.clean (h : p.Coalesced) (hstep : p.step a = some p')
    (hnotified : p'.Notified) : p.Clean a := by
  refine ⟨fun ⟨hpushes, hleft⟩ ↦ ?_, fun ⟨hpasses, hn⟩ ↦ ?_⟩
  · cases a with
    | addCharToRxBuffer c now =>
      obtain rfl := some.inj hstep
      obtain ⟨hcount, heq⟩ := addCharToRxBuffer_pushes h.connected hpushes
      obtain ⟨hset, htold⟩ := h.left hleft
      rw [if_pos hset] at heq
      rw [Notified, heq] at hnotified
      exact htold (hnotified (by rw [hcount]; exact Nat.succ_ne_zero _))
    | powerSave enable => exact hpushes
    | read caller data size => exact hpushes
    | readTurn caller => exact hpushes
    | discardBuffer fRx => exact hpushes
  · cases a with
    | addCharToRxBuffer c now | powerSave enable | readTurn caller => exact hpasses
    | read caller data size =>
      rw [EventPort.step, startRead, if_neg (Bool.eq_false_iff.mp hpasses)] at hstep
      split at hstep
      · cases hstep
      · obtain rfl := some.inj hstep
        exact not_told_cons_otherEnd _ (hnotified hn)
    | discardBuffer fRx =>
      cases fRx with
      | true => exact hpasses
      | false =>
        obtain rfl := some.inj hstep
        exact not_told_cons_otherEnd _ (hnotified hn)

/-! ### Runs -/

theorem coalesced_opened (h : p.Opened) : p.Coalesced := by
  obtain ⟨txBuffer, rxBuffer, txSize, rxSize, htx, hrx, swIn, swOut, hwIn, error, rfl⟩ := h
  exact {
    connected := rfl
    waiting := fun hn ↦ absurd (HalQueue.numberOfElements_initializeQueue _ _ _) hn
    set := fun hset ↦ by cases hset
    left := fun hleft ↦ by cases hleft }

/-- In every run of an opened port, the sink has been told of the characters in the receive queue
at every point exactly when every action is clean. -/
theorem notified_iff_clean {p final : EventPort} (actions : List PortAction) (hopened : p.Opened)
    (hrun : actions.foldlM step p = some final) :
    (∀ done rest q, done ++ rest = actions → done.foldlM step p = some q → q.Notified) ↔
      ∀ done a rest q, done ++ a :: rest = actions → done.foldlM step p = some q → q.Clean a :=
  good_iff_clean (fun _ _ _ h hclean hstep ↦ h.step hclean hstep)
    (fun _ h hn ↦ (h.waiting hn).2) (fun _ _ _ h hstep hnotified ↦ h.clean hstep hnotified)
    actions (coalesced_opened hopened) hrun

theorem room_pos : 0 < 4 := by decide

/-- A port that was just opened, with room for four characters. -/
def sampleOpened : EventPort where
  usart := .initializePort (fun _ ↦ 0) (fun _ ↦ 0) 4 4 room_pos room_pos false false false
  fDataEventSet := false
  dataEventCallback := true
  errorEventCallback := false
  readers := fun _ ↦ none
  log := []
  leftSet := false

theorem opened_sampleOpened : sampleOpened.Opened := ⟨_, _, _, _, _, _, _, _, _, _, rfl⟩

/-- A character comes in, it is read, and another one comes in. -/
theorem notified_readAndArrival :
    (∀ done rest q, done ++ rest = [.addCharToRxBuffer 65 0, .read 0 true 1, .readTurn 0,
        .readTurn 0, .readTurn 0, .addCharToRxBuffer 66 0] →
      done.foldlM step sampleOpened = some q → q.Notified) ↔
    ∀ done a rest q, done ++ a :: rest = [.addCharToRxBuffer 65 0, .read 0 true 1, .readTurn 0,
        .readTurn 0, .readTurn 0, .addCharToRxBuffer 66 0] →
      done.foldlM step sampleOpened = some q → q.Clean a :=
  notified_iff_clean _ opened_sampleOpened rfl

/-- A character comes in, the queue is discarded, and the next character is not told of. -/
theorem not_notified_afterDiscard :
    ¬ ∀ (p final : EventPort) (actions : List PortAction), p.Opened →
      actions.foldlM step p = some final → final.Notified := by
  intro hall
  have hnotified := hall sampleOpened _
    [.addCharToRxBuffer 65 0, .discardBuffer true, .addCharToRxBuffer 66 0] opened_sampleOpened rfl
  have htold : Since IsEvent IsData [.otherEnd, .dataEvent 0] := hnotified (by decide)
  exact not_told_cons_otherEnd _ htold

end EventPort

end MicroFramework.Serial
