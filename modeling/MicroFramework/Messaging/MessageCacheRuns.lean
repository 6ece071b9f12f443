import Mathlib.Algebra.Order.BigOperators.Group.List
import Mathlib.Algebra.Order.Ring.Nat
import MicroFramework.Messaging.MessageCache

/-!
# Requests and replies over a run

Every step keeps the total of the cached sizes.  A packet marks itself when it is answered, so that
it is answered once; a cached request is marked when its reply is dispatched, which keeps further
replies away while it is the only cached request with its command and sequence number.
-/

namespace MicroFramework.Messaging.Caching

open WireProtocol List Nat UInt32 Flags

/-! ## Lists of entries -/

section lists

variable {lst : List CachedMessage} {p q : CachedMessage → Bool} {cache : CachedMessage}

/-- The bytes of the entry that is taken out and of those that stay. -/
theorem bytes_eraseP (h : lst.find? p = some cache) :
    cache.size.toNat + bytes (lst.eraseP p) = bytes lst := by
  induction lst with
  | nil => exact absurd h nofun
  | cons c lst ih =>
    by_cases hp : p c = true
    · rw [find?_cons_of_pos hp] at h
      rw [eraseP_cons_of_pos hp, ← Option.some.inj h]
      rfl
    · rw [find?_cons_of_neg hp] at h
      have hrest := ih h
      rw [eraseP_cons_of_neg hp]
      simp only [bytes, map_cons, sum_cons] at hrest ⊢
      omega

/-- The entry that is taken out was the first of its kind. -/
theorem filter_eq_cons (h : lst.find? p = some cache) :
    lst.filter p = cache :: (lst.eraseP p).filter p := by
  induction lst with
  | nil => exact absurd h nofun
  | cons c lst ih =>
    by_cases hp : p c = true
    · rw [find?_cons_of_pos hp] at h
      rw [eraseP_cons_of_pos hp, filter_cons_of_pos hp, ← Option.some.inj h]
    · rw [find?_cons_of_neg hp] at h
      rw [eraseP_cons_of_neg hp, filter_cons_of_neg hp, filter_cons_of_neg hp, ih h]

theorem filter_eraseP (hpq : ∀ c, p c = true → q c = false) :
    (lst.eraseP p).filter q = lst.filter q := by
  induction lst with
  | nil => rfl
  | cons c lst ih =>
    by_cases hp : p c = true
    · rw [eraseP_cons_of_pos hp, filter_cons_of_neg (by rw [hpq c hp]; decide)]
    · rw [eraseP_cons_of_neg hp, filter_cons, filter_cons, ih]

end lists

/-! ## Transmissions -/

inductive Transmits (s : State) : State → Prop
  | same (controller) : Transmits s { s with controller := controller }
  | subordinate (controller) (entry : CachedMessage)
      (hfits : s.cachedBytes + entry.size.toNat ≤ s.heapSize.toNat) :
      Transmits s { s with
        controller := controller
        cacheTotalSize := s.cacheTotalSize + entry.size
        nodes := s.nodes + 1
        cacheSubordinate := entry :: s.cacheSubordinate }
  | master (controller) (entry : CachedMessage)
      (hfits : s.cachedBytes + entry.size.toNat ≤ s.heapSize.toNat) :
      Transmits s { s with
        controller := controller
        cacheTotalSize := s.cacheTotalSize + entry.size
        nodes := s.nodes + 1
        cacheMaster := entry :: s.cacheMaster }

variable {s t : State}

variable {entry : CachedMessage}

theorem State.hasRoom_fits {o : Outcome}
    (h : s.hasRoom entry o = true) : s.cachedBytes + entry.size.toNat ≤ s.heapSize.toNat :=
  of_decide_eq_true (Bool.and_eq_true_iff.1 h).2

theorem transmits_transmitMessage (s : State) (controller : Controller) (msg : WireMessage)
    (fQueue : Bool) (o : Outcome) :
    Transmits s (transmitMessage { s with controller := controller } msg fQueue o) := by
  unfold transmitMessage
  split
  · exact .same controller
  · split
    · exact .same controller
    · split
      · dsimp only
        split
        · split
          · next hroom => exact .subordinate controller _ (State.hasRoom_fits hroom)
          · exact .same controller
        · split
          · exact .same controller
          · split
            · next hroom => exact .master controller _ (State.hasRoom_fits hroom)
            · exact .same controller
      · exact .same controller

abbrev Transmissions : State → State → Prop :=
  Relation.ReflTransGen Transmits

theorem transmits_sendEvent (s : State) (cmd flags : UInt32) (payload : Option (List UInt8))
    (o : Outcome) : Transmits s (sendEvent s cmd flags payload o).1 :=
  transmits_transmitMessage s _ _ _ _

theorem transmits_replyToCommand (s : State) (msg : WireMessage) (fSuccess fCritical : Bool)
    (payload : Option (List UInt8)) (o : Outcome) :
    Transmits s (replyToCommand s msg fSuccess fCritical payload o).1 := by
  unfold replyToCommand
  split
  · exact .same s.controller
  · exact transmits_transmitMessage s _ _ _ _

theorem transmissions_runHandler (calls : List HandlerCall) (s : State) (msg : WireMessage) :
    Transmissions s (runHandler calls s msg).1 := by
  induction calls generalizing s msg with
  | nil => exact .refl
  | cons call calls ih =>
    cases call with
    | reply fSuccess fCritical payload o =>
      exact .head (transmits_replyToCommand s msg fSuccess fCritical payload o) (ih _ _)
    | event cmd flags payload o => exact .head (transmits_sendEvent s cmd flags payload o) (ih _ _)

theorem transmissions_dispatch (s : State) (r : Reception) (lookup : List UInt32) :
    Transmissions s (dispatch s r lookup).1 := by
  unfold dispatch
  split
  · exact .tail (transmissions_runHandler r.calls s r.msg) (transmits_replyToCommand _ _ _ _ _ _)
  · exact .single (transmits_replyToCommand _ _ _ _ _ _)

/-! ## The total size -/

/-- The total is that of the entries, and they are all in the heap. -/
structure Accounted (s : State) : Prop where
  total : s.cacheTotalSize.toNat = s.cachedBytes
  fits : s.cachedBytes ≤ s.heapSize.toNat

/-- A transmission adds the size of what it queues. -/
theorem Accounted.transmits (hs : Accounted s) (h : Transmits s t) : Accounted t := by
  have hadd : ∀ entry : CachedMessage, s.cachedBytes + entry.size.toNat ≤ s.heapSize.toNat →
      (s.cacheTotalSize + entry.size).toNat = s.cachedBytes + entry.size.toNat := by
    intro entry hfits
    have hbound := s.heapSize.toNat_lt
    rw [UInt32.toNat_add, hs.total, mod_eq_of_lt (by omega)]
  cases h with
  | same controller => exact ⟨hs.total, hs.fits⟩
  | subordinate controller entry hfits =>
    have hbytes : bytes s.cacheMaster + bytes (entry :: s.cacheSubordinate) =
        s.cachedBytes + entry.size.toNat := by
      simp only [State.cachedBytes, bytes, map_cons, sum_cons]
      omega
    exact ⟨(hadd entry hfits).trans hbytes.symm, hbytes.trans_le hfits⟩
  | master controller entry hfits =>
    have hbytes : bytes (entry :: s.cacheMaster) + bytes s.cacheSubordinate =
        s.cachedBytes + entry.size.toNat := by
      simp only [State.cachedBytes, bytes, map_cons, sum_cons]
      omega
    exact ⟨(hadd entry hfits).trans hbytes.symm, hbytes.trans_le hfits⟩

theorem Accounted.transmissions (hs : Accounted s) (h : Transmissions s t) : Accounted t := by
  induction h with
  | refl => exact hs
  | tail _ hstep ih => exact ih.transmits hstep

theorem bytes_linkAtFront {p : CachedMessage → Bool} {lst : List CachedMessage}
    {cache : CachedMessage} (h : lst.find? p = some cache) (hsize : entry.size = cache.size) :
    bytes (linkAtFront p entry lst) = bytes lst := by
  calc bytes (linkAtFront p entry lst) = entry.size.toNat + bytes (lst.eraseP p) := by
        simp only [linkAtFront, bytes, map_cons, sum_cons]
    _ = bytes lst := by rw [hsize, bytes_eraseP h]

variable {reply : Packet}

theorem Accounted.takeReply (hs : Accounted s) {cache : CachedMessage}
    (hcache : s.cacheMaster.find? (isAnsweredBy reply) = some cache) (now : ℤ) :
    Accounted (s.takeReply reply cache now) := by
  have hbytes : (s.takeReply reply cache now).cachedBytes = s.cachedBytes :=
    congrArg (· + bytes s.cacheSubordinate) (bytes_linkAtFront hcache rfl)
  exact ⟨hs.total.trans hbytes.symm, hbytes.trans_le hs.fits⟩

theorem Accounted.touchReply (hs : Accounted s) {request : Packet}
    {cache : CachedMessage} (hcache : s.cacheSubordinate.find? (isAnswerTo request) = some cache)
    (now : ℤ) : Accounted (s.touchReply request cache now) := by
  have hbytes : (s.touchReply request cache now).cachedBytes = s.cachedBytes :=
    congrArg (bytes s.cacheMaster + ·) (bytes_linkAtFront hcache rfl)
  exact ⟨hs.total.trans hbytes.symm, hbytes.trans_le hs.fits⟩

/-- A received packet keeps the account. -/
theorem Accounted.processPayload (hs : Accounted s) (r : Reception) :
    Accounted (processPayload s r).1 := by
  unfold Caching.processPayload
  split
  · exact hs
  · split
    · split
      · next cache hcache =>
        split
        · exact hs.takeReply hcache r.now
        · exact (hs.takeReply hcache r.now).transmissions (transmissions_dispatch _ _ _)
      · exact hs.transmissions (transmissions_dispatch _ _ _)
    · split
      · next cache hcache =>
        exact (hs.touchReply hcache r.now).transmits (transmits_transmitMessage _ _ _ _ _)
      · exact hs.transmissions (transmissions_dispatch _ _ _)

variable {base node : ℕ} {total : UInt32}

theorem purgeBackward_spec (oldest : ℤ) {lst : List CachedMessage}
    (h : total.toNat = base + bytes lst) :
    (purgeBackward oldest lst total).1.Sublist lst ∧
      (purgeBackward oldest lst total).2.toNat = base + bytes (purgeBackward oldest lst total).1 ∧
      (maxCacheSize < (purgeBackward oldest lst total).2 →
        (purgeBackward oldest lst total).1 = []) := by
  induction lst generalizing total base with
  | nil => exact ⟨.slnil, h, fun _ ↦ rfl⟩
  | cons cache lst ih =>
    have hcons : bytes (cache :: lst) = cache.size.toNat + bytes lst := by
      simp only [bytes, map_cons, sum_cons]
    by_cases hout : cache.lastSeen < oldest ∨ maxCacheSize < total
    · rw [purgeBackward, if_pos hout]
      have hsub : (total - cache.size).toNat = base + bytes lst := by
        rw [UInt32.toNat_sub_of_le _ _ (le_iff_toNat_le.2 (by omega))]
        omega
      obtain ⟨hsublist, htotal, hmax⟩ := ih hsub
      exact ⟨hsublist.cons _, htotal, hmax⟩
    · have hkeep : purgeBackward oldest (cache :: lst) total =
          (cache :: (purgeBackward oldest lst total).1, (purgeBackward oldest lst total).2) :=
        if_neg hout
      have hrest : total.toNat = (base + cache.size.toNat) + bytes lst := by omega
      obtain ⟨hsublist, htotal, -⟩ := ih hrest
      have hkept : bytes (cache :: (purgeBackward oldest lst total).1) =
          cache.size.toNat + bytes (purgeBackward oldest lst total).1 := by
        simp only [bytes, map_cons, sum_cons]
      have hle : bytes (purgeBackward oldest lst total).1 ≤ bytes lst :=
        (hsublist.map _).sum_le_sum fun _ _ ↦ zero_le _
      have hdown : (purgeBackward oldest lst total).2.toNat ≤ total.toNat := by omega
      rw [hkeep]
      refine ⟨hsublist.cons_cons _, htotal.trans (by rw [hkept, Nat.add_assoc]), fun hmax ↦ ?_⟩
      have hlt := (lt_iff_toNat_lt.1 hmax).trans_le hdown
      exact absurd (.inr (lt_iff_toNat_lt.2 hlt)) hout

/-- The same with the front of the list first. -/
theorem purgeList_spec (oldest : ℤ) {lst : List CachedMessage}
    (h : total.toNat = base + bytes lst) :
    (purgeList oldest lst total).1.Sublist lst ∧
      (purgeList oldest lst total).2.toNat = base + bytes (purgeList oldest lst total).1 ∧
      (maxCacheSize < (purgeList oldest lst total).2 → (purgeList oldest lst total).1 = []) := by
  have hreverse : ∀ l : List CachedMessage, bytes l.reverse = bytes l := by
    intro l
    rw [bytes, map_reverse, sum_reverse]
    rfl
  have hback : total.toNat = base + bytes lst.reverse :=
    h.trans (congrArg (base + ·) (hreverse lst).symm)
  obtain ⟨hsublist, htotal, hmax⟩ := purgeBackward_spec oldest hback
  refine ⟨?_, htotal.trans (congrArg (base + ·) (hreverse _).symm), fun h ↦ ?_⟩
  · have hreversed := hsublist.reverse
    rw [reverse_reverse] at hreversed
    exact hreversed
  · exact reverse_eq_nil_iff.2 (hmax h)

/-- A purge keeps the account, keeps no new entry and leaves no more than the maximum. -/
theorem purgeCache_spec (hs : Accounted s) (now : ℤ) :
    Accounted (purgeCache s now) ∧ (purgeCache s now).cacheMaster.Sublist s.cacheMaster ∧
      (purgeCache s now).cacheTotalSize ≤ maxCacheSize := by
  let oldest := now - 10000000 * 3
  have hstart : s.cacheTotalSize.toNat = bytes s.cacheSubordinate + bytes s.cacheMaster :=
    hs.total.trans (Nat.add_comm _ _)
  obtain ⟨hmaster, htotal, hmax⟩ := purgeList_spec oldest hstart
  have hrest : (purgeList oldest s.cacheMaster s.cacheTotalSize).2.toNat =
      bytes (purgeList oldest s.cacheMaster s.cacheTotalSize).1 + bytes s.cacheSubordinate :=
    htotal.trans (Nat.add_comm _ _)
  obtain ⟨hsubordinate, htotal', hmax'⟩ := purgeList_spec oldest hrest
  have hle : (purgeCache s now).cachedBytes ≤ s.cachedBytes :=
    Nat.add_le_add ((hmaster.map _).sum_le_sum fun _ _ ↦ Nat.zero_le _)
      ((hsubordinate.map _).sum_le_sum fun _ _ ↦ zero_le _)
  refine ⟨⟨htotal', hle.trans hs.fits⟩, hmaster, ?_⟩
  by_contra hover
  -- nothing would be left in either list
  have hlt := UInt32.not_le.1 hover
  have hnone := hmax' hlt
  have hmid : (purgeList oldest s.cacheSubordinate
      (purgeList oldest s.cacheMaster s.cacheTotalSize).2).2.toNat ≤
      (purgeList oldest s.cacheMaster s.cacheTotalSize).2.toNat := by
    rw [htotal', htotal, hnone]
    exact (Nat.add_comm _ _).trans_le (Nat.add_le_add_right (zero_le _) _)
  have hempty := hmax (lt_iff_toNat_lt.2 ((lt_iff_toNat_lt.1 hlt).trans_le hmid))
  rw [hnone, hempty] at htotal'
  exact absurd ((lt_iff_toNat_lt.1 hlt).trans_eq htotal') (not_lt_zero _)

theorem Accounted.step (hs : Accounted s) (op : Op) : Accounted (step s op).1 := by
  cases op with
  | receive r => exact hs.processPayload r
  | send cmd flags payload o => exact hs.transmits (transmits_sendEvent s cmd flags payload o)
  | purge now => exact (purgeCache_spec hs now).1

theorem Reachable.accounted (h : Reachable s) : Accounted s := by
  induction h with
  | @start s hinitial =>
    have hbytes : s.cachedBytes = 0 := by
      rw [State.cachedBytes, hinitial.master, hinitial.subordinate]
      rfl
    exact ⟨by rw [hinitial.total, hbytes]; rfl, hbytes.trans_le (zero_le _)⟩
  | step op _ ih => exact ih.step op

/-! ## Answers -/

def answers (outputs : List Output) : ℕ :=
  outputs.countP fun output ↦ match output with
    | .answered _ => true
    | _ => false

/-- The answers that a message may still get. -/
def allowance (msg : WireMessage) : ℕ :=
  if msg.header.flags &&& nonCritical ≠ 0 then 0 else 1

/-- A message that was marked gets no more answers. -/
theorem allowance_marked (msg : WireMessage) (header : Packet)
    (h : header.flags = msg.header.flags ||| nonCritical) :
    allowance { msg with header := header } = 0 := by
  have habsorb : (msg.header.flags ||| nonCritical) &&& nonCritical =
      nonCritical := by
    apply UInt32.toBitVec_inj.1
    ext i hi
    simp only [UInt32.toBitVec_and, UInt32.toBitVec_or, BitVec.getElem_and, BitVec.getElem_or]
    cases msg.header.flags.toBitVec[i] <;> cases nonCritical.toBitVec[i] <;> rfl
  have hset : (msg.header.flags ||| nonCritical) &&& nonCritical ≠ 0 := by
    rw [habsorb]
    decide
  rw [allowance, if_pos (h ▸ hset)]

/-- A reply uses the allowance up. -/
theorem answers_replyToCommand (s : State) (msg : WireMessage) (fSuccess fCritical : Bool)
    (payload : Option (List UInt8)) (o : Outcome) :
    answers (replyToCommand s msg fSuccess fCritical payload o).2.2 +
      allowance (replyToCommand s msg fSuccess fCritical payload o).2.1 ≤ allowance msg := by
  by_cases hmarked : msg.header.flags &&& nonCritical ≠ 0
  · rw [replyToCommand, if_pos hmarked]
    exact (Nat.zero_add _).le
  · rw [replyToCommand, if_neg hmarked]
    dsimp only
    rw [allowance_marked msg _ rfl, allowance, if_neg hmarked]
    exact le_rfl

theorem answers_runHandler (calls : List HandlerCall) (s : State) (msg : WireMessage) :
    answers (runHandler calls s msg).2.2 + allowance (runHandler calls s msg).2.1 ≤
      allowance msg := by
  induction calls generalizing s msg with
  | nil => exact (Nat.zero_add _).le
  | cons call calls ih =>
    cases call with
    | reply fSuccess fCritical payload o =>
      have hreply := answers_replyToCommand s msg fSuccess fCritical payload o
      have hrest := ih (replyToCommand s msg fSuccess fCritical payload o).1
        (replyToCommand s msg fSuccess fCritical payload o).2.1
      simp only [runHandler, answers, countP_append] at hreply hrest ⊢
      omega
    | event cmd flags payload o =>
      have hrest := ih (sendEvent s cmd flags payload o).1 msg
      simp only [runHandler, answers, countP_append] at hrest ⊢
      simpa [sendEvent] using hrest

/-- A packet that is looked up gets at most one answer. -/
theorem answers_dispatch (s : State) (r : Reception) (lookup : List UInt32) :
    answers (dispatch s r lookup).2 ≤ 1 := by
  have hallowed : allowance r.msg ≤ 1 := by
    unfold allowance
    split <;> omega
  unfold dispatch
  split
  · have hcalls := answers_runHandler r.calls s r.msg
    have hlast := answers_replyToCommand (runHandler r.calls s r.msg).1
      (runHandler r.calls s r.msg).2.1 r.result false none r.o
    simp only [answers, cons_append, countP_cons, countP_append] at hcalls hlast ⊢
    simp only [Bool.false_eq_true, if_false]
    omega
  · have hlast := answers_replyToCommand s r.msg false false none r.o
    exact (le_of_add_right_le hlast).trans hallowed

/-- A received packet gets at most one answer. -/
theorem answers_processPayload (s : State) (r : Reception) :
    answers (processPayload s r).2 ≤ 1 := by
  unfold processPayload
  split
  · exact zero_le _
  · split
    · split
      · split
        · exact zero_le _
        · exact answers_dispatch _ r _
      · exact answers_dispatch _ r _
    · split
      · exact le_rfl
      · exact answers_dispatch _ r _

/-! ## Dispatched replies -/

def cachedRequests (s : State) (key : Key) : List CachedMessage :=
  s.cacheMaster.filter fun cache ↦ decide (requestKey cache.message.header = key)

def dispatches (key : Key) (outputs : List Output) : ℕ :=
  outputs.countP fun output ↦ match output with
    | .dispatched msg => decide (msg.header.flags &&& Flags.reply ≠ 0 ∧ replyKey msg.header = key)
    | _ => false

theorem suffix_of_transmits (h : Transmits s t) (key : Key) :
    cachedRequests s key <:+ cachedRequests t key := by
  cases h with
  | same controller | subordinate controller entry hfits => exact suffix_refl _
  | master controller entry hfits => exact (suffix_cons entry s.cacheMaster).filter _

theorem suffix_of_transmissions (h : Transmissions s t) (key : Key) :
    cachedRequests s key <:+ cachedRequests t key := by
  induction h with
  | refl => exact suffix_refl _
  | tail _ hstep ih => exact ih.trans (suffix_of_transmits hstep key)

theorem dispatches_replyToCommand (key : Key) (s : State) (msg : WireMessage)
    (fSuccess fCritical : Bool) (payload : Option (List UInt8)) (o : Outcome) :
    dispatches key (replyToCommand s msg fSuccess fCritical payload o).2.2 = 0 := by
  unfold replyToCommand
  split <;> rfl

theorem dispatches_runHandler (key : Key) (calls : List HandlerCall) (s : State)
    (msg : WireMessage) : dispatches key (runHandler calls s msg).2.2 = 0 := by
  induction calls generalizing s msg with
  | nil => rfl
  | cons call calls ih =>
    cases call with
    | reply fSuccess fCritical payload o =>
      have hreply := dispatches_replyToCommand key s msg fSuccess fCritical payload o
      have hrest := ih (replyToCommand s msg fSuccess fCritical payload o).1
        (replyToCommand s msg fSuccess fCritical payload o).2.1
      simp only [runHandler, dispatches, countP_append] at hreply hrest ⊢
      omega
    | event cmd flags payload o =>
      have hrest := ih (sendEvent s cmd flags payload o).1 msg
      simp only [runHandler, dispatches, countP_append] at hrest ⊢
      simpa [sendEvent] using hrest

/-- Looking a handler up dispatches the packet at most. -/
theorem dispatches_dispatch (key : Key) (s : State) (r : Reception) (lookup : List UInt32) :
    dispatches key (dispatch s r lookup).2 ≤
      if r.msg.header.flags &&& Flags.reply ≠ 0 ∧ replyKey r.msg.header = key then 1 else 0 := by
  unfold dispatch
  split
  · have hcalls := dispatches_runHandler key r.calls s r.msg
    have hlast := dispatches_replyToCommand key (runHandler r.calls s r.msg).1
      (runHandler r.calls s r.msg).2.1 r.result false none r.o
    simp only [dispatches, cons_append, countP_cons, countP_append,
      decide_eq_true_eq] at hcalls hlast ⊢
    omega
  · exact (dispatches_replyToCommand key s r.msg false false none r.o).trans_le (zero_le _)

/-- The replies that may still be dispatched for a cached request. -/
def pending (cache : CachedMessage) : ℕ :=
  if cache.processed then 0 else 1

variable {c c' : CachedMessage} {key : Key}

theorem pending_of_suffix (hc : cachedRequests s key = [c]) (hc' : cachedRequests t key = [c'])
    (h : cachedRequests s key <:+ cachedRequests t key) : pending c' = pending c := by
  have hsame := h.eq_of_length (by rw [hc, hc']; rfl)
  have heq : c = c' := head_eq_of_cons_eq (hc.symm.trans (hsame.trans hc'))
  rw [heq]

variable {r : Reception}

theorem dispatch_other {lookup : List UInt32} (hc : cachedRequests s key = [c])
    (hc' : cachedRequests (dispatch s r lookup).1 key = [c'])
    (hother : ¬ (r.msg.header.flags &&& Flags.reply ≠ 0 ∧ replyKey r.msg.header = key)) :
    dispatches key (dispatch s r lookup).2 + pending c' ≤ pending c := by
  have hnone := (dispatches_dispatch key s r lookup).trans_eq (if_neg hother)
  rw [le_zero.1 hnone, Nat.zero_add,
    pending_of_suffix hc hc' (suffix_of_transmissions (transmissions_dispatch s r lookup) key)]

/-- The request that a reply answers is found, and marked when the reply is taken. -/
theorem takeReply_key (now : ℤ) (hc : cachedRequests s (replyKey reply) = [c]) :
    s.cacheMaster.find? (isAnsweredBy reply) = some c ∧
      cachedRequests (s.takeReply reply c now) (replyKey reply) =
        [{ c with lastSeen := now, processed := true }] := by
  have hfind : s.cacheMaster.find? (isAnsweredBy reply) = some c := by
    rw [← head?_filter]
    exact congrArg List.head? hc
  have hmatch : isAnsweredBy reply c = true := find?_some hfind
  let entry : CachedMessage := { c with lastSeen := now, processed := true }
  have hentry : isAnsweredBy reply entry = true := hmatch
  refine ⟨hfind, (filter_cons_of_pos hentry).trans (congrArg (entry :: ·) ?_)⟩
  exact tail_eq_of_cons_eq ((filter_eq_cons hfind).symm.trans hc)

/-- Requests with another key stay where they are when a reply is taken. -/
theorem takeReply_other {cache : CachedMessage} (now : ℤ)
    (hcache : s.cacheMaster.find? (isAnsweredBy reply) = some cache) (hkey : replyKey reply ≠ key) :
    cachedRequests (s.takeReply reply cache now) key = cachedRequests s key := by
  have hfound : isAnsweredBy reply cache = true := find?_some hcache
  have hmatch : requestKey cache.message.header = replyKey reply := of_decide_eq_true hfound
  let hasKey := fun e : CachedMessage ↦ decide (requestKey e.message.header = key)
  have hentry : ¬ hasKey { cache with lastSeen := now, processed := true } = true :=
    fun h ↦ hkey (hmatch.symm.trans (of_decide_eq_true h))
  calc cachedRequests (s.takeReply reply cache now) key
      = (s.cacheMaster.eraseP (isAnsweredBy reply)).filter hasKey := filter_cons_of_neg hentry
    _ = cachedRequests s key := filter_eraseP fun e he ↦
        decide_eq_false fun hin ↦ hkey ((of_decide_eq_true he).symm.trans hin)

/-- A received packet leaves fewer replies to be dispatched by those it dispatches. -/
theorem pending_processPayload (hc : cachedRequests s key = [c])
    (hc' : cachedRequests (processPayload s r).1 key = [c']) :
    dispatches key (processPayload s r).2 + pending c' ≤ pending c := by
  unfold processPayload at hc' ⊢
  by_cases hnack : r.msg.header.flags &&& nack ≠ 0
  · rw [if_pos hnack] at hc' ⊢
    rw [pending_of_suffix hc hc' (suffix_refl _)]
    exact (Nat.zero_add _).le
  · rw [if_neg hnack] at hc' ⊢
    by_cases hreply : r.msg.header.flags &&& reply ≠ 0
    · rw [if_pos hreply] at hc' ⊢
      by_cases hkey : replyKey r.msg.header = key
      · -- the reply is for the request with the key
        obtain ⟨hfind, hlinked⟩ := takeReply_key r.now (hkey ▸ hc)
        rw [hkey] at hlinked
        rw [hfind] at hc' ⊢
        dsimp only at hc' ⊢
        by_cases hprocessed : c.processed = true
        · rw [if_pos hprocessed] at hc' ⊢
          rw [pending_of_suffix hlinked hc' (suffix_refl _)]
          exact zero_le _
        · rw [if_neg hprocessed] at hc' ⊢
          have hmarked := pending_of_suffix hlinked hc'
            (suffix_of_transmissions (transmissions_dispatch _ r s.replyLookup) key)
          have hone := (dispatches_dispatch key (s.takeReply r.msg.header c r.now) r
            s.replyLookup).trans_eq (if_pos ⟨hreply, hkey⟩)
          rw [hmarked, pending, pending, if_pos rfl, if_neg hprocessed]
          exact hone
      · have hother : ¬ (r.msg.header.flags &&& reply ≠ 0 ∧
            replyKey r.msg.header = key) := fun h ↦ hkey h.2
        cases hfind : s.cacheMaster.find? (isAnsweredBy r.msg.header) with
        | none =>
          rw [hfind] at hc'
          exact dispatch_other hc hc' hother
        | some cache =>
          rw [hfind] at hc'
          dsimp only at hc' ⊢
          have hlinked := (takeReply_other r.now hfind hkey).trans hc
          by_cases hprocessed : cache.processed = true
          · rw [if_pos hprocessed] at hc' ⊢
            rw [pending_of_suffix hlinked hc' (suffix_refl _)]
            exact (Nat.zero_add _).le
          · rw [if_neg hprocessed] at hc' ⊢
            exact dispatch_other hlinked hc' hother
    · rw [if_neg hreply] at hc' ⊢
      have hother : ¬ (r.msg.header.flags &&& reply ≠ 0 ∧
          replyKey r.msg.header = key) := fun h ↦ hreply h.1
      cases hfind : s.cacheSubordinate.find? (isAnswerTo r.msg.header) with
      | none =>
        rw [hfind] at hc'
        exact dispatch_other hc hc' hother
      | some cache =>
        rw [hfind] at hc'
        have hsuffix := suffix_of_transmits (transmits_transmitMessage
          (s.touchReply r.msg.header cache r.now) s.controller cache.message false r.o) key
        rw [pending_of_suffix hc hc' hsuffix]
        exact (Nat.zero_add _).le

/-! ## The caches over a run -/

def OnlyCached (key : Key) (node : ℕ) (s : State) : Prop :=
  ∃ c, cachedRequests s key = [c] ∧ c.node = node

def Cached (key : Key) (node : ℕ) (s : State) : Prop :=
  ∃ c ∈ cachedRequests s key, c.node = node

/-- One step leaves fewer replies to be dispatched by those it dispatches. -/
theorem pending_step (hs : Accounted s) (op : Op)
    (hc : cachedRequests s key = [c]) (hc' : cachedRequests (step s op).1 key = [c']) :
    dispatches key (step s op).2 + pending c' ≤ pending c := by
  cases op with
  | receive r => exact pending_processPayload hc hc'
  | send cmd flags payload o =>
    have hsuffix := suffix_of_transmits (transmits_sendEvent s cmd flags payload o) key
    rw [pending_of_suffix hc hc' hsuffix]
    exact (Nat.zero_add _).le
  | purge now =>
    have hsublist : (cachedRequests (purgeCache s now) key).Sublist (cachedRequests s key) :=
      (purgeCache_spec hs now).2.1.filter _
    have hpurged : cachedRequests (purgeCache s now) key = [c'] := hc'
    have hsame := hsublist.eq_of_length (by rw [hc, hpurged]; rfl)
    rw [pending_of_suffix hc hpurged (hsame ▸ suffix_refl _)]
    exact (Nat.zero_add _).le

theorem dispatches_le_pending {outputs : List Output}
    (h : RunsWhile (OnlyCached key node) s outputs t) (hs : Accounted s)
    (hc : cachedRequests s key = [c]) : dispatches key outputs ≤ pending c := by
  induction h generalizing c with
  | nil _ => exact zero_le _
  | @step s t outputs op _ hrun ih =>
    obtain ⟨c', hc', -⟩ : OnlyCached key node (step s op).1 := by
      cases hrun with
      | nil h | step _ h _ => exact h
    calc dispatches key ((step s op).2 ++ outputs)
        = dispatches key (step s op).2 + dispatches key outputs := countP_append
      _ ≤ dispatches key (step s op).2 + pending c' := Nat.add_le_add_left (ih (hs.step op) hc') _
      _ ≤ pending c := pending_step hs op hc hc'

structure Idempotent (s : State) : Prop where
  request : ∀ r : Reception, r.msg.header.flags &&& nack = 0 →
    r.msg.header.flags &&& Flags.reply = 0 →
    (∃ cache ∈ s.cacheSubordinate, isAnswerTo r.msg.header cache = true) →
    ∃ cache ∈ s.cacheSubordinate, isAnswerTo r.msg.header cache = true ∧
      (step s (.receive r)).2 = [.answered cache.message]
  reply : ∀ key node outputs t, RunsWhile (OnlyCached key node) s outputs t →
    dispatches key outputs ≤ 1
  answers : ∀ r : Reception, answers (step s (.receive r)).2 ≤ 1
  nack : ∀ r : Reception, r.msg.header.flags &&& nack ≠ 0 →
    (step s (.receive r)).2 = []
  total : s.cacheTotalSize.toNat = s.cachedBytes
  purge : ∀ now, (step s (.purge now)).1.cacheTotalSize ≤ maxCacheSize

/-- In every state that can be reached a request is answered from the cache while its reply is
there, a reply is dispatched at most once while its request is the only cached one with its
command and sequence number, a packet is answered at most once and a NACK packet never, and the
total is that of the cached sizes and within the maximum after a purge. -/
theorem idempotent_of_reachable {s : State} (h : Reachable s) : Idempotent s where
  request r hnack hreply hcached := by
    obtain ⟨cache, hmem, hmatch⟩ := hcached
    obtain ⟨found, hfound⟩ := Option.isSome_iff_exists.1 (find?_isSome.2 ⟨cache, hmem, hmatch⟩)
    refine ⟨found, mem_of_find?_eq_some hfound, find?_some hfound, ?_⟩
    rw [step, processPayload, if_neg (fun hne ↦ hne hnack), if_neg (fun hne ↦ hne hreply), hfound]
  reply key node outputs t hrun := by
    obtain ⟨c, hc, -⟩ : OnlyCached key node s := by
      cases hrun with
      | nil h | step _ h _ => exact h
    refine (dispatches_le_pending hrun h.accounted hc).trans ?_
    unfold pending
    split <;> omega
  answers r := answers_processPayload s r
  nack r hnack := by rw [step, processPayload, if_pos hnack]
  total := h.accounted.total
  purge now := (purgeCache_spec h.accounted now).2.2

/-! ## A sequence number comes again -/

theorem RunsWhile.append {P : State → Prop} {u : State} {first second : List Output}
    (h : RunsWhile P s first t) (h' : RunsWhile P t second u) :
    RunsWhile P s (first ++ second) u := by
  induction h with
  | nil _ => exact h'
  | step op hs _ ih => exact append_assoc _ _ _ ▸ .step op hs (ih h')

/-- Everything succeeds. -/
def success : Outcome :=
  ⟨true, true, true, 0⟩

/-- A command that has a handler for replies. -/
def sampleCmd : UInt32 :=
  0x00020091

def State.numbered (s : State) (number : UInt16) : State :=
  { s with controller := { s.controller with lastOutboundMessage := number } }

theorem transmitMessage_nonCritical (s : State) (msg : WireMessage) (hpayload : msg.payload = none)
    (hflags : msg.header.flags = nonCritical) : transmitMessage s msg true success = s := by
  unfold transmitMessage
  rw [hpayload, hflags, if_neg (by decide), if_neg (fun h ↦ Bool.false_ne_true h.2.1),
    if_pos (by decide)]
  dsimp only
  rw [if_neg (by decide), if_pos (by decide)]

theorem sendEvent_nonCritical (s : State) :
    (sendEvent s sampleCmd nonCritical none success).1 =
      s.numbered (s.controller.lastOutboundMessage + 1) :=
  transmitMessage_nonCritical _ ⟨prepareRequest s.controller sampleCmd nonCritical [], none⟩
    rfl rfl

theorem sendEvent_critical (s : State) (hroom : s.cachedBytes + 96 ≤ s.heapSize.toNat) :
    (sendEvent s sampleCmd 0 none success).1 =
      { s.numbered (s.controller.lastOutboundMessage + 1) with
        cacheTotalSize := s.cacheTotalSize + 96
        nodes := s.nodes + 1
        cacheMaster := s.newEntry ⟨prepareRequest s.controller sampleCmd 0 [], none⟩ success ::
          s.cacheMaster } := by
  let msg : WireMessage := ⟨prepareRequest s.controller sampleCmd 0 [], none⟩
  have hflags : msg.header.flags = 0 := rfl
  let next := s.numbered (s.controller.lastOutboundMessage + 1)
  have hfits : next.hasRoom (next.newEntry msg success) success = true := decide_eq_true hroom
  change transmitMessage next msg true success = _
  unfold transmitMessage
  rw [hflags, if_neg (by decide), if_neg (fun h ↦ Bool.false_ne_true h.2.1), if_pos (by decide)]
  dsimp only
  rw [if_neg (by decide), if_neg (by decide), if_pos hfits]
  rfl

/-- Events that take sequence numbers. -/
theorem runsWhile_events (n : ℕ) (h : Cached key node s) :
    ∃ outputs, RunsWhile (Cached key node) s outputs
      (s.numbered (s.controller.lastOutboundMessage + UInt16.ofNat n)) := by
  induction n generalizing s with
  | zero =>
    have hzero : s.controller.lastOutboundMessage + UInt16.ofNat 0 =
        s.controller.lastOutboundMessage := UInt16.add_zero _
    rw [hzero]
    exact ⟨[], .nil h⟩
  | succ n ih =>
    let next := s.numbered (s.controller.lastOutboundMessage + 1)
    obtain ⟨outputs, hrun⟩ := ih (s := next) h
    have hnumber : s.controller.lastOutboundMessage + 1 + UInt16.ofNat n =
        s.controller.lastOutboundMessage + UInt16.ofNat (n + 1) := by
      rw [UInt16.ofNat_add, UInt16.add_assoc, UInt16.add_comm 1]
      rfl
    have hstep : (step s (.send sampleCmd nonCritical none success)).1 = next :=
      sendEvent_nonCritical s
    have hrest : RunsWhile (Cached key node)
        (step s (.send sampleCmd nonCritical none success)).1 outputs
        (s.numbered (s.controller.lastOutboundMessage + UInt16.ofNat (n + 1))) := by
      rw [hstep, ← hnumber]
      exact hrun
    exact ⟨_, .step _ h hrest⟩

/-- The reply to the request with the sequence number zero. -/
def sampleReply : Reception where
  msg := ⟨⟨markerDebuggerV1, 0, 0, sampleCmd, 7, 0, Flags.reply ||| Flags.nonCritical, 0⟩, none⟩
  now := 0
  calls := []
  result := true
  o := success

/-- The reply is dispatched when its request is not marked. -/
theorem step_sampleReply {cache : CachedMessage}
    (hfind : s.cacheMaster.find? (isAnsweredBy sampleReply.msg.header) = some cache)
    (hprocessed : cache.processed = false) (hlookup : s.replyLookup = [sampleCmd]) :
    step s (.receive sampleReply) =
      (s.takeReply sampleReply.msg.header cache 0, [.dispatched sampleReply.msg]) := by
  have hmem : sampleReply.msg.header.cmd ∈ s.replyLookup := hlookup ▸ mem_singleton_self _
  rw [step, processPayload, if_neg (by decide), if_pos (by decide), hfind]
  dsimp only
  have hmarked : ∀ t, replyToCommand t sampleReply.msg true false none success =
      (t, sampleReply.msg, []) := fun t ↦ if_pos (by decide)
  rw [if_neg (by rw [hprocessed]; decide), dispatch, if_pos hmem]
  let taken := s.takeReply sampleReply.msg.header cache 0
  have hcalls : runHandler sampleReply.calls taken sampleReply.msg = (taken, sampleReply.msg, []) :=
    rfl
  have hanswer : replyToCommand (runHandler sampleReply.calls taken sampleReply.msg).1
      (runHandler sampleReply.calls taken sampleReply.msg).2.1 sampleReply.result false none
        sampleReply.o = (taken, sampleReply.msg, []) := by
    rw [hcalls]
    exact hmarked taken
  exact congrArg₂ (fun handled reply : State × WireMessage × List Output ↦
    (reply.1, Output.dispatched sampleReply.msg :: handled.2.2 ++ reply.2.2)) hcalls hanswer

def sampleState : State where
  controller := ⟨some markerDebuggerV1, 0⟩
  requestLookup := [sampleCmd]
  replyLookup := [sampleCmd]
  cacheSubordinate := []
  cacheMaster := []
  cacheTotalSize := 0
  nodes := 0
  heapSize := 65536

def requestSent : State :=
  (step sampleState (.send sampleCmd 0 none success)).1

/-- A request of the peer, with the sequence number nine. -/
def sampleRequest : Reception :=
  { sampleReply with msg := ⟨⟨markerDebuggerV1, 0, 0, sampleCmd, 9, 0, 0, 0⟩, none⟩ }

def requestAnswered : State :=
  (step requestSent (.receive sampleRequest)).1

/-- Both caches hold an entry; the peer's request comes again, and so does its reply. -/
theorem idempotent_requestAnswered : Idempotent requestAnswered ∧
    (∃ c, OnlyCached (sampleCmd, 0) c requestAnswered) ∧
    ∃ cache ∈ requestAnswered.cacheSubordinate,
      (step requestAnswered (.receive sampleRequest)).2 = [.answered cache.message] := by
  have hidempotent : Idempotent requestAnswered :=
    idempotent_of_reachable (.step _ (.step _ (.start ⟨rfl, rfl, rfl⟩)))
  obtain ⟨cache, hcache, -, hanswered⟩ := hidempotent.request sampleRequest (by decide) (by decide)
    ⟨_, mem_cons_self, by decide⟩
  exact ⟨hidempotent, ⟨0, _, rfl, rfl⟩, cache, hcache, hanswered⟩

/-- When the sequence numbers have come round, a reply is dispatched again while its request is
still cached. -/
theorem dispatched_twice :
    ¬ ∀ s, Reachable s → ∀ key node outputs t, RunsWhile (Cached key node) s outputs t →
      dispatches key outputs ≤ 1 := by
  intro hall
  let entry := sampleState.newEntry
    ⟨prepareRequest sampleState.controller sampleCmd 0 [], none⟩ success
  have hstart : Reachable requestSent := .step _ (.start ⟨rfl, rfl, rfl⟩)
  have hsent : requestSent.cacheMaster = [entry] := rfl
  have hcached : Cached (sampleCmd, 0) 0 requestSent := ⟨entry, mem_singleton_self _, rfl⟩
  -- the reply comes
  let marked : CachedMessage := { entry with processed := true }
  let replied := requestSent.takeReply sampleReply.msg.header entry 0
  have hfirst : requestSent.cacheMaster.find? (isAnsweredBy sampleReply.msg.header) = some entry :=
    rfl
  have hreply := step_sampleReply hfirst rfl rfl
  have hreplied : Cached (sampleCmd, 0) 0 replied := ⟨marked, mem_singleton_self _, rfl⟩
  -- events use the sequence numbers up, and the next request has the first one again
  obtain ⟨events, hevents⟩ := runsWhile_events 65535 hreplied
  let round := replied.numbered 0
  have hround : replied.numbered (replied.controller.lastOutboundMessage + UInt16.ofNat 65535) =
      round := congrArg replied.numbered (by decide : (1 : UInt16) + UInt16.ofNat 65535 = 0)
  let second := round.newEntry ⟨prepareRequest round.controller sampleCmd 0 [], none⟩ success
  let again := (step round (.send sampleCmd 0 none success)).1
  have hsecond := sendEvent_critical round (by decide)
  have hagain : again.cacheMaster = [second, marked] := congrArg State.cacheMaster hsecond
  have hlookup : again.replyLookup = [sampleCmd] := congrArg State.replyLookup hsecond
  have hstays : Cached (sampleCmd, 0) 0 again :=
    ⟨marked, mem_filter.2 ⟨hagain ▸ mem_cons_of_mem _ (mem_singleton_self _), rfl⟩,
      rfl⟩
  -- the reply comes once more
  let last := again.takeReply sampleReply.msg.header second 0
  have hfind : again.cacheMaster.find? (isAnsweredBy sampleReply.msg.header) = some second := by
    rw [hagain]
    rfl
  have htwice := step_sampleReply hfind rfl hlookup
  have hlastMaster : last.cacheMaster = [{ second with processed := true }, marked] := by
    change linkAtFront _ _ again.cacheMaster = _
    rw [hagain]
    rfl
  have hlast : Cached (sampleCmd, 0) 0 last :=
    ⟨marked, mem_filter.2 ⟨hlastMaster ▸ mem_cons_of_mem _ (mem_singleton_self _), rfl⟩, rfl⟩
  have hend : RunsWhile (Cached (sampleCmd, 0) 0) again
      ((step again (.receive sampleReply)).2 ++ []) last :=
    .step _ hstays (htwice ▸ .nil hlast)
  have hrun : RunsWhile (Cached (sampleCmd, 0) 0) requestSent
      ((step requestSent (.receive sampleReply)).2 ++ (events ++
        ((step round (.send sampleCmd 0 none success)).2 ++
          ((step again (.receive sampleReply)).2 ++ [])))) last := by
    refine .step _ hcached ?_
    rw [hreply]
    exact (hround ▸ hevents).append (.step _ hreplied hend)
  have hle := hall requestSent hstart _ _ _ _ hrun
  have hone : dispatches (sampleCmd, 0) [.dispatched sampleReply.msg] = 1 := by decide
  rw [hreply, htwice, dispatches, countP_append, countP_append, countP_append,
    countP_append] at hle
  change dispatches (sampleCmd, 0) [.dispatched sampleReply.msg] + (_ + (_ +
    (dispatches (sampleCmd, 0) [.dispatched sampleReply.msg] + _))) ≤ 1 at hle
  rw [hone] at hle
  omega

end MicroFramework.Messaging.Caching
