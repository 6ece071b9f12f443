import MicroFramework.Library.Runs
import MicroFramework.Volumes.VolumeList

/-!
# The names of mounted volumes

In every run of mounting and unmounting the mounted volumes have different names by which they are
found, as long as a zero stands behind every suffix that is written.
-/

namespace MicroFramework.Volumes

open Library NextAvailableName List NameBuffer

variable {Device Medium Driver : Type*} {volumes : List (Volume Device Driver)}
  {request : Request Device Driver}

namespace Volume

def name (v : Volume Device Driver) : List UInt8 :=
  cString v.nameSpace.bytes

/-- The name ends inside its array. -/
def Terminated (v : Volume Device Driver) : Prop :=
  0 ∈ v.nameSpace.bytes

theorem Terminated.length_name {v : Volume Device Driver} (h : v.Terminated) :
    v.name.length ≤ fsNameDefaultLength := by
  have hlt := length_cString_lt h
  rw [v.nameSpace.length_eq] at hlt
  exact Nat.le_of_lt_succ hlt

end Volume

/-- The mounted volumes have names that end, are different, and lead to their volumes. -/
structure WellNamed (volumes : List (Volume Device Driver)) : Prop where
  terminated : ∀ v ∈ volumes, v.Terminated ∧ v.name.length ≤ fsNameDefaultLength
  distinct : volumes.Pairwise fun v w ↦ v.name ≠ w.name
  found : ∀ nameSpace : List UInt8, 0 ∉ nameSpace →
    findVolume nameSpace volumes = some (volumes.find? fun v ↦ v.name = nameSpace)

/-! ### The suffix -/

/-- Where the original name is taken, a zero stands behind the place of the digit: that of a name of
full length, or one that the memory holds. -/
def ZeroBehindSuffix (volumes : List (Volume Device Driver)) (nameSpace : List UInt8)
    (memory : NextAvailableName) : Prop :=
  ∀ h : (cString nameSpace).length < fsNameMaxLength,
    nameTaken volumes (memory.nextAvailableName.copy (cString nameSpace) h) = true →
      (cString nameSpace).length = fsNameDefaultLength ∨
        ∃ j, digitPos (cString nameSpace).length < j ∧
          memory.nextAvailableName.bytes[j]? = some 0

/-- A zero stands behind the digit. -/
def Spare (n : NextAvailableName) : Prop :=
  ∃ j, n.digit < j ∧ n.nextAvailableName.bytes[j]? = some 0

namespace NextAvailableName

/-- A digit is written in its place only. -/
theorem spare_generate {n n' : NextAvailableName} (hspare : Spare n) (hiteration : 2 ≤ n.iteration)
    (hgenerate : n.generateNextAvailableName = some n') : Spare n' ∧ 2 ≤ n'.iteration := by
  rw [generateNextAvailableName, if_neg (by omega), if_neg (by omega)] at hgenerate
  split at hgenerate
  · cases hgenerate
  · split at hgenerate
    · cases hgenerate
    · obtain rfl := Option.some.inj hgenerate
      obtain ⟨j, hj, hzero⟩ := hspare
      refine ⟨⟨j, hj, ?_⟩, hiteration⟩
      rw [NameBuffer.set, getElem?_set_ne hj.ne, hzero]

theorem getElem?_copy {b : NameBuffer} {s : List UInt8} (h : s.length < fsNameMaxLength) {j : ℕ}
    (hj : s.length < j) : (b.copy s h).bytes[j]? = b.bytes[j]? := by
  obtain ⟨k, rfl⟩ := Nat.exists_eq_add_of_lt hj
  rw [NameBuffer.copy, getElem?_append_right (by omega)]
  have hsub : s.length + k + 1 - s.length = k + 1 := by omega
  rw [hsub, getElem?_cons_succ, getElem?_drop, Nat.add_right_comm]

theorem length_lt_of_digitPos_lt {nameLength j : ℕ} (hlength : nameLength < fsNameMaxLength)
    (h : digitPos nameLength < j) : nameLength < j ∨ nameLength = fsNameDefaultLength := by
  rw [digitPos, fsNameDefaultLength] at h
  rw [fsNameMaxLength, fsNameDefaultLength] at hlength
  rw [fsNameDefaultLength]
  split at h <;> omega

/-- The suffix leaves the zero behind it. -/
theorem spare_suffix {n n' : NextAvailableName} (hiteration : n.iteration = 1)
    (hspare : ∃ j, digitPos (cString n.nextAvailableName.bytes).length < j ∧
      n.nextAvailableName.bytes[j]? = some 0)
    (hgenerate : n.generateNextAvailableName = some n') : Spare n' ∧ 2 ≤ n'.iteration := by
  rw [generateNextAvailableName, if_neg (by omega), if_pos hiteration] at hgenerate
  obtain rfl := Option.some.inj hgenerate
  obtain ⟨j, hj, hzero⟩ := hspare
  refine ⟨⟨j, hj, ?_⟩, by dsimp only; omega⟩
  rw [NameBuffer.set, NameBuffer.set, getElem?_set_ne hj.ne, getElem?_set_ne (by omega),
    hzero]

end NextAvailableName

variable {n n' : NextAvailableName}

theorem nameTaken_nextName {fuel : ℕ}
    (h : nextName volumes fuel n = some n') : nameTaken volumes n'.nextAvailableName = false := by
  induction fuel generalizing n with
  | zero => cases h
  | succ fuel ih =>
    rw [nextName] at h
    split at h
    · cases h
    · split at h
      case isTrue => exact ih h
      case isFalse hfree =>
        obtain rfl := Option.some.inj h
        exact Bool.eq_false_iff.mpr hfree

/-- With a zero behind the digit all further names end. -/
theorem zero_mem_of_spare {fuel : ℕ} (hspare : Spare n)
    (hiteration : 2 ≤ n.iteration) (h : nextName volumes fuel n = some n') :
    0 ∈ n'.nextAvailableName.bytes := by
  induction fuel generalizing n with
  | zero => cases h
  | succ fuel ih =>
    rw [nextName] at h
    split at h
    · cases h
    case h_2 m hgenerate =>
      obtain ⟨hspare', hiteration'⟩ := spare_generate hspare hiteration hgenerate
      split at h
      · exact ih hspare' hiteration' h
      · obtain rfl := Option.some.inj h
        obtain ⟨j, -, hzero⟩ := hspare'
        exact mem_of_getElem? hzero

variable {nameSpace : List UInt8}

/-- A name with a zero behind its suffix ends, and so does the original name. -/
theorem zero_mem_nextName {memory : NextAvailableName}
    (hzero : ZeroBehindSuffix volumes nameSpace memory)
    (hinit : memory.initializeName nameSpace = some n)
    (h : nextName volumes 11 n = some n') : 0 ∈ n'.nextAvailableName.bytes := by
  rw [initializeName] at hinit
  split at hinit
  · cases hinit
  split at hinit
  case isFalse => cases hinit
  case isTrue hlength =>
    obtain rfl := Option.some.inj hinit
    rw [nextName, generateNextAvailableName, if_pos rfl] at h
    dsimp only at h
    split at h
    case isFalse =>
      obtain rfl := Option.some.inj h
      exact mem_append_right _ mem_cons_self
    case isTrue htaken =>
      have hstring : cString (memory.nextAvailableName.copy (cString nameSpace) hlength).bytes =
          cString nameSpace := cString_append_zero (zero_notMem_cString _) _
      have hspare : ∃ j, digitPos (cString nameSpace).length < j ∧
          (memory.nextAvailableName.copy (cString nameSpace) hlength).bytes[j]? = some 0 := by
        rcases hzero hlength htaken with hfull | ⟨j, hj, hbyte⟩
        · refine ⟨(cString nameSpace).length, ?_, ?_⟩
          · rw [hfull]
            decide
          · rw [NameBuffer.copy, getElem?_append_right le_rfl, Nat.sub_self]
            rfl
        · rcases length_lt_of_digitPos_lt hlength hj with hlt | hfull
          · exact ⟨j, hj, (getElem?_copy hlength hlt).trans hbyte⟩
          · refine ⟨(cString nameSpace).length, ?_, ?_⟩
            · rw [hfull]
              decide
            · rw [NameBuffer.copy, getElem?_append_right le_rfl, Nat.sub_self]
              rfl
      rw [nextName] at h
      split at h
      · cases h
      case h_2 m hgenerate =>
        obtain ⟨hspare', hiteration'⟩ := spare_suffix rfl
          (by dsimp only; rw [hstring]; exact hspare) hgenerate
        split at h
        · exact zero_mem_of_spare hspare' hiteration' h
        · obtain rfl := Option.some.inj h
          obtain ⟨j, -, hbyte⟩ := hspare'
          exact mem_of_getElem? hbyte

/-! ### Finding a volume -/

theorem findVolume_cons {v : Volume Device Driver} (hv : v.Terminated) (hname : 0 ∉ nameSpace) :
    findVolume nameSpace (v :: volumes) =
      if v.name = nameSpace then some (some v) else findVolume nameSpace volumes := by
  have hstring : cString (nameSpace ++ [0]) = nameSpace := cString_append_zero hname []
  have hcompare : strncmpZero nameSpace.length v.nameSpace.bytes (nameSpace ++ [0]) =
      some (decide (v.name.take nameSpace.length = nameSpace)) := by
    rw [strncmpZero_eq hv (mem_append_right nameSpace (mem_singleton_self 0)), hstring,
      take_length]
    rfl
  rw [findVolume, hcompare]
  by_cases hstart : v.name.take nameSpace.length = nameSpace
  · rw [decide_eq_true hstart]
    dsimp only
    have hle : nameSpace.length ≤ v.name.length := by
      rw [← hstart, length_take]
      exact min_le_right _ _
    by_cases heq : v.name = nameSpace
    · have hend : v.nameSpace.bytes[nameSpace.length]? = some 0 := by
        rw [← heq]
        exact getElem?_length_cString hv
      rw [hend, if_pos heq]
      rfl
    · have hlt : nameSpace.length < v.name.length := by
        apply lt_of_le_of_ne hle
        intro hlength
        rw [hlength, take_length] at hstart
        exact heq hstart
      have hne : v.nameSpace.bytes[nameSpace.length]? ≠ some 0 := getElem?_ne_zero hlt
      rw [if_neg heq]
      have hget := getElem?_eq_getElem
        (hlt.trans (length_cString_lt hv) : nameSpace.length < v.nameSpace.bytes.length)
      rw [hget] at hne ⊢
      dsimp only
      rw [if_neg fun hzero ↦ hne (congrArg some hzero)]
  · rw [decide_eq_false hstart]
    dsimp only
    rw [if_neg]
    rintro rfl
    exact hstart take_length

theorem findVolume_eq (h : ∀ v ∈ volumes, v.Terminated) (hname : 0 ∉ nameSpace) :
    findVolume nameSpace volumes = some (volumes.find? fun v ↦ v.name = nameSpace) := by
  induction volumes with
  | nil => rfl
  | cons v volumes ih =>
    rw [findVolume_cons (h v mem_cons_self) hname, find?_cons]
    by_cases heq : v.name = nameSpace
    · rw [if_pos heq, decide_eq_true heq]
    · rw [if_neg heq, decide_eq_false heq, ih fun w hw ↦ h w (mem_cons_of_mem v hw)]

theorem wellNamed_of (hterminated : ∀ v ∈ volumes, v.Terminated)
    (hdistinct : volumes.Pairwise fun v w ↦ v.name ≠ w.name) : WellNamed volumes where
  terminated v hv := ⟨hterminated v hv, (hterminated v hv).length_name⟩
  distinct := hdistinct
  found _ hname := findVolume_eq hterminated hname

/-! ### One volume -/

theorem name_ne_of_free {name : NameBuffer} (hfree : nameTaken volumes name = false)
    (hname : 0 ∈ name.bytes) {v : Volume Device Driver} (hv : v ∈ volumes) (hend : v.Terminated) :
    v.name ≠ cString name.bytes := by
  intro heq
  have hcompare : strncmpZero fsNameDefaultLength v.nameSpace.bytes name.bytes = some true := by
    rw [strncmpZero_eq hend hname, ← heq]
    exact congrArg some (decide_eq_true rfl)
  have htaken : nameTaken volumes name = true := any_eq_true.mpr ⟨v, hv, decide_eq_true hcompare⟩
  rw [hfree] at htaken
  cases htaken

/-- A volume is added behind the others under a name that is not taken, or the list stays. -/
theorem addVolume_cases (volumes : List (Volume Device Driver)) (request : Request Device Driver)
    (volumeId : ℕ) (s : Surroundings) :
    addVolume volumes request volumeId s = (false, volumes) ∨
      ∃ n n' fsv, s.memory.initializeName request.nameSpace = some n ∧
        nextName volumes 11 n = some n' ∧ fsv.nameSpace = n'.nextAvailableName ∧
          addVolume volumes request volumeId s = (true, volumes ++ [fsv]) := by
  rw [addVolume]
  cases hinit : s.memory.initializeName request.nameSpace with
  | none => exact .inl rfl
  | some n =>
    dsimp only
    cases hnext : nextName volumes 11 n with
    | none => exact .inl rfl
    | some n' =>
      dsimp only
      generalize (if request.fsDriver.isSome = true then s.initialized else true) = success
      cases success with
      | false => exact .inl rfl
      | true => exact .inr ⟨n, n', _, rfl, hnext, rfl, rfl⟩

theorem WellNamed.addVolume (h : WellNamed volumes) {volumeId : ℕ} {s : Surroundings}
    (hzero : ZeroBehindSuffix volumes request.nameSpace s.memory) :
    WellNamed (addVolume volumes request volumeId s).2 := by
  rcases addVolume_cases volumes request volumeId s with hsame | ⟨n, n', fsv, hn, hn', hname, hadd⟩
  · rw [hsame]
    exact h
  · have hend : fsv.Terminated := by
      rw [Volume.Terminated, hname]
      exact zero_mem_nextName hzero hn hn'
    have hfree := nameTaken_nextName hn'
    rw [← hname] at hfree
    rw [hadd]
    apply wellNamed_of
    · intro v hv
      rcases mem_append.mp hv with hv | hv
      · exact (h.terminated v hv).1
      · rw [mem_singleton.mp hv]
        exact hend
    · rw [pairwise_append]
      refine ⟨h.distinct, pairwise_singleton _ _, fun v hv w hw ↦ ?_⟩
      rw [mem_singleton.mp hw]
      exact name_ne_of_free hfree hend hv (h.terminated v hv).1

/-! ### Runs -/

/-- Every volume that a mount adds has a zero behind its suffix. -/
def CleanMount (request : Request Device Driver) (surroundings : ℕ → Surroundings) :
    List ℕ → List (Volume Device Driver) → Prop
  | [], _ => True
  | i :: is, volumes => (surroundings i).allocated = true →
    ZeroBehindSuffix volumes request.nameSpace (surroundings i).memory ∧
      CleanMount request surroundings is (addVolume volumes request i (surroundings i)).2

theorem WellNamed.mountVolumes (h : WellNamed volumes) {surroundings : ℕ → Surroundings}
    {is : List ℕ} (hclean : CleanMount request surroundings is volumes) :
    WellNamed (mountVolumes request surroundings is volumes) := by
  induction is generalizing volumes with
  | nil => exact h
  | cons i is ih =>
    rw [Volumes.mountVolumes]
    split
    case isTrue hallocated =>
      obtain ⟨hzero, hclean'⟩ := hclean hallocated
      exact ih (h.addVolume hzero) hclean'
    case isFalse => exact h

def Clean (fileSystems : List (FileSystem Device Medium Driver)) (s : VolumeLists Device Driver) :
    Call Device Medium → Prop
  | .mountVolume nameSpace serialNumber deviceFlags device medium surroundings =>
    let found := findFileSystem device medium fileSystems 0
    CleanMount (requestFor nameSpace serialNumber deviceFlags device found.1) surroundings
      (List.range found.2) s.volumes
  | .unmountVolume _ => True

variable [DecidableEq Device]

/-- A clean call keeps the names. -/
theorem WellNamed.step {fileSystems : List (FileSystem Device Medium Driver)}
    {s s' : VolumeLists Device Driver} {call : Call Device Medium} (h : WellNamed s.volumes)
    (hclean : Clean fileSystems s call) (hstep : step fileSystems s call = some s') :
    WellNamed s'.volumes := by
  cases call with
  | mountVolume nameSpace serialNumber deviceFlags device medium surroundings =>
    obtain rfl := Option.some.inj hstep
    exact h.mountVolumes hclean
  | unmountVolume device =>
    obtain rfl := Option.some.inj hstep
    apply wellNamed_of
    · intro v hv
      exact (h.terminated v (mem_of_mem_filter hv)).1
    · exact h.distinct.filter _

/-- In every run with a zero behind every suffix the mounted volumes have different names that end
and lead to their volumes, and a volume that is not added leaves the list as it is. -/
theorem wellNamed_of_clean {fileSystems : List (FileSystem Device Medium Driver)}
    {s : VolumeLists Device Driver}
    (h : Reachable (step fileSystems) (Clean fileSystems) (fun s ↦ s.volumes = []) s) :
    WellNamed s.volumes ∧ ∀ (request : Request Device Driver) (volumeId : ℕ) (around : _),
      (addVolume s.volumes request volumeId around).1 = false →
        (addVolume s.volumes request volumeId around).2 = s.volumes := by
  constructor
  · apply Reachable.invariant (I := fun s ↦ WellNamed s.volumes) ?_ ?_ h
    · intro s hs
      rw [hs]
      exact wellNamed_of (fun v hv ↦ by cases hv) .nil
    · intro s call s' hwell hclean hstep
      exact hwell.step hclean hstep
  · intro request volumeId around hfailed
    rcases addVolume_cases s.volumes request volumeId around with hsame | ⟨_, _, _, _, _, _, hadd⟩
    · rw [hsame]
    · rw [hadd] at hfailed
      cases hfailed

def sampleMemory (c : UInt8) : NextAvailableName where
  nextAvailableName := ⟨replicate 8 c, rfl⟩
  digit := 0
  iteration := 0

def sampleMount (c : UInt8) : Call ℕ Unit :=
  .mountVolume [0x41, 0] 0 0 0 () fun _ ↦ ⟨true, sampleMemory c, true⟩

def noVolumes : VolumeLists ℕ ℕ where
  volumes := []
  zombies := []

/-- Two volumes "A" and "A_1". -/
theorem wellNamed_twoMounts :
    ∃ s, ([sampleMount 0, sampleMount 0].foldlM (step []) noVolumes = some s) ∧
      s.volumes.map Volume.name = [[0x41], [0x41, 0x5F, 0x31]] ∧ WellNamed s.volumes := by
  have hclean : ∀ s, Clean ([] : List (FileSystem ℕ Unit ℕ)) s (sampleMount 0) := fun s _ ↦
    ⟨fun _ _ ↦ .inr ⟨7, by decide, rfl⟩, trivial⟩
  refine ⟨_, rfl, by decide, ?_⟩
  exact (wellNamed_of_clean (.step (sampleMount 0)
    (.step (sampleMount 0) (.start (s := noVolumes) rfl) (hclean _) rfl) (hclean _) rfl)).1

/-- The suffix is written over the end of the name, and what stands behind it in memory goes on
with it. -/
theorem not_wellNamed_twoMounts :
    ¬ ∀ (fileSystems : List (FileSystem ℕ Unit ℕ)) (s : VolumeLists ℕ ℕ),
      Reachable (step fileSystems) (fun _ _ ↦ True) (fun s ↦ s.volumes = []) s →
        WellNamed s.volumes := by
  intro hall
  obtain ⟨s, hs, hbytes⟩ : ∃ s, [sampleMount 0x67, sampleMount 0x67].foldlM (step []) noVolumes =
      some s ∧ s.volumes.map (·.nameSpace.bytes) = [[0x41, 0, 0x67, 0x67, 0x67, 0x67, 0x67, 0x67],
        [0x41, 0x5F, 0x31, 0x67, 0x67, 0x67, 0x67, 0x67]] := ⟨_, rfl, by decide⟩
  have hwell := hall [] s (.foldlM (fun _ _ ↦ trivial) _ (.start rfl) hs)
  obtain ⟨v, hv, hname⟩ : ∃ v ∈ s.volumes,
      v.nameSpace.bytes = [0x41, 0x5F, 0x31, 0x67, 0x67, 0x67, 0x67, 0x67] := by
    apply mem_map.mp
    rw [hbytes]
    simp
  have hend := (hwell.terminated v hv).1
  rw [Volume.Terminated, hname] at hend
  exact absurd hend (by decide)

end MicroFramework.Volumes
