import Mathlib.Data.Set.Card
import MicroFramework.Fat.Table

/-!
# Deleting a cluster chain

`DeleteClusterChain` follows the links of the table while it frees the entries that hold them.  The
entry of a free cluster links to cluster 0, and so does every entry that was freed on the way: the
walk is safe exactly when the links form a chain of distinct clusters that ends without one, and
each of them has an entry.
-/

namespace MicroFramework.Fat

open List

namespace Volume

inductive HResult
  | ok
  | fileIo
  deriving DecidableEq, Repr

/-- The loop of `DeleteClusterChain`, as far as the fuel goes. -/
def deleteLoop (v : Volume) : ℕ → LogicDisk → UInt32 → Option (HResult × LogicDisk)
  | 0, _, _ => none
  | fuel + 1, d, clusIndex =>
    let written := v.writeFAT d clusIndex CLUST_NONE
    match v.getClusType written.1 with
    | .data => deleteLoop v fuel written.2 written.1
    | .error | .bad => some (.fileIo, written.2)
    | .eos => some (.ok, written.2)

def deleteClusterChain (v : Volume) (fuel : ℕ) (d : LogicDisk) (clusIndex : UInt32) :
    Option (HResult × LogicDisk) :=
  if clusIndex ≠ 0 then v.deleteLoop fuel d clusIndex else some (.ok, d)

variable {v : Volume} {d d' d'' : LogicDisk} {fatSz : ℕ} {c start : UInt32}
  {path : List UInt32} {hr : HResult}

/-! ## Freeing one entry -/

theorem writeCopy_none (h : v.WellFormed fatSz) (i : Fin 2) :
    ∃ d', v.writeCopy d i c CLUST_NONE = some (v.entry d i c, d') ∧
      d'.freeCount = d.freeCount ∧ v.entry d' i c = CLUST_NONE ∧
      ∀ sector offset, ¬ v.IsPlaceOf i c sector offset →
        d'.sectors sector offset = d.sectors sector offset := by
  let sector := v.sectorOf i c
  let entries := Function.update (d.sectors sector) (c % v.entriesPerSector)
    (v.written (d.sectors sector (c % v.entriesPerSector)) CLUST_NONE)
  let d' : LogicDisk := { d with sectors := Function.update d.sectors sector entries }
  have hwrite : v.writeCopy d i c CLUST_NONE = some (v.entry d i c, d') := by
    rw [writeCopy, if_pos (h.available _)]
    rfl
  refine ⟨d', hwrite, rfl, ?_, ?_⟩
  · simp [entry, d', entries, sector, value_written_none]
  · intro sector' offset hplace
    by_cases hsector : sector' = sector
    · subst hsector
      have hoffset : offset ≠ c % v.entriesPerSector := fun hoffset ↦ hplace ⟨rfl, hoffset⟩
      simp [d', entries, hoffset]
    · simp [d', hsector]

/-- A cluster was freed: what the code takes for its entries has no link, it is counted if the
second copy had one, and nothing else has changed but the note of the free count. -/
structure Freed (v : Volume) (d d' : LogicDisk) (c : UInt32) : Prop where
  entry : ∀ i, v.entry d' i c = CLUST_NONE
  other : ∀ sector offset, (∀ i, ¬ v.IsPlaceOf i c sector offset) →
    ¬ v.IsPlaceOfFreeCount sector offset → d'.sectors sector offset = d.sectors sector offset
  freeCount : v.entry d 1 c ≠ CLUST_NONE → d'.freeCount = d.freeCount + 1

theorem noteFreeCount_sectors {sector offset : UInt32} (hfat : v.isFAT16 = false)
    (hplace : ¬ v.IsPlaceOfFreeCount sector offset) :
    (v.noteFreeCount d).sectors sector offset = d.sectors sector offset := by
  by_cases hsector : sector = v.sectorFSInfo
  · subst hsector
    have hoffset : offset ≠ FSI_Free_Count := fun hoffset ↦ hplace ⟨hfat, rfl, hoffset⟩
    simp [noteFreeCount, hoffset]
  · simp [noteFreeCount, hsector]

theorem Freed.noteFreeCount (h : v.WellFormed fatSz) (hc : v.InTable c) (hfat : v.isFAT16 = false)
    (hfreed : v.Freed d d' c) : v.Freed d (v.noteFreeCount d') c where
  entry i := by
    have hplace : v.IsPlaceOf i c (v.sectorOf i c) (c % v.entriesPerSector) := isPlaceOf_self
    rw [← hfreed.entry i, entry_eq_of_place hplace, entry_eq_of_place hplace,
      noteFreeCount_sectors hfat (not_isPlaceOfFreeCount h hc hplace)]
  other sector offset hplace hcount := by
    rw [noteFreeCount_sectors hfat hcount, hfreed.other sector offset hplace hcount]
  freeCount := hfreed.freeCount

theorem writeFAT_none (h : v.WellFormed fatSz) (hc : v.InTable c) :
    ∃ d', v.writeFAT d c CLUST_NONE = (v.entry d 1 c, d') ∧ v.Freed d d' c := by
  obtain ⟨d₀, hfirst, hcount₀, hentry₀, hother₀⟩ := @writeCopy_none v d fatSz c h 0
  obtain ⟨d₁, hsecond, hcount₁, hentry₁, hother₁⟩ := @writeCopy_none v d₀ fatSz c h 1
  have hplace (i : Fin 2) : v.IsPlaceOf i c (v.sectorOf i c) (c % v.entriesPerSector) :=
    isPlaceOf_self
  have hapart : v.sectorOf 0 c ≠ v.sectorOf 1 c := by
    intro heq
    have hsector := congrArg UInt32.toNat heq
    rw [sectorOf_toNat h hc, sectorOf_toNat h hc] at hsector
    have hsecond := h.second
    have hpos := h.fatSz_pos
    omega
  have hold : v.entry d₀ 1 c = v.entry d 1 c := by
    rw [entry_eq_of_place (hplace 1), entry_eq_of_place (hplace 1),
      hother₀ _ _ fun hsame ↦ hapart hsame.1.symm]
  have hkept : v.entry d₁ 0 c = CLUST_NONE := by
    rw [← hentry₀, entry_eq_of_place (hplace 0), entry_eq_of_place (hplace 0),
      hother₁ _ _ fun hsame ↦ hapart hsame.1]
  rw [hold] at hsecond
  have hrange : ¬ c > v.totalClusterCount + 1 := UInt32.not_lt.mpr hc
  have hsectors : (updateFreeCount d₁ c (v.entry d 1 c) CLUST_NONE).sectors = d₁.sectors := by
    unfold updateFreeCount
    split_ifs <;> rfl
  have hfreed : v.Freed d (updateFreeCount d₁ c (v.entry d 1 c) CLUST_NONE) c := by
    constructor
    · refine Fin.forall_fin_two.mpr ⟨?_, ?_⟩ <;> rw [entry, hsectors]
      · exact hkept
      · exact hentry₁
    · intro sector offset hnot _
      rw [hsectors, hother₁ _ _ (hnot 1), hother₀ _ _ (hnot 0)]
    · intro hne
      simp [updateFreeCount, hne, hcount₁, hcount₀]
  unfold writeFAT
  rw [if_neg hrange, if_neg (by decide : CLUST_NONE ≠ CLUST_EOF)]
  dsimp only
  rw [hfirst]
  dsimp only
  rw [hsecond]
  dsimp only
  split_ifs with hfat havailable
  · exact ⟨_, rfl, hfreed⟩
  · exact ⟨_, rfl, hfreed.noteFreeCount h hc (Bool.eq_false_of_not_eq_true hfat)⟩
  · exact absurd (h.available _) havailable

theorem Freed.entry_or (h : v.WellFormed fatSz) (hfreed : v.Freed d d' c) (i : Fin 2)
    {x : UInt32} (hx : v.InTable x) :
    v.entry d' i x = CLUST_NONE ∨ v.entry d' i x = v.entry d i x := by
  have hplace : v.IsPlaceOf i x (v.sectorOf i x) (x % v.entriesPerSector) := isPlaceOf_self
  by_cases hsame : ∃ j, v.IsPlaceOf j c (v.sectorOf i x) (x % v.entriesPerSector)
  · obtain ⟨j, hsame⟩ := hsame
    left
    rw [entry_eq_of_place hplace, ← entry_eq_of_place hsame, hfreed.entry j]
  · right
    rw [entry_eq_of_place hplace, entry_eq_of_place hplace,
      hfreed.other _ _ (not_exists.mp hsame) (not_isPlaceOfFreeCount h hx hplace)]

/-- Where the freed cluster has an entry, the links of the others are as before. -/
theorem Freed.entry_ne (h : v.WellFormed fatSz) (hc : v.HasEntry fatSz c) (hfreed : v.Freed d d' c)
    {x : UInt32} (hx : v.InTable x) (hne : x ≠ c) : v.entry d' 1 x = v.entry d 1 x := by
  have hplace : v.IsPlaceOf 1 x (v.sectorOf 1 x) (x % v.entriesPerSector) := isPlaceOf_self
  rw [entry_eq_of_place hplace, entry_eq_of_place hplace,
    hfreed.other _ _ _ (not_isPlaceOfFreeCount h hx hplace)]
  exact fun j hsame ↦ hne (cluster_eq_of_place h hc hx (.inl rfl) hsame hplace).symm

/-! ## The walk -/

/-- The loop ends after it freed the clusters of the path, in this order. -/
inductive Walk (v : Volume) : LogicDisk → UInt32 → List UInt32 → HResult → LogicDisk → Prop
  | outside {d : LogicDisk} {c : UInt32} : ¬ v.InTable c → Walk v d c [] .fileIo d
  | last {d d' : LogicDisk} {c : UInt32} {hr : HResult} :
      v.InTable c → v.Freed d d' c → v.getClusType (v.entry d 1 c) ≠ .data → Walk v d c [c] hr d'
  | next {d d' d'' : LogicDisk} {c : UInt32} {path : List UInt32} {hr : HResult} :
      v.InTable c → v.Freed d d' c → v.getClusType (v.entry d 1 c) = .data →
        Walk v d' (v.entry d 1 c) path hr d'' → Walk v d c (c :: path) hr d''

theorem writeFAT_outside (hc : ¬ v.InTable c) : v.writeFAT d c CLUST_NONE = (CLUST_ERROR, d) := by
  have hrange : c > v.totalClusterCount + 1 := UInt32.not_le.mp hc
  rw [writeFAT, if_pos hrange]

theorem Walk.of_deleteLoop (h : v.WellFormed fatSz) {fuel : ℕ}
    (hloop : v.deleteLoop fuel d c = some (hr, d')) : ∃ path, Walk v d c path hr d' := by
  induction fuel generalizing d c with
  | zero => cases hloop
  | succ fuel ih =>
    unfold deleteLoop at hloop
    by_cases hc : v.InTable c
    · obtain ⟨d₁, hwrite, hfreed⟩ := @writeFAT_none v d fatSz c h hc
      rw [hwrite] at hloop
      dsimp only at hloop
      split at hloop
      · next hdata =>
        obtain ⟨path, hwalk⟩ := ih hloop
        exact ⟨c :: path, .next hc hfreed hdata hwalk⟩
      · next herror =>
        cases hloop
        exact ⟨[c], .last hc hfreed (by rw [herror]; decide)⟩
      · next hbad =>
        cases hloop
        exact ⟨[c], .last hc hfreed (by rw [hbad]; decide)⟩
      · next heos =>
        cases hloop
        exact ⟨[c], .last hc hfreed (by rw [heos]; decide)⟩
    · rw [writeFAT_outside hc] at hloop
      have herror : v.getClusType CLUST_ERROR = .error := by simp [getClusType]
      dsimp only at hloop
      rw [herror] at hloop
      cases hloop
      exact ⟨[], .outside hc⟩

section

variable (h : v.WellFormed fatSz)

include h

theorem Walk.entry_or (hwalk : Walk v d c path hr d') (i : Fin 2) {x : UInt32}
    (hx : v.InTable x) : v.entry d' i x = CLUST_NONE ∨ v.entry d' i x = v.entry d i x := by
  induction hwalk with
  | outside hc => exact .inr rfl
  | last hc hfreed htype => exact hfreed.entry_or h i hx
  | next hc hfreed htype hwalk ih =>
    rcases ih with hnone | hsame
    · exact .inl hnone
    · rw [hsame]
      exact hfreed.entry_or h i hx

theorem Walk.entry_mem (hwalk : Walk v d c path hr d') (i : Fin 2) {x : UInt32} (hx : x ∈ path) :
    v.entry d' i x = CLUST_NONE := by
  induction hwalk with
  | outside hc => simp at hx
  | last hc hfreed htype =>
    obtain rfl := mem_singleton.mp hx
    exact hfreed.entry i
  | @next d d' d'' c path hr hc hfreed htype hwalk ih =>
    rcases mem_cons.mp hx with rfl | hx
    · rcases hwalk.entry_or h i hc with hnone | hsame
      · exact hnone
      · rw [hsame, hfreed.entry i]
    · exact ih hx

end

/-- Outside the places of the path, the walk changes the note of the free count only. -/
theorem Walk.other (hwalk : Walk v d c path hr d') {sector offset : UInt32}
    (hplace : ∀ x ∈ path, ∀ i, ¬ v.IsPlaceOf i x sector offset)
    (hcount : ¬ v.IsPlaceOfFreeCount sector offset) :
    d'.sectors sector offset = d.sectors sector offset := by
  induction hwalk with
  | outside hc => rfl
  | last hc hfreed htype => exact hfreed.other _ _ (hplace _ mem_cons_self) hcount
  | next hc hfreed htype hwalk ih =>
    rw [ih fun x hx ↦ hplace x (mem_cons_of_mem _ hx),
      hfreed.other _ _ (hplace _ mem_cons_self) hcount]

theorem Walk.inTable (hwalk : Walk v d c path hr d') : ∀ x ∈ path, v.InTable x := by
  induction hwalk with
  | outside hc => simp
  | last hc hfreed htype => simpa using hc
  | next hc hfreed htype hwalk ih => simpa using ⟨hc, ih⟩

theorem getClusType_none : v.getClusType CLUST_NONE = .data := by
  unfold getClusType
  cases v.isFAT16 <;> rfl

theorem inTable_none : v.InTable CLUST_NONE := UInt32.zero_le

/-- If cluster 0 links to itself, the walk does not come back from it. -/
theorem Walk.not_from_none (hwalk : Walk v d c path hr d') (hc : c = CLUST_NONE)
    (hself : v.entry d 1 CLUST_NONE = CLUST_NONE) : False := by
  induction hwalk with
  | outside hout =>
    rw [hc] at hout
    exact hout inTable_none
  | last hin hfreed htype =>
    rw [hc, hself] at htype
    exact htype getClusType_none
  | next hin hfreed htype hwalk ih =>
    rw [hc, hself] at ih
    have hnone := hfreed.entry 1
    rw [hc] at hnone
    exact ih rfl hnone

section

variable (h : v.WellFormed fatSz) (hwalk : Walk v d c path hr d')

include h hwalk

theorem Walk.entry_none (hmem : CLUST_NONE ∈ path) : v.entry d 1 CLUST_NONE ≠ CLUST_NONE := by
  induction hwalk with
  | outside hc => simp at hmem
  | last hc hfreed htype =>
    obtain rfl := mem_singleton.mp hmem
    intro hself
    rw [hself] at htype
    exact htype getClusType_none
  | @next d d' d'' c path hr hc hfreed htype hwalk ih =>
    by_cases hzero : c = CLUST_NONE
    · exact fun hself ↦ Walk.not_from_none (.next hc hfreed htype hwalk) hzero hself
    · have htail := ih ((mem_cons.mp hmem).resolve_left (Ne.symm hzero))
      rwa [(hfreed.entry_or h 1 inTable_none).resolve_left htail] at htail

/-- A walk through a free entry arrives at cluster 0. -/
theorem Walk.none_mem {x : UInt32} (hx : x ∈ path)
    (hfree : v.entry d 1 x = CLUST_NONE) : CLUST_NONE ∈ path := by
  induction hwalk with
  | outside hc => simp at hx
  | last hc hfreed htype =>
    obtain rfl := mem_singleton.mp hx
    rw [hfree] at htype
    exact absurd getClusType_none htype
  | @next d d' d'' c path hr hc hfreed htype hwalk ih =>
    apply mem_cons_of_mem
    by_cases heq : x = c
    · subst heq
      rw [hfree] at hwalk
      cases hwalk with
      | outside hout => exact absurd inTable_none hout
      | last | next => exact mem_cons_self
    · have hmem := (mem_cons.mp hx).resolve_left heq
      apply ih hmem
      rcases hfreed.entry_or h 1 (hwalk.inTable x hmem) with hnone | hsame
      · exact hnone
      · rw [hsame, hfree]

theorem Walk.nodup (hnone : CLUST_NONE ∉ path) : path.Nodup := by
  induction hwalk with
  | outside hc => exact nodup_nil
  | last hc hfreed htype => exact nodup_singleton _
  | @next d d' d'' c path hr hc hfreed htype hwalk ih =>
    have htail : CLUST_NONE ∉ path := fun hmem ↦ hnone (mem_cons_of_mem _ hmem)
    refine nodup_cons.mpr ⟨fun hmem ↦ htail ?_, ih htail⟩
    exact hwalk.none_mem h hmem (hfreed.entry 1)

theorem Walk.freeCount (hnone : CLUST_NONE ∉ path) :
    d'.freeCount = d.freeCount + UInt32.ofNat path.length := by
  induction hwalk with
  | outside hc => simp
  | @last d d' c hr hc hfreed htype =>
    apply hfreed.freeCount
    intro hfree
    rw [hfree] at htype
    exact htype getClusType_none
  | @next d d' d'' c path hr hc hfreed htype hwalk ih =>
    have htail : CLUST_NONE ∉ path := fun hmem ↦ hnone (mem_cons_of_mem _ hmem)
    have hlink : v.entry d 1 c ≠ CLUST_NONE := fun hfree ↦
      hnone (Walk.none_mem h (.next hc hfreed htype hwalk) mem_cons_self hfree)
    rw [ih htail, hfreed.freeCount hlink, length_cons, UInt32.ofNat_add, UInt32.add_assoc,
      UInt32.add_comm 1]
    rfl

end

/-! ## When deletion is safe -/

/-- The links lead from a cluster along the path, through the clusters that hold data, to a mark or
to a cluster that the table has no entry for. -/
def FollowsTo (v : Volume) (link : UInt32 → UInt32) : UInt32 → List UInt32 → Prop
  | c, [] => ¬ v.InTable c
  | c, x :: path =>
    c = x ∧ 2 ≤ x ∧ v.InTable x ∧
      if v.getClusType (link x) = .data then FollowsTo v link (link x) path else path = []

/-- The cluster is in the chain that the file system reads from `start`. -/
def Reachable (v : Volume) (d : LogicDisk) (start c : UInt32) : Prop :=
  Relation.ReflTransGen
    (fun c x ↦ v.getClusType (v.readFAT d c) = .data ∧ x = v.readFAT d c) start c

def freedClusters (v : Volume) (fatSz : ℕ) (d d' : LogicDisk) : Set UInt32 :=
  {c | v.HasEntry fatSz c ∧ ∃ i, v.entry d i c ≠ CLUST_NONE ∧ v.entry d' i c = CLUST_NONE}

/-- On the disk only entries of clusters in the chain have changed, and the note of the free count;
each entry that changed is free in both copies, and the free count has grown by the number of
clusters that have become free. -/
structure DeletesSafely (v : Volume) (fatSz : ℕ) (d : LogicDisk) (start : UInt32)
    (d' : LogicDisk) : Prop where
  changes : ∀ sector offset, d'.sectors sector offset ≠ d.sectors sector offset →
    v.IsPlaceOfFreeCount sector offset ∨
      ∃ i c, v.IsPlaceOf i c sector offset ∧ v.HasEntry fatSz c ∧ 2 ≤ c ∧ v.Reachable d start c
  frees : ∀ i c, v.HasEntry fatSz c → v.entry d' i c ≠ v.entry d i c →
    ∀ j, v.entry d' j c = CLUST_NONE
  freeCount : d'.freeCount = d.freeCount + UInt32.ofNat (v.freedClusters fatSz d d').ncard

/-- In a safe deletion the link of a cluster changes only if it is in the chain. -/
theorem DeletesSafely.mem_of_entry_ne (h : v.WellFormed fatSz)
    (hsafe : v.DeletesSafely fatSz d start d') {x : UInt32} (hx : v.InTable x)
    (hne : v.entry d' 1 x ≠ v.entry d 1 x) :
    v.HasEntry fatSz x ∧ 2 ≤ x ∧ v.Reachable d start x := by
  have hplace : v.IsPlaceOf 1 x (v.sectorOf 1 x) (x % v.entriesPerSector) := isPlaceOf_self
  rw [entry_eq_of_place hplace, entry_eq_of_place hplace] at hne
  rcases hsafe.changes _ _ fun hsame ↦ hne (congrArg v.value hsame) with hcount | hentry
  · exact absurd hcount (not_isPlaceOfFreeCount h hx hplace)
  · obtain ⟨i, c, hplace', hc, hchain⟩ := hentry
    obtain rfl := cluster_eq_of_place h hc hx (.inl rfl) hplace' hplace
    exact ⟨hc, hchain⟩

theorem FollowsTo.congr {link link' : UInt32 → UInt32} (hfollows : v.FollowsTo link c path)
    (hlink : ∀ x ∈ path, link' x = link x) : v.FollowsTo link' c path := by
  induction path generalizing c with
  | nil => exact hfollows
  | cons x path ih =>
    obtain ⟨heq, htwo, hx, hrest⟩ := hfollows
    refine ⟨heq, htwo, hx, ?_⟩
    rw [hlink x mem_cons_self]
    split at hrest
    · next hdata =>
      rw [if_pos hdata]
      exact ih hrest fun y hy ↦ hlink y (mem_cons_of_mem _ hy)
    · next hdata => rwa [if_neg hdata]

theorem FollowsTo.two_le {link : UInt32 → UInt32} (hfollows : v.FollowsTo link c path) :
    ∀ x ∈ path, 2 ≤ x ∧ v.InTable x := by
  induction path generalizing c with
  | nil => simp
  | cons x path ih =>
    obtain ⟨-, htwo, hx, hrest⟩ := hfollows
    intro y hy
    rcases mem_cons.mp hy with rfl | hy
    · exact ⟨htwo, hx⟩
    · split at hrest
      · exact ih hrest y hy
      · simp [hrest] at hy

/-- A walk that does not arrive at clusters 0 and 1 has followed a chain of distinct clusters. -/
theorem Walk.follows (h : v.WellFormed fatSz) (hwalk : Walk v d c path hr d')
    (hentry : ∀ x ∈ path, v.HasEntry fatSz x) (htwo : ∀ x ∈ path, 2 ≤ x)
    (hnodup : path.Nodup) : v.FollowsTo (v.entry d 1) c path := by
  induction hwalk with
  | outside hc => exact hc
  | last hc hfreed htype => exact ⟨rfl, htwo _ mem_cons_self, hc, by rw [if_neg htype]⟩
  | @next d d' d'' c path hr hc hfreed htype hwalk ih =>
    obtain ⟨hnot, hnodup⟩ := nodup_cons.mp hnodup
    refine ⟨rfl, htwo _ mem_cons_self, hc, ?_⟩
    rw [if_pos htype]
    apply (ih (fun x hx ↦ hentry x (mem_cons_of_mem _ hx))
      (fun x hx ↦ htwo x (mem_cons_of_mem _ hx)) hnodup).congr
    intro x hx
    have hne : x ≠ c := by
      rintro rfl
      exact hnot hx
    exact (hfreed.entry_ne h (hentry c mem_cons_self) (hwalk.inTable x hx) hne).symm

/-- Along a chain of distinct clusters the loop comes to its end. -/
theorem FollowsTo.walk (h : v.WellFormed fatSz) (hfollows : v.FollowsTo (v.entry d 1) c path)
    (hentry : ∀ x ∈ path, v.HasEntry fatSz x) (hnodup : path.Nodup) :
    ∃ fuel hr d', v.deleteLoop fuel d c = some (hr, d') ∧ Walk v d c path hr d' := by
  induction path generalizing d c with
  | nil =>
    refine ⟨1, .fileIo, d, ?_, .outside hfollows⟩
    have herror : v.getClusType CLUST_ERROR = .error := by simp [getClusType]
    simp only [deleteLoop, writeFAT_outside hfollows, herror]
  | cons x path ih =>
    obtain ⟨rfl, htwo, hx, hrest⟩ := hfollows
    obtain ⟨hnot, hnodup⟩ := nodup_cons.mp hnodup
    obtain ⟨d₁, hwrite, hfreed⟩ := @writeFAT_none v d fatSz c h hx
    split at hrest
    · next hdata =>
      have hfollows' : v.FollowsTo (v.entry d₁ 1) (v.entry d 1 c) path := by
        apply hrest.congr
        intro x hmem
        have hne : x ≠ c := by
          rintro rfl
          exact hnot hmem
        exact hfreed.entry_ne h (hentry c mem_cons_self) (hrest.two_le x hmem).2 hne
      obtain ⟨fuel, hr, d', hloop, hwalk⟩ :=
        ih hfollows' (fun x hx ↦ hentry x (mem_cons_of_mem _ hx)) hnodup
      refine ⟨fuel + 1, hr, d', ?_, .next hx hfreed hdata hwalk⟩
      simp only [deleteLoop, hwrite, hdata, hloop]
    · next hdata =>
      subst hrest
      cases htype : v.getClusType (v.entry d 1 c) with
      | data => exact absurd htype hdata
      | eos => exact ⟨1, .ok, d₁, by simp only [deleteLoop, hwrite, htype], .last hx hfreed hdata⟩
      | bad | error =>
        exact ⟨1, .fileIo, d₁, by simp only [deleteLoop, hwrite, htype], .last hx hfreed hdata⟩

/-- What a walk through clusters with entries changes is an entry of one of them. -/
theorem Walk.mem_of_entry_ne (h : v.WellFormed fatSz) (hwalk : Walk v d c path hr d')
    (hentry : ∀ x ∈ path, v.HasEntry fatSz x) {i : Fin 2} {x : UInt32}
    (hx : v.HasEntry fatSz x) (hne : v.entry d' i x ≠ v.entry d i x) : x ∈ path := by
  have hplace : v.IsPlaceOf i x (v.sectorOf i x) (x % v.entriesPerSector) := isPlaceOf_self
  by_contra hmem
  apply hne
  rw [entry_eq_of_place hplace, entry_eq_of_place hplace,
    hwalk.other _ (not_isPlaceOfFreeCount h hx.1 hplace)]
  intro y hy j hplace'
  obtain rfl := cluster_eq_of_place h hx (hentry y hy).1 (.inr (hentry y hy)) hplace hplace'
  exact hmem hy

theorem Walk.freedClusters_eq (h : v.WellFormed fatSz) (hwalk : Walk v d c path hr d')
    (hentry : ∀ x ∈ path, v.HasEntry fatSz x)
    (hlink : ∀ x ∈ path, v.entry d 1 x ≠ CLUST_NONE) :
    v.freedClusters fatSz d d' = {x | x ∈ path} := by
  ext x
  constructor
  · rintro ⟨hx, i, hbefore, hafter⟩
    exact hwalk.mem_of_entry_ne h hentry hx (hafter.trans_ne hbefore.symm)
  · intro hmem
    exact ⟨hentry x hmem, 1, hlink x hmem, hwalk.entry_mem h 1 hmem⟩

theorem deletesSafely_refl : v.DeletesSafely fatSz d start d where
  changes sector offset hne := absurd rfl hne
  frees i c hc hne := absurd rfl hne
  freeCount := by simp [freedClusters]

theorem Walk.deletesSafely (h : v.WellFormed fatSz) (hwalk : Walk v d start path hr d')
    (hfollows : v.FollowsTo (v.entry d 1) start path) (hnodup : path.Nodup)
    (hchain : ∀ c ∈ path, v.HasEntry fatSz c ∧ v.Reachable d start c) :
    v.DeletesSafely fatSz d start d' := by
  have hentry : ∀ x ∈ path, v.HasEntry fatSz x := fun x hx ↦ (hchain x hx).1
  have hnone : CLUST_NONE ∉ path := fun hmem ↦ absurd (hfollows.two_le _ hmem).1 (by decide)
  have hlink : ∀ x ∈ path, v.entry d 1 x ≠ CLUST_NONE := fun x hx hfree ↦
    hnone (hwalk.none_mem h hx hfree)
  constructor
  · intro sector offset hne
    by_contra hother
    rw [not_or, not_exists] at hother
    apply hne
    apply hwalk.other _ hother.1
    intro x hx i hplace
    exact hother.2 i ⟨x, hplace, hentry x hx, (hfollows.two_le x hx).1, (hchain x hx).2⟩
  · intro i x hx hne j
    exact hwalk.entry_mem h j (hwalk.mem_of_entry_ne h hentry hx hne)
  · rw [hwalk.freeCount h hnone, hwalk.freedClusters_eq h hentry hlink]
    have hcoe : {x | x ∈ path} = (path.toFinset : Set UInt32) := by
      ext x
      simp
    rw [hcoe, Set.ncard_coe_finset, toFinset_card_of_nodup hnodup]

/-- A small FAT16 volume. -/
def eightClusters : Volume where
  isFAT16 := true
  fatBaseSector copy := if copy.val = 0 then 1 else 2
  totalClusterCount := 8
  entriesPerSector := 256
  sectorFSInfo := 0
  available _ := true

theorem eightClusters_wellFormed : eightClusters.WellFormed 1 where
  entriesPerSector := by decide
  fatSz_pos := by decide
  fatEntriesCount := by decide
  second := rfl
  sectors := by decide
  reserved := by decide
  available _ := rfl

/-- Both copies of its table, with the usual marks in the entries of clusters 0 and 1. -/
def tableOf (two three : UInt32) : LogicDisk where
  sectors _ offset :=
    if offset = 0 then 0xfff8
    else if offset = 1 then 0xffff
    else if offset = 2 then two
    else if offset = 3 then three
    else CLUST_NONE
  freeCount := 6
  nextFree := 4

end Volume

end MicroFramework.Fat
