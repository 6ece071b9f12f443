import MicroFramework.Delegates.DelegateList

/-!
# What one call of `Change` denotes

The step of the algebra: a new list is sound and holds the live blocks that were copied, so that the
branch for one delegate appends its key or erases it; a loop over the entries of a list then appends
or erases them in turn.
-/

namespace MicroFramework.Delegates.Heap

open List DelegateList

variable {h : Heap} {ref src target : Ref} {dlg : Delegate} {weak srcWeak fWeak : Bool}
  {refs oldDlgs : List Ref} {fits : Heap → ℕ → Bool}

/-! ## Copying -/

theorem take_set_next {slots : List Ref} {dst : ℕ} (hdst : dst < slots.length) (ref : Ref) :
    (slots.set dst ref).take (dst + 1) = slots.take dst ++ [ref] := by
  rw [take_succ_eq_append_getElem (by simpa using hdst), getElem_set_self,
    take_set_of_le le_rfl]

/-- `list` with the live blocks of `refs` at its slots from `dst` on, and its length less the number
of the dead ones. -/
structure Copied (h : Heap) (refs : List Ref) (list : DelegateList) (dst : ℕ)
    (list' : DelegateList) (dst' : ℕ) : Prop where
  slots : list'.slots.take dst' = list.slots.take dst ++ refs.filter h.live
  room : list'.slots.length = list.slots.length
  position : dst' = dst + (refs.filter h.live).length
  length : list'.length + refs.length = list.length + (refs.filter h.live).length

theorem copyAndCompress_copied (refs : List Ref) (list : DelegateList) (dst : ℕ)
    (hroom : dst + refs.length ≤ list.slots.length) (hlen : refs.length ≤ list.length) :
    Copied h refs list dst (h.copyAndCompress refs list dst).1
      (h.copyAndCompress refs list dst).2 := by
  induction refs generalizing list dst with
  | nil =>
    simp only [copyAndCompress]
    exact ⟨by simp, rfl, by simp, by simp⟩
  | cons ref refs ih =>
    rw [length_cons] at hroom hlen
    cases hr : h.dereference ref with
    | none =>
      have hf : (ref :: refs).filter h.live = refs.filter h.live :=
        filter_cons_of_neg (by simp [live, hr])
      simp only [copyAndCompress, hr]
      have hc := ih { list with length := list.length - 1 } dst
        (by change dst + refs.length ≤ list.slots.length; omega)
        (by change refs.length ≤ list.length - 1; omega)
      refine ⟨hf ▸ hc.slots, hc.room, hf ▸ hc.position, ?_⟩
      have hlength := hc.length
      dsimp only at hlength
      rw [hf, length_cons]
      omega
    | some object =>
      have hf : (ref :: refs).filter h.live = ref :: refs.filter h.live :=
        filter_cons_of_pos (by simp [live, hr])
      simp only [copyAndCompress, hr]
      have hc := ih { list with slots := list.slots.set dst ref } (dst + 1)
        (by simp only [length_set]; omega) (by change refs.length ≤ list.length; omega)
      have hslots := hc.slots
      have hlength := hc.length
      dsimp only at hslots hlength
      refine ⟨?_, ?_, ?_, ?_⟩
      · rw [hslots, take_set_next (by omega), hf, append_assoc, singleton_append]
      · rw [hc.room, length_set]
      · rw [hc.position, hf, length_cons]
        omega
      · rw [hf, length_cons, length_cons]
        omega

/-! ## A new list -/

/-- The number of blocks that `Change` reads behind a reference. -/
def size (h : Heap) (ref : Ref) : ℕ :=
  match h.dereference ref with
  | some (.delegate _) => 1
  | some (.list list) => list.length
  | _ => 0

/-- What every call leaves: a larger sound heap, and null, a delegate or a list as the reference;
the call fails only when the heap that it leaves has no room for a list of at most `bound`. -/
structure Leaves (fits : Heap → ℕ → Bool) (h : Heap) (bound : ℕ) (o : Outcome) : Prop where
  grows : h.Grows o.heap
  sound : o.heap.Sound
  denotable : o.heap.Denotable o.reference
  result : o.result = .ok ∨ o.result = .outOfMemory ∧ ∃ length ≤ bound, fits o.heap length = false

variable {bound : ℕ}

/-- A call that allocates nothing. -/
theorem leaves_self (hs : h.Sound) (hd : h.Denotable ref) : Leaves fits h bound ⟨h, ref, .ok⟩ :=
  ⟨.refl, hs, hd, .inl rfl⟩

variable {length num : ℕ}

theorem leaves_outOfMemory (hs : h.Sound) (hf : ¬ fits h length = true) (hle : length ≤ bound) :
    Leaves fits h bound ⟨h, none, .outOfMemory⟩ :=
  ⟨.refl, hs, .inl rfl, .inr ⟨rfl, length, hle, by simpa using hf⟩⟩

theorem allocate_dereference (object : Object) :
    (h.allocate object).dereference (some h.next) = some object :=
  getElem?_concat_length

theorem grows_allocate (object : Object) : h.Grows (h.allocate object) := prefix_append _ _

variable {list : DelegateList}

theorem leaves_allocate (hs : h.Sound) (hfits : list.length ≤ list.slots.length)
    (hlive : ∀ ref ∈ list.delegates, h.IsDelegate ref) :
    Leaves fits h bound ⟨h.allocate (.list list), some h.next, .ok⟩ := by
  refine ⟨grows_allocate _, ?_, .inr (.inr ⟨list, allocate_dereference _⟩), .inl rfl⟩
  intro list' hmem
  have hlift : ∀ {weak ref}, h.IsEntry weak ref → (h.allocate (.list list)).IsEntry weak ref :=
    (grows_allocate _).isEntry
  rcases mem_append.mp hmem with hmem | hmem
  · exact ⟨(hs list' hmem).fits, fun ref hr ↦ hlift ((hs list' hmem).entries ref hr)⟩
  · cases mem_singleton.mp hmem
    exact ⟨hfits, fun ref hr ↦ hlift (.inr (hlive ref hr))⟩

theorem denote_allocate (hlive : ∀ ref ∈ list.delegates, h.IsDelegate ref) :
    (h.allocate (.list list)).denote (some h.next) = h.keys list.delegates := by
  rw [denote_list (allocate_dereference _)]
  have hentries : ∀ ref ∈ list.delegates, h.IsEntry true ref := fun ref hr ↦ .inr (hlive ref hr)
  exact (grows_allocate _).keys_eq hentries

theorem canonical_allocate (hc : list.weak = true ∨ 2 ≤ list.length) :
    (h.allocate (.list list)).Canonical (some h.next) := by
  refine ⟨.inr (.inr ⟨list, allocate_dereference _⟩), ?_⟩
  intro list' hl
  rw [allocate_dereference] at hl
  cases hl
  exact hc

theorem compressed_allocate (hlive : ∀ ref ∈ list.delegates, h.IsDelegate ref) :
    (h.allocate (.list list)).Compressed src (some h.next) := by
  apply Or.inr
  intro list' hl entry he
  rw [allocate_dereference] at hl
  cases hl
  exact (grows_allocate _).isDelegate (hlive entry he)

/-! ## The blocks of the source -/

/-- `oldDlgs` are the blocks that `Change` reads behind `src`. -/
structure Reads (h : Heap) (src : Ref) (oldDlgs : List Ref) (srcWeak : Bool) : Prop where
  denotable : h.Denotable src
  entries : ∀ ref ∈ oldDlgs, h.IsEntry srcWeak ref
  keys : h.keys oldDlgs = h.denote src
  length : oldDlgs.length = h.size src
  single : oldDlgs.length = 1 → h.denote src = [] → h.DeadSingle src

theorem reads_none : Reads h none [] false := ⟨.inl rfl, nofun, rfl, rfl, nofun⟩

theorem reads_delegate (hd : h.dereference src = some (.delegate dlg)) :
    Reads h src [src] false := by
  refine ⟨.inr (.inl ⟨dlg, hd⟩), ?_, ?_, ?_, ?_⟩
  · intro ref hr
    cases mem_singleton.mp hr
    exact .inr ⟨dlg, hd⟩
  · rw [keys_cons_live hd, denote_delegate hd]
    rfl
  · rw [size, hd]
    rfl
  · rw [denote_delegate hd]
    exact fun _ ↦ nofun

theorem delegates_length (hl : list.Sound h) : list.delegates.length = list.length := by
  rw [delegates, length_take, min_eq_left hl.fits]

theorem reads_list (hs : h.Sound)
    (hl : h.dereference src = some (.list list)) : Reads h src list.delegates list.weak := by
  refine ⟨.inr (.inr ⟨list, hl⟩), (hs.list hl).entries, (denote_list hl).symm, ?_, ?_⟩
  · rw [delegates_length (hs.list hl), size, hl]
  intro hone hempty
  exact ⟨⟨list, hl, by rw [← delegates_length (hs.list hl), hone]⟩, hempty⟩

/-- Every reference but one to an object of another type has blocks that are read. -/
theorem changeDelegate_reads (fits : Heap → ℕ → Bool) (target : Ref) (dlg : Delegate)
    (fCombine fWeak : Bool) (hs : h.Sound) (hd : h.Denotable src) :
    ∃ oldDlgs srcWeak, Reads h src oldDlgs srcWeak ∧
      h.changeDelegate fits src target dlg fCombine fWeak =
        h.changeBlocks fits src target dlg oldDlgs srcWeak fCombine fWeak := by
  rcases hd with rfl | ⟨old, hd⟩ | ⟨list, hl⟩
  · exact ⟨[], false, reads_none, rfl⟩
  · exact ⟨[src], false, reads_delegate hd, by rw [changeDelegate, hd]⟩
  · exact ⟨list.delegates, list.weak, reads_list hs hl, by rw [changeDelegate, hl]⟩

/-! ## One delegate -/

/-- What a successful call delivers: a reference that denotes `expected`, in a list that the call
created without dead entries. -/
structure Delivers (src : Ref) (o : Outcome) (expected : List Key) : Prop where
  denote : o.heap.denote o.reference = expected
  compressed : o.heap.Compressed src o.reference

/-- The blocks that are copied in front of a new delegate, and the delegate behind them. -/
theorem append_copied (hlength : length = oldDlgs.length + 1) {copy : DelegateList}
    {newDlgs : ℕ} (hc : Copied h oldDlgs (createInstance length) 0 copy newDlgs) (target : Ref) :
    (copy.slots.set newDlgs target).take copy.length = oldDlgs.filter h.live ++ [target] ∧
      copy.length ≤ copy.slots.length ∧ copy.length = (oldDlgs.filter h.live).length + 1 := by
  have hroom : copy.slots.length = oldDlgs.length + 1 := by
    rw [hc.room, createInstance, length_replicate, hlength]
  have hposition : newDlgs = (oldDlgs.filter h.live).length := by rw [hc.position, zero_add]
  have hcopy : copy.length = newDlgs + 1 := by
    have hcopy := hc.length
    simp only [createInstance] at hcopy
    omega
  have hle : (oldDlgs.filter h.live).length ≤ oldDlgs.length := length_filter_le _ _
  refine ⟨?_, by omega, by rw [hcopy, hposition]⟩
  rw [hcopy, take_set_next (by omega), hc.slots, take_zero, nil_append]

/-- The length of a strong list that `Combine` creates. -/
theorem two_le_combined (hv : Reads h src oldDlgs srcWeak) (hne : oldDlgs.length ≠ 0)
    (hstrong : 1 < oldDlgs.length → srcWeak = false) (hslip : ¬ h.DeadSingle src) :
    1 ≤ (oldDlgs.filter h.live).length := by
  by_cases hone : oldDlgs.length = 1
  · rw [filter_live_length, hv.keys]
    exact length_pos_of_ne_nil fun hz ↦ hslip (hv.single hone hz)
  · have hweak : srcWeak = false := hstrong (by omega)
    rw [filter_live_strong (hweak ▸ hv.entries)]
    omega

/-- `Combine` with one delegate appends its key.  The reference is canonical unless the only block
of the source is dead and no weak list is asked for. -/
theorem combine_blocks (hs : h.Sound) (hv : Reads h src oldDlgs srcWeak)
    (ht : h.dereference target = some (.delegate dlg)) {o : Outcome}
    (ho : h.changeBlocks fits src target dlg oldDlgs srcWeak true fWeak = o) :
    Leaves fits h (h.size src + 1) o ∧ (o.result = .ok → Delivers src o (h.denote src ++ [dlg.key]) ∧
      ((fWeak = false → ¬ h.DeadSingle src) → o.heap.Canonical o.reference)) := by
  have htd : h.IsDelegate target := ⟨dlg, ht⟩
  simp only [changeBlocks, if_true] at ho
  by_cases hempty : oldDlgs.length = 0 ∧ fWeak = false
  · rw [if_pos hempty] at ho
    subst ho
    have hnil : oldDlgs = [] := length_eq_zero_iff.mp hempty.1
    refine ⟨leaves_self hs (.inr (.inl htd)), fun _ ↦ ⟨⟨?_, compressed_delegate htd⟩, ?_⟩⟩
    · change h.denote target = _
      rw [← hv.keys, hnil, denote_delegate ht]
      rfl
    · exact fun _ ↦ canonical_delegate htd
  rw [if_neg hempty] at ho
  by_cases hfits : fits h (oldDlgs.length + 1) = true
  · -- the new list: the live blocks, then the delegate
    rw [if_pos hfits] at ho
    have hc := copyAndCompress_copied (h := h) oldDlgs (createInstance (oldDlgs.length + 1)) 0
      (by simp [createInstance]) (by simp [createInstance])
    obtain ⟨hdlgs, hroom, hlength⟩ := append_copied rfl hc target
    have hlive : ∀ ref ∈ oldDlgs.filter h.live ++ [target], h.IsDelegate ref := by
      intro ref hr
      rcases mem_append.mp hr with hr | hr
      · exact isDelegate_of_live hv.entries hr
      · cases mem_singleton.mp hr
        exact htd
    subst ho
    refine ⟨leaves_allocate hs ?_ ?_, fun _ ↦ ⟨⟨?_, compressed_allocate ?_⟩, ?_⟩⟩
    · dsimp only
      rw [length_set]
      exact hroom
    · rw [delegates, hdlgs]
      exact hlive
    · rw [denote_allocate (by rw [delegates, hdlgs]; exact hlive),
        delegates, hdlgs, keys_append, keys_filter_live, hv.keys, keys_cons_live ht]
      rfl
    · rw [delegates, hdlgs]
      exact hlive
    · intro hslip
      apply canonical_allocate
      dsimp only
      cases fWeak with
      | true => exact .inl (Bool.or_true _)
      | false =>
        by_cases hweak : 1 < oldDlgs.length ∧ srcWeak = true
        · exact .inl (by rw [if_pos hweak.1, hweak.2]; rfl)
        · have := two_le_combined hv (fun hz ↦ hempty ⟨hz, rfl⟩)
            (fun hlt ↦ by simpa using fun hw ↦ hweak ⟨hlt, hw⟩) (hslip rfl)
          exact .inr (by omega)
  · rw [if_neg hfits] at ho
    subst ho
    exact ⟨leaves_outOfMemory hs hfits (Nat.succ_le_succ hv.length.le), nofun⟩

/-! ### Removal -/

theorem matchesDelegate_iff : h.matchesDelegate dlg ref = true ↔ h.keyOf ref = some dlg.key := by
  rw [matchesDelegate, keyOf]
  cases h.dereference ref with
  | none => simp
  | some object => simp [Delegate.key]

theorem erase_keys_self (hnum : oldDlgs.findIdx (h.matchesDelegate dlg) = oldDlgs.length) :
    (h.keys oldDlgs).erase dlg.key = h.keys oldDlgs := by
  apply erase_of_not_mem
  intro hmem
  obtain ⟨ref, hr, hkey⟩ := mem_filterMap.mp hmem
  have := findIdx_eq_length.mp hnum ref hr
  rw [matchesDelegate_iff.mpr hkey] at this
  cases this

/-- The match is the first block with the key, and the blocks before and behind it stay. -/
theorem erase_keys (hnum : oldDlgs.findIdx (h.matchesDelegate dlg) = num)
    (hlt : num < oldDlgs.length) :
    (h.keys oldDlgs).erase dlg.key =
      h.keys (oldDlgs.take num) ++ h.keys (oldDlgs.drop (num + 1)) := by
  subst hnum
  set num := oldDlgs.findIdx (h.matchesDelegate dlg) with hnum
  have hkey : h.keyOf oldDlgs[num] = some dlg.key := matchesDelegate_iff.mp findIdx_getElem
  have hbefore : dlg.key ∉ h.keys (oldDlgs.take num) := by
    intro hmem
    obtain ⟨ref, hr, hkey⟩ := mem_filterMap.mp hmem
    obtain ⟨i, hi, rfl⟩ := mem_take_iff_getElem.mp hr
    have := not_of_lt_findIdx (lt_of_lt_of_le hi (min_le_left _ _))
    rw [matchesDelegate_iff.mpr hkey] at this
    cases this
  calc (h.keys oldDlgs).erase dlg.key
      = (h.keys (oldDlgs.take num ++ oldDlgs[num] :: oldDlgs.drop (num + 1))).erase dlg.key := by
        rw [← drop_eq_getElem_cons hlt, take_append_drop]
    _ = (h.keys (oldDlgs.take num) ++ dlg.key :: h.keys (oldDlgs.drop (num + 1))).erase dlg.key := by
        rw [keys_append]
        congr 2
        rw [keys, filterMap_cons, hkey]
        rfl
    _ = h.keys (oldDlgs.take num) ++ h.keys (oldDlgs.drop (num + 1)) := by
        rw [erase_append_right _ hbefore, erase_cons_head]

theorem remove_copied (hlt : num < oldDlgs.length)
    (hlength : length = oldDlgs.length - 1) {copy copy' : DelegateList} {newDlgs newDlgs' : ℕ}
    (hc : Copied h (oldDlgs.take num) (createInstance length) 0 copy newDlgs)
    (hc' : Copied h (oldDlgs.drop (num + 1)) copy newDlgs copy' newDlgs') :
    copy'.delegates = (oldDlgs.take num ++ oldDlgs.drop (num + 1)).filter h.live ∧
      copy'.length ≤ copy'.slots.length ∧
      copy'.length = ((oldDlgs.take num ++ oldDlgs.drop (num + 1)).filter h.live).length := by
  have hroom : copy'.slots.length = oldDlgs.length - 1 := by
    rw [hc'.room, hc.room, createInstance, length_replicate, hlength]
  have hposition : newDlgs' =
      ((oldDlgs.take num ++ oldDlgs.drop (num + 1)).filter h.live).length := by
    rw [hc'.position, hc.position, zero_add, filter_append, length_append]
  have hcopy : copy'.length = newDlgs' := by
    have hfirst := hc.length
    have hsecond := hc'.length
    have hposition' := hc.position
    have hposition'' := hc'.position
    simp only [createInstance, length_take, length_drop] at hfirst hsecond
    omega
  have hle : newDlgs' ≤ oldDlgs.length - 1 := by
    rw [hposition]
    refine (length_filter_le _ _).trans ?_
    rw [length_append, length_take, length_drop]
    omega
  refine ⟨?_, by omega, by rw [hcopy, hposition]⟩
  rw [delegates, hcopy, hc'.slots, hc.slots, take_zero, nil_append,
    filter_append]

/-- The other block of a list of two. -/
theorem keys_other (hlt : num < oldDlgs.length) (htwo : oldDlgs.length = 2) :
    oldDlgs.getD (1 - num) none ∈ oldDlgs ∧
      h.keys (oldDlgs.take num) ++ h.keys (oldDlgs.drop (num + 1)) =
        h.keys [oldDlgs.getD (1 - num) none] := by
  obtain ⟨x, y, rfl⟩ := length_eq_two.mp htwo
  rcases Nat.le_one_iff_eq_zero_or_eq_one.mp (Nat.le_of_lt_succ hlt) with rfl | rfl
  · exact ⟨mem_cons_of_mem _ mem_cons_self, rfl⟩
  · exact ⟨mem_cons_self, append_nil _⟩

/-- `Remove` of one delegate erases the first occurrence of its key. -/
theorem remove_blocks (hs : h.Sound) (hv : Reads h src oldDlgs srcWeak) {o : Outcome}
    (ho : h.changeBlocks fits src target dlg oldDlgs srcWeak false fWeak = o) :
    Leaves fits h (h.size src + 1) o ∧ (o.result = .ok → Delivers src o ((h.denote src).erase dlg.key) ∧
      (h.Canonical src → o.heap.Canonical o.reference)) := by
  simp only [changeBlocks, Bool.false_eq_true, if_false] at ho
  generalize hnum : oldDlgs.findIdx (h.matchesDelegate dlg) = num at ho
  by_cases hnone : num = oldDlgs.length
  · -- nothing to remove
    rw [if_pos hnone] at ho
    subst ho
    refine ⟨leaves_self hs hv.denotable, fun _ ↦ ⟨⟨?_, .inl rfl⟩, id⟩⟩
    rw [← hv.keys, erase_keys_self (hnum.trans hnone), hv.keys]
  have hlt : num < oldDlgs.length := lt_of_le_of_ne (hnum ▸ findIdx_le_length) hnone
  have herase := erase_keys hnum hlt
  rw [hv.keys] at herase
  rw [if_neg hnone] at ho
  by_cases htwo : oldDlgs.length = 2 ∧ srcWeak = false
  · -- from a list to a delegate
    rw [if_pos htwo] at ho
    subst ho
    obtain ⟨hmem, hkeys⟩ := keys_other (h := h) hlt htwo.1
    have hother : h.IsDelegate (oldDlgs.getD (1 - num) none) := by
      rcases hv.entries _ hmem with ⟨_, hw⟩ | hd
      · rw [htwo.2] at hw
        cases hw
      · exact hd
    refine ⟨leaves_self hs (.inr (.inl hother)), fun _ ↦ ⟨⟨?_, compressed_delegate hother⟩, ?_⟩⟩
    · obtain ⟨other, hother⟩ := hother
      rw [herase, hkeys, keys_cons_live hother]
      exact denote_delegate hother
    · exact fun _ ↦ canonical_delegate hother
  rw [if_neg htwo] at ho
  by_cases hone : oldDlgs.length = 1
  · -- the only block is removed
    rw [if_pos hone] at ho
    subst ho
    refine ⟨leaves_self hs (.inl rfl), fun _ ↦ ⟨⟨?_, .inr nofun⟩, fun _ ↦ canonical_none⟩⟩
    obtain ⟨x, rfl⟩ := length_eq_one_iff.mp hone
    obtain rfl : num = 0 := Nat.lt_one_iff.mp hlt
    rw [herase]
    rfl
  rw [if_neg hone] at ho
  by_cases hfits : fits h (oldDlgs.length - 1) = true
  · rw [if_pos hfits] at ho
    have htake : (oldDlgs.take num).length = num := length_take_of_le hlt.le
    have hc := copyAndCompress_copied (h := h) (oldDlgs.take num)
      (createInstance (oldDlgs.length - 1)) 0
      (by simp only [createInstance, length_replicate]; omega)
      (by simp only [createInstance]; omega)
    have hle : (h.copyAndCompress (oldDlgs.take num) (createInstance (oldDlgs.length - 1)) 0).2 +
          (oldDlgs.length - (num + 1)) ≤ oldDlgs.length - 1 ∧
        oldDlgs.length - (num + 1) ≤
          (h.copyAndCompress (oldDlgs.take num) (createInstance (oldDlgs.length - 1)) 0).1.length := by
      have hfirst := hc.length
      have hposition := hc.position
      have := length_filter_le h.live (oldDlgs.take num)
      change _ + _ = oldDlgs.length - 1 + _ at hfirst
      omega
    have hc' := copyAndCompress_copied (h := h) (oldDlgs.drop (num + 1)) _ _
      (by rw [hc.room, createInstance, length_replicate, length_drop]; exact hle.1)
      (by rw [length_drop]; exact hle.2)
    obtain ⟨hdlgs, hroom, hlength⟩ := remove_copied hlt rfl hc hc'
    have hentries : ∀ ref ∈ oldDlgs.take num ++ oldDlgs.drop (num + 1), h.IsEntry srcWeak ref := by
      intro ref hr
      rcases mem_append.mp hr with hr | hr
      · exact hv.entries ref (mem_of_mem_take hr)
      · exact hv.entries ref (mem_of_mem_drop hr)
    have hlive : ∀ ref ∈ (oldDlgs.take num ++ oldDlgs.drop (num + 1)).filter h.live,
        h.IsDelegate ref := fun ref hr ↦ isDelegate_of_live hentries hr
    subst ho
    dsimp only
    refine ⟨leaves_allocate hs hroom (hdlgs ▸ hlive),
      fun _ ↦ ⟨⟨?_, compressed_allocate (hdlgs ▸ hlive)⟩, fun _ ↦ ?_⟩⟩
    · rw [denote_allocate (hdlgs ▸ hlive)]
      apply (congrArg h.keys hdlgs).trans
      rw [keys_filter_live, keys_append, herase]
    · apply canonical_allocate
      cases srcWeak with
      | true => exact .inl (by rw [if_pos (by omega)]; rfl)
      | false =>
        apply Or.inr
        have hthree : 3 ≤ oldDlgs.length := by
          have : oldDlgs.length ≠ 2 := fun hz ↦ htwo ⟨hz, rfl⟩
          omega
        dsimp only
        rw [hlength, filter_live_strong hentries, length_append, htake, length_drop]
        omega
  · rw [if_neg hfits] at ho
    subst ho
    exact ⟨leaves_outOfMemory hs hfits (by rw [← hv.length]; omega), nofun⟩

end MicroFramework.Delegates.Heap
