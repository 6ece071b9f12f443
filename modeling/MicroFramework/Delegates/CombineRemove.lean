import MicroFramework.Delegates.Combination
import Mathlib.Data.List.Infix

/-!
# `Combine` and `Remove` on whole operands

The loop of `Change` over the entries of its second operand, and from it the two operations on any
operands.  Two slips of the routine are left out: a second operand that is a list without live
entries leaves null, and a strong `Combine` onto a weak list whose one entry is dead builds a list
of one.
-/

namespace MicroFramework.Delegates.Heap

open List

variable {h : Heap} {ref src target reference intermediate : Ref} {dlg : Delegate}
  {weak fCombine fWeak : Bool} {refs newDlgs : List Ref} {fits : Heap → ℕ → Bool} {fuel : ℕ}
  {A : List Key} {o : Outcome}

def apply (fCombine : Bool) (A : List Key) (key : Key) : List Key :=
  if fCombine then A ++ [key] else A.erase key

theorem foldl_append_keys (A B : List Key) : B.foldl (apply true) A = A ++ B := by
  induction B generalizing A with
  | nil => exact (append_nil A).symm
  | cons key B ih => rw [foldl_cons, ih, apply, if_pos rfl, append_assoc,
      singleton_append]

theorem foldl_erase_keys (A B : List Key) : B.foldl (apply false) A = A.diff B := by
  induction B generalizing A with
  | nil => rfl
  | cons key B ih => rw [foldl_cons, ih, diff_cons]; rfl

/-- The source after which the reference is canonical. -/
def Ready (h : Heap) (src : Ref) (fCombine fWeak : Bool) : Prop :=
  if fCombine then fWeak = false → ¬ h.DeadSingle src else h.Canonical src

theorem change_delegate (fits : Heap → ℕ → Bool) (fCombine fWeak : Bool) (hs : h.Sound)
    (hsrc : h.Denotable src)
    (ht : h.dereference target = some (.delegate dlg))
    (ho : h.changeDelegate fits src target dlg fCombine fWeak = o) :
    Leaves fits h (h.size src + 1) o ∧
      (o.result = .ok → Delivers src o (apply fCombine (h.denote src) dlg.key) ∧
        (h.Ready src fCombine fWeak → o.heap.Canonical o.reference)) := by
  obtain ⟨oldDlgs, srcWeak, hv, heq⟩ := changeDelegate_reads fits target dlg fCombine fWeak hs hsrc
  rw [heq] at ho
  cases fCombine with
  | true => exact combine_blocks hs hv ht ho
  | false => exact remove_blocks hs hv ho

/-! ## The loop -/

/-- The call that the loop makes for one entry. -/
abbrev entryStep (fits : Heap → ℕ → Bool) (fuel : ℕ) (fCombine fWeak : Bool) (h : Heap)
    (src ref : Ref) : Option Outcome :=
  changeRefs fits fuel h src ref fCombine fWeak

theorem entryStep_delegate (ht : h.dereference ref = some (.delegate dlg)) :
    entryStep fits (fuel + 1) fCombine fWeak h src ref =
      some (h.changeDelegate fits src ref dlg fCombine fWeak) := by
  rw [entryStep, changeRefs, ht]

/-- The loop skips entries that are dead. -/
theorem changeEach_dead (step : Heap → Ref → Ref → Option Outcome) (hdead : h.keys newDlgs = []) :
    changeEach step h reference intermediate newDlgs = some ⟨h, reference, .ok⟩ := by
  induction newDlgs with
  | nil => rfl
  | cons ref newDlgs ih =>
    cases hr : h.dereference ref with
    | none =>
      rw [changeEach, hr]
      exact ih (by rwa [keys_cons_dead hr] at hdead)
    | some object =>
      rw [keys_cons_live hr] at hdead
      cases hdead

theorem Compressed.trans {h' : Heap} (hg : h.Grows h') (hd : h.Denotable intermediate)
    (hc : h.Compressed src intermediate) (hc' : h'.Compressed intermediate ref) :
    h'.Compressed src ref := by
  rcases hc' with rfl | hc'
  · exact hg.compressed hd hc
  · exact .inr hc'

variable {bound most : ℕ}

theorem Leaves.trans (hl : Leaves fits h bound o) {o' : Outcome}
    (hl' : Leaves fits o.heap most o') : Leaves fits h most o' :=
  ⟨hl.grows.trans hl'.grows, hl'.sound, hl'.denotable, hl'.result⟩

theorem Leaves.mono (hl : Leaves fits h bound o) (hle : bound ≤ most) : Leaves fits h most o := by
  refine ⟨hl.grows, hl.sound, hl.denotable, hl.result.imp_right fun ⟨hres, length, hlength, hf⟩ ↦ ?_⟩
  exact ⟨hres, length, hlength.trans hle, hf⟩

theorem length_denote_le (hs : h.Sound) (ref : Ref) : (h.denote ref).length ≤ h.size ref := by
  rw [denote, size]
  rcases hr : h.dereference ref with _ | ⟨dlg | list | words⟩
  · exact le_rfl
  · exact le_rfl
  · exact (length_filterMap_le _ _).trans (delegates_length (hs.list hr)).le
  · exact le_rfl

/-- Without dead entries, every block has its key. -/
theorem size_eq_length_denote (hs : h.Sound) (hd : h.Denotable ref)
    (hlive : ∀ list, h.dereference ref = some (.list list) →
      ∀ entry ∈ list.delegates, h.IsDelegate entry) : h.size ref = (h.denote ref).length := by
  rcases hd with rfl | ⟨dlg, hd⟩ | ⟨list, hl⟩
  · rfl
  · rw [denote_delegate hd, size, hd]
    rfl
  · have hstrong : list.delegates.filter h.live = list.delegates :=
      filter_live_strong fun entry he ↦ .inr (hlive list hl entry he)
    rw [denote_list hl, ← filter_live_length, hstrong, delegates_length (hs.list hl), size, hl]

/-- One delegate adds one block at most. -/
theorem Delivers.size_le (hs : h.Sound) (hd : h.Denotable src) (hl : Leaves fits h bound o)
    {key : Key} (hv : Delivers src o (apply fCombine (h.denote src) key)) :
    o.heap.size o.reference ≤ h.size src + 1 := by
  rcases hv.compressed with heq | hlive
  · rw [heq, size, hl.grows.dereference_eq hd, ← size]
    exact Nat.le_succ _
  · have happly : (apply fCombine (h.denote src) key).length ≤ (h.denote src).length + 1 := by
      cases fCombine with
      | false => exact length_erase_le.trans (Nat.le_succ _)
      | true => exact length_append.le
    calc o.heap.size o.reference
        = (apply fCombine (h.denote src) key).length := by
          rw [size_eq_length_denote hl.sound hl.denotable hlive, hv.denote]
      _ ≤ (h.denote src).length + 1 := happly
      _ ≤ h.size src + 1 := Nat.succ_le_succ (length_denote_le hs src)

/-- What the loop delivers on the rest of the entries: the keys are appended or erased in turn, and
the reference is canonical if the one it starts from is, or if there is an entry left to append. -/
structure LoopDelivers (fits : Heap → ℕ → Bool) (h : Heap) (src intermediate : Ref)
    (fCombine fWeak : Bool) (newDlgs : List Ref) (o : Outcome) : Prop where
  leaves : Leaves fits h (h.size intermediate + newDlgs.length) o
  delivers : o.result = .ok →
    Delivers src o ((h.keys newDlgs).foldl (apply fCombine) (h.denote intermediate))
  canonical : o.result = .ok → h.Canonical intermediate ∨ fCombine = true ∧ h.keys newDlgs ≠ [] →
    h.Ready intermediate fCombine fWeak → o.heap.Canonical o.reference

theorem ready_of_step {h' : Heap} (hcanonical : fCombine = false → h'.Canonical ref)
    (hd : h'.denote ref = apply fCombine A dlg.key) : h'.Ready ref fCombine fWeak := by
  cases fCombine with
  | false => exact hcanonical rfl
  | true =>
    intro _ hdead
    rw [hdead.2, apply, if_pos rfl] at hd
    exact append_ne_nil_of_right_ne_nil A (cons_ne_nil _ _) hd.symm

/-- The loop once `reference` is its intermediate value. -/
theorem changeEach_delivers (fits : Heap → ℕ → Bool) (fuel : ℕ) (fCombine fWeak : Bool)
    (hs : h.Sound) (hi : h.Denotable intermediate)
    (hc : h.Compressed src intermediate) (he : ∀ ref ∈ newDlgs, h.IsEntry weak ref) :
    ∃ o, changeEach (entryStep fits (fuel + 1) fCombine fWeak) h intermediate intermediate newDlgs =
        some o ∧ LoopDelivers fits h src intermediate fCombine fWeak newDlgs o := by
  induction newDlgs generalizing h intermediate with
  | nil =>
    refine ⟨_, rfl, leaves_self hs hi, fun _ ↦ ⟨rfl, hc⟩, fun _ hor _ ↦ ?_⟩
    rcases hor with hcanonical | ⟨_, hne⟩
    · exact hcanonical
    · exact absurd rfl hne
  | cons ref newDlgs ih =>
    have herest : ∀ ref ∈ newDlgs, h.IsEntry weak ref := fun _ hr ↦ he _ (mem_cons_of_mem _ hr)
    rcases he ref mem_cons_self with ⟨rfl, _⟩ | ⟨dlg, ht⟩
    · -- a dead entry
      obtain ⟨o, ho, hl⟩ := ih hs hi hc herest
      refine ⟨o, ho, hl.leaves.mono (Nat.le_succ _), ?_, ?_⟩
      · rw [keys_cons_dead (dereference_none h)]
        exact hl.delivers
      · rw [keys_cons_dead (dereference_none h)]
        exact hl.canonical
    · obtain ⟨hleaves, hok⟩ := change_delegate fits fCombine fWeak hs hi ht rfl
      rw [changeEach, ht, entryStep_delegate ht]
      generalize h.changeDelegate fits intermediate ref dlg fCombine fWeak = o at hleaves hok
      dsimp only
      by_cases hres : o.result = .ok
      · rw [if_pos hres]
        obtain ⟨⟨hdenote, hcompressed⟩, hcanonical⟩ := hok hres
        obtain ⟨o', ho', hl⟩ := ih hleaves.sound hleaves.denotable
          (hc.trans hleaves.grows hi hcompressed) fun _ hr ↦ hleaves.grows.isEntry (herest _ hr)
        have hkeys := hleaves.grows.keys_eq herest
        have hsize := Delivers.size_le hs hi hleaves ⟨hdenote, hcompressed⟩
        refine ⟨o', ho', (hleaves.trans hl.leaves).mono (by rw [length_cons]; omega), ?_, ?_⟩
        · rw [keys_cons_live ht, foldl_cons, ← hkeys]
          have hdelivers := hl.delivers
          rw [hdenote] at hdelivers
          exact hdelivers
        · intro hok' _ hready
          apply hl.canonical hok' (.inl (hcanonical hready))
          exact ready_of_step (fun _ ↦ hcanonical hready) hdenote
      · rw [if_neg hres]
        exact ⟨o, rfl, hleaves.mono (by rw [length_cons]; omega), fun h ↦ absurd h hres,
          fun h ↦ absurd h hres⟩

/-- The loop from its start, when some entry is live. -/
theorem changeEach_start (hs : h.Sound) (hi : h.Denotable src)
    (he : ∀ ref ∈ newDlgs, h.IsEntry weak ref) (hlive : h.keys newDlgs ≠ []) :
    ∃ o, changeEach (entryStep fits (fuel + 1) fCombine fWeak) h reference src newDlgs = some o ∧
      Leaves fits h (h.size src + newDlgs.length) o ∧ (o.result = .ok →
        Delivers src o ((h.keys newDlgs).foldl (apply fCombine) (h.denote src)) ∧
        (h.Ready src fCombine fWeak ∨ fCombine = true ∧ (h.keys newDlgs).length ≠ 1 →
          o.heap.Canonical o.reference)) := by
  induction newDlgs with
  | nil => exact absurd rfl hlive
  | cons ref newDlgs ih =>
    have herest : ∀ ref ∈ newDlgs, h.IsEntry weak ref := fun _ hr ↦ he _ (mem_cons_of_mem _ hr)
    rcases he ref mem_cons_self with ⟨rfl, _⟩ | ⟨dlg, ht⟩
    · rw [keys_cons_dead (dereference_none h)] at hlive ⊢
      obtain ⟨o, ho, hl, hok⟩ := ih herest hlive
      exact ⟨o, ho, hl.mono (Nat.le_succ _), hok⟩
    · obtain ⟨hleaves, hok⟩ := change_delegate fits fCombine fWeak hs hi ht rfl
      rw [changeEach, ht, entryStep_delegate ht]
      generalize h.changeDelegate fits src ref dlg fCombine fWeak = o at hleaves hok
      dsimp only
      by_cases hres : o.result = .ok
      · rw [if_pos hres]
        obtain ⟨⟨hdenote, hcompressed⟩, hcanonical⟩ := hok hres
        obtain ⟨o', ho', hl⟩ := changeEach_delivers fits fuel fCombine fWeak hleaves.sound
          hleaves.denotable hcompressed fun _ hr ↦ hleaves.grows.isEntry (herest _ hr)
        have hkeys := hleaves.grows.keys_eq herest
        have hsize := Delivers.size_le hs hi hleaves ⟨hdenote, hcompressed⟩
        refine ⟨o', ho', (hleaves.trans hl.leaves).mono (by rw [length_cons]; omega),
          fun hok' ↦ ⟨?_, fun hready ↦ ?_⟩⟩
        · rw [keys_cons_live ht, foldl_cons, ← hkeys]
          have hdelivers := hl.delivers hok'
          rw [hdenote] at hdelivers
          exact hdelivers
        · rcases hready with hready | ⟨rfl, hlen⟩
          · exact hl.canonical hok' (.inl (hcanonical hready))
              (ready_of_step (fun _ ↦ hcanonical hready) hdenote)
          · -- a second live entry makes good what the first one left
            refine hl.canonical hok' (.inr ⟨rfl, fun hnil ↦ hlen ?_⟩) (ready_of_step nofun hdenote)
            rw [keys_cons_live ht, ← hkeys, hnil]
            rfl
      · rw [if_neg hres]
        exact ⟨o, rfl, hleaves.mono (by rw [length_cons]; omega), fun h ↦ absurd h hres⟩

/-! ## Whole operands -/

/-- `Change` on operands that are null, delegates or lists, when the second one is no list without
live entries. -/
theorem changeRefs_delivers (fits : Heap → ℕ → Bool) (fCombine fWeak : Bool) (hs : h.Sound)
    (hsrc : h.Canonical src) (htarget : h.Canonical target)
    (hlive : ¬ (h.EmptyList target ∧ h.denote src ≠ [])) (hfuel : 2 ≤ fuel) :
    ∃ o, changeRefs fits fuel h src target fCombine fWeak = some o ∧
      Leaves fits h (h.size src + h.size target) o ∧ (o.result = .ok →
        Delivers src o ((h.denote target).foldl (apply fCombine) (h.denote src)) ∧
        (h.Ready src fCombine fWeak ∨ fCombine = true ∧ (h.denote target).length ≠ 1 →
          o.heap.Canonical o.reference)) := by
  obtain ⟨fuel, rfl⟩ := Nat.exists_eq_add_of_le' hfuel
  rcases htarget.1 with rfl | ⟨dlg, ht⟩ | ⟨list, hl⟩
  · exact ⟨⟨h, src, .ok⟩, rfl, leaves_self hs hsrc.1, fun _ ↦ ⟨⟨rfl, .inl rfl⟩, fun _ ↦ hsrc⟩⟩
  · obtain ⟨hleaves, hok⟩ := change_delegate fits fCombine fWeak hs hsrc.1 ht rfl
    have hone : h.size target = 1 := by rw [size, ht]
    refine ⟨_, entryStep_delegate ht, hone ▸ hleaves, fun hres ↦ ?_⟩
    rw [denote_delegate ht]
    refine ⟨(hok hres).1, fun hready ↦ (hok hres).2 ?_⟩
    rcases hready with hready | ⟨_, hlen⟩
    · exact hready
    · exact absurd rfl hlen
  · have heq : changeRefs fits (fuel + 2) h src target fCombine fWeak =
        changeEach (entryStep fits (fuel + 1) fCombine fWeak) h none src list.delegates := by
      rw [changeRefs, hl]
    rw [heq, denote_list hl]
    by_cases hdead : h.keys list.delegates = []
    · have hempty : h.denote src = [] := by
        by_contra hne
        exact hlive ⟨⟨⟨list, hl⟩, by rw [denote_list hl, hdead]⟩, hne⟩
      refine ⟨_, changeEach_dead _ hdead, leaves_self hs (.inl rfl), fun _ ↦ ⟨⟨?_, .inr ?_⟩, ?_⟩⟩
      · rw [hdead, hempty]
        rfl
      · rintro _ ⟨⟩
      · exact fun _ ↦ canonical_none
    · have hsize : h.size target = list.delegates.length := by
        rw [delegates_length (hs.list hl), size, hl]
      rw [hsize]
      exact changeEach_start hs hsrc.1 (hs.list hl).entries hdead

/-- What a call does: it ends, at worst because the heap it leaves has no room for a list of at most
`bound` blocks; the references of the heap keep their denotations; and a successful call gives a
canonical reference for `expected`, whose list has no dead entries unless it is the first operand
itself. -/
structure Computes (fits : Heap → ℕ → Bool) (h : Heap) (src : Ref) (bound : ℕ)
    (expected : List Key) (o : Outcome) : Prop where
  result : o.result = .ok ∨ o.result = .outOfMemory ∧ ∃ length ≤ bound, fits o.heap length = false
  sound : o.heap.Sound
  operands : ∀ ref, h.Denotable ref → o.heap.denote ref = h.denote ref
  denotes : o.result = .ok → o.heap.denote o.reference = expected
  canonical : o.result = .ok → o.heap.Canonical o.reference
  compressed : o.result = .ok → o.heap.Compressed src o.reference

theorem computes_of_leaves (hs : h.Sound) {expected : List Key} (hl : Leaves fits h bound o)
    (hok : o.result = .ok → Delivers src o expected ∧ o.heap.Canonical o.reference) :
    Computes fits h src bound expected o where
  result := hl.result
  sound := hl.sound
  operands _ hd := hl.grows.denote_eq hs hd
  denotes hres := (hok hres).1.denote
  canonical hres := (hok hres).2
  compressed hres := (hok hres).1.compressed

/-- On canonical operands, `Combine` appends the keys of the second operand to those of the first,
and `Remove` erases from the first the first occurrence of each key of the second in turn. -/
theorem combine_remove_algebra (fits : Heap → ℕ → Bool) (h : Heap) (hs : h.Sound) (a b : Ref)
    (ha : h.Canonical a) (hb : h.Canonical b)
    (hlive : ¬ (h.EmptyList b ∧ h.denote a ≠ [])) (fuel : ℕ) (hfuel : 2 ≤ fuel) :
    (∀ fWeak, ¬ (fWeak = false ∧ h.DeadSingle a ∧ (h.denote b).length = 1) →
      ∃ o, combine fits fuel h (.object a) (.object b) fWeak = some o ∧
        Computes fits h a (h.size a + h.size b) (h.denote a ++ h.denote b) o) ∧
    ∃ o, remove fits fuel h (.object a) (.object b) = some o ∧
      Computes fits h a (h.size a + h.size b) ((h.denote a).diff (h.denote b)) o := by
  constructor
  · intro fWeak hslip
    obtain ⟨o, ho, hl, hok⟩ := changeRefs_delivers fits true fWeak hs ha hb hlive hfuel
    rw [foldl_append_keys] at hok
    refine ⟨o, ho, computes_of_leaves hs hl fun hres ↦ ⟨(hok hres).1, (hok hres).2 ?_⟩⟩
    by_cases hlen : (h.denote b).length = 1
    · exact .inl fun hstrong hdead ↦ hslip ⟨hstrong, hdead, hlen⟩
    · exact .inr ⟨rfl, hlen⟩
  · obtain ⟨o, ho, hl, hok⟩ := changeRefs_delivers fits false false hs ha hb hlive hfuel
    rw [foldl_erase_keys] at hok
    exact ⟨o, ho, computes_of_leaves hs hl fun hres ↦ ⟨(hok hres).1, (hok hres).2 (.inl ha)⟩⟩

/-! ## An example -/

/-- Three delegates, the list of the first and the third, and the list of the first and the
second. -/
def sample : Heap :=
  ⟨[.delegate ⟨0, 1, none⟩, .delegate ⟨0, 2, none⟩, .delegate ⟨0, 3, none⟩,
    .list ⟨0, 2, false, [some 0, some 2]⟩, .list ⟨0, 2, false, [some 0, some 1]⟩]⟩

theorem sample_sound : sample.Sound := by
  have hfirst : sample.IsDelegate (some 0) := ⟨_, rfl⟩
  have hsecond : sample.IsDelegate (some 1) := ⟨_, rfl⟩
  have hthird : sample.IsDelegate (some 2) := ⟨_, rfl⟩
  intro list hl
  simp only [sample, mem_cons, reduceCtorEq, Object.list.injEq, not_mem_nil, or_false,
    false_or] at hl
  rcases hl with rfl | rfl
  · exact ⟨le_rfl, by simp [DelegateList.delegates, IsEntry, hfirst, hthird]⟩
  · exact ⟨le_rfl, by simp [DelegateList.delegates, IsEntry, hfirst, hsecond]⟩

theorem sample_canonical : sample.Canonical (some 3) ∧ sample.Canonical (some 4) := by
  constructor
  · exact ⟨.inr (.inr ⟨_, rfl⟩), by rintro _ ⟨⟩; exact .inr le_rfl⟩
  · exact ⟨.inr (.inr ⟨_, rfl⟩), by rintro _ ⟨⟩; exact .inr le_rfl⟩

/-- `R` is `A` without one occurrence of `B`, or `A` if `B` does not occur in it. -/
def WithoutOccurrence (A B R : List Key) : Prop :=
  (∃ before after, A = before ++ B ++ after ∧ R = before ++ after) ∨ ¬ B <:+: A ∧ R = A

/-- A list that does not occur in the other one is still removed, element by element. -/
theorem not_withoutOccurrence :
    ¬ ∀ (fits : Heap → ℕ → Bool) (h : Heap) (a b : Ref), h.Sound → h.Canonical a → h.Canonical b →
      ∀ o, remove fits 2 h (.object a) (.object b) = some o → o.result = .ok →
        WithoutOccurrence (h.denote a) (h.denote b) (o.heap.denote o.reference) := by
  intro hclaim
  have hremove : remove (fun _ _ ↦ true) 2 sample (.object (some 3)) (.object (some 4)) =
      some ⟨sample, some 2, .ok⟩ := rfl
  have ha : sample.denote (some 3) = [(1, none), (3, none)] := rfl
  have hb : sample.denote (some 4) = [(1, none), (2, none)] := rfl
  have hr : sample.denote (some 2) = [(3, none)] := rfl
  have h := hclaim _ sample (some 3) (some 4) sample_sound sample_canonical.1 sample_canonical.2 _
    hremove rfl
  rw [ha, hb, hr] at h
  rcases h with ⟨before, after, hab, hrest⟩ | ⟨_, heq⟩
  · have hlen := congrArg List.length hab
    have hlen' := congrArg List.length hrest
    simp only [length_append, length_cons, length_nil] at hlen hlen'
    omega
  · cases heq

theorem combine_remove_sample :
    (∃ o, combine (fun _ _ ↦ true) 2 sample (.object (some 3)) (.object (some 4)) false = some o ∧
      Computes (fun _ _ ↦ true) sample (some 3) 4 [(1, none), (3, none), (1, none), (2, none)] o) ∧
    ∃ o, remove (fun _ _ ↦ true) 2 sample (.object (some 3)) (.object (some 4)) = some o ∧
      Computes (fun _ _ ↦ true) sample (some 3) 4 [(3, none)] o :=
  have h := combine_remove_algebra (fun _ _ ↦ true) sample sample_sound (some 3) (some 4)
    sample_canonical.1 sample_canonical.2 (fun h ↦ absurd h.1.2 (cons_ne_nil _ _)) 2 le_rfl
  ⟨h.1 false fun hslip ↦ absurd hslip.2.2 (by decide), h.2⟩

end MicroFramework.Delegates.Heap
