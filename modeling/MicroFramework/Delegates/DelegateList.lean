import Mathlib.Algebra.Order.Group.Nat
import Mathlib.Data.List.Basic

/-!
# Delegates and delegate lists

`CLR_RT_HeapBlock_Delegate_List`: the managed heap as it stands during one call, with references as
numbers of its objects, and the routine `Change` behind `Combine` and `Remove`.  A list may be weak;
the collector then sets the entries of dead targets to null, which is the state a call may find a
weak list in.
-/

namespace MicroFramework.Delegates

/-- A heap block of type `DATATYPE_OBJECT`: null or the number of an object. -/
abbrev Ref := Option ℕ

/-- A heap block: a reference, or a value of another data type. -/
inductive Block where
  | object (ref : Ref)
  | other

/-- `CLR_RT_HeapBlock_Delegate` -/
@[ext]
structure Delegate where
  cls : ℕ
  ftn : ℕ
  object : Ref

/-- `CLR_RT_HeapBlock_Delegate_List`: `slots` are the blocks behind its header, of which the first
`length` are its delegates, and `weak` is the flag `c_Weak`. -/
structure DelegateList where
  cls : ℕ
  length : ℕ
  weak : Bool
  slots : List Ref

/-- An object of the heap, with the words that lie where a delegate keeps its own for the types
that `Change` does not know. -/
inductive Object where
  | delegate (dlg : Delegate)
  | list (list : DelegateList)
  | other (words : Delegate)

structure Heap where
  objects : List Object

inductive HResult where
  | ok
  | wrongType
  | outOfMemory
  deriving DecidableEq

/-- What a call leaves: the heap, the block `reference` and its result. -/
structure Outcome where
  heap : Heap
  reference : Ref
  result : HResult

def DelegateList.delegates (list : DelegateList) : List Ref := list.slots.take list.length

def Object.words : Object → Delegate
  | .delegate dlg => dlg
  | .list dlgList => ⟨dlgList.cls, dlgList.length, dlgList.slots.headD none⟩
  | .other words => words

namespace Heap

def dereference (h : Heap) (ref : Ref) : Option Object := ref.bind (h.objects[·]?)

def allocate (h : Heap) (object : Object) : Heap := ⟨h.objects ++ [object]⟩

def next (h : Heap) : ℕ := h.objects.length

/-- `CopyAndCompress` from the blocks `src` to the slots of the list from `dst` on, with the
position it returns. -/
def copyAndCompress (h : Heap) : List Ref → DelegateList → ℕ → DelegateList × ℕ
  | [], list, dst => (list, dst)
  | ref :: src, list, dst =>
    match h.dereference ref with
    | some _ => h.copyAndCompress src { list with slots := list.slots.set dst ref } (dst + 1)
    | none => h.copyAndCompress src { list with length := list.length - 1 } dst

/-- Whether the block holds a delegate with the method and the object of `dlg`. -/
def matchesDelegate (h : Heap) (dlg : Delegate) (ref : Ref) : Bool :=
  match h.dereference ref with
  | none => false
  | some ptr => decide (ptr.words.ftn = dlg.ftn ∧ ptr.words.object = dlg.object)

/-- `CreateInstance`: the fields of a list of the given length, before its slots are written. -/
def createInstance (length : ℕ) : DelegateList := ⟨0, length, false, List.replicate length none⟩

variable (fits : Heap → ℕ → Bool)

/-- The branch of `Change` for one delegate `dlg`, which the block `target` refers to, on the blocks
`oldDlgs`; `srcWeak` is the flag of the list they are from.  `fits` tells whether the heap has room
for a list of a length. -/
def changeBlocks (h : Heap) (src target : Ref) (dlg : Delegate) (oldDlgs : List Ref)
    (srcWeak fCombine fWeak : Bool) : Outcome :=
  let oldNum := oldDlgs.length
  let flags := (if 1 < oldNum then srcWeak else false) || fWeak
  if fCombine then
    if oldNum = 0 ∧ fWeak = false then ⟨h, target, .ok⟩
    else
      let newNum := oldNum + 1
      if fits h newNum then
        let (list, newDlgs) := h.copyAndCompress oldDlgs (createInstance newNum) 0
        let list := { list with
          cls := dlg.cls
          slots := list.slots.set newDlgs target
          weak := flags }
        ⟨h.allocate (.list list), some h.next, .ok⟩
      else ⟨h, none, .outOfMemory⟩
  else
    let num := oldDlgs.findIdx (h.matchesDelegate dlg)
    if num = oldNum then ⟨h, src, .ok⟩
    else if oldNum = 2 ∧ srcWeak = false then ⟨h, oldDlgs.getD (1 - num) none, .ok⟩
    else if oldNum = 1 then ⟨h, none, .ok⟩
    else
      let newNum := oldNum - 1
      if fits h newNum then
        let (list, newDlgs) := h.copyAndCompress (oldDlgs.take num) (createInstance newNum) 0
        let (list, _) := h.copyAndCompress (oldDlgs.drop (num + 1)) list newDlgs
        let list := { list with cls := dlg.cls, weak := flags }
        ⟨h.allocate (.list list), some h.next, .ok⟩
      else ⟨h, none, .outOfMemory⟩

def changeDelegate (h : Heap) (src target : Ref) (dlg : Delegate) (fCombine fWeak : Bool) :
    Outcome :=
  match h.dereference src with
  | none => h.changeBlocks fits src target dlg [] false fCombine fWeak
  | some (.delegate _) => h.changeBlocks fits src target dlg [src] false fCombine fWeak
  | some (.list list) => h.changeBlocks fits src target dlg list.delegates list.weak fCombine fWeak
  | some (.other _) => ⟨h, none, .wrongType⟩

/-- The loop of `Change` over the delegates of a list, with `step` for the call on one of them. -/
def changeEach (step : Heap → Ref → Ref → Option Outcome) :
    Heap → Ref → Ref → List Ref → Option Outcome
  | h, reference, _, [] => some ⟨h, reference, .ok⟩
  | h, reference, intermediate, ref :: newDlgs =>
    match h.dereference ref with
    | none => changeEach step h reference intermediate newDlgs
    | some _ =>
      match step h intermediate ref with
      | none => none
      | some o => if o.result = .ok then changeEach step o.heap o.reference o.reference newDlgs
        else some o

/-- `Change` on two references.  A list as an entry of a list takes one more call, so the calls are
counted down by `fuel`. -/
def changeRefs : ℕ → Heap → Ref → Ref → Bool → Bool → Option Outcome
  | 0, _, _, _, _, _ => none
  | fuel + 1, h, src, target, fCombine, fWeak =>
    match h.dereference target with
    | none => some ⟨h, src, .ok⟩
    | some (.list list) =>
      changeEach (fun h src ref ↦ changeRefs fuel h src ref fCombine fWeak) h none src
        list.delegates
    | some (.delegate dlg) => some (h.changeDelegate fits src target dlg fCombine fWeak)
    | some (.other words) => some (h.changeDelegate fits src target words fCombine fWeak)

def change (fuel : ℕ) (h : Heap) (delegateSrc delegateTarget : Block) (fCombine fWeak : Bool) :
    Option Outcome :=
  match delegateSrc, delegateTarget with
  | .object src, .object target => changeRefs fits fuel h src target fCombine fWeak
  | _, _ => some ⟨h, none, .wrongType⟩

def combine (fuel : ℕ) (h : Heap) (delegateSrc delegateNew : Block) (fWeak : Bool) :
    Option Outcome :=
  change fits fuel h delegateSrc delegateNew true fWeak

def remove (fuel : ℕ) (h : Heap) (delegateSrc delegateOld : Block) : Option Outcome :=
  change fits fuel h delegateSrc delegateOld false false

end Heap

/-!
## Combination and removal as list algebra

A reference denotes a list of keys, a key being the method and the object that delegates are
compared by: null the empty list, a delegate its own key, a list the keys of its live entries.
`Combine` appends, `Remove` erases the first occurrence of each key of its second operand in turn.
-/

abbrev Key := ℕ × Ref

def Delegate.key (dlg : Delegate) : Key := (dlg.ftn, dlg.object)

namespace Heap

variable (h : Heap)

/-- The key behind a block, if there is an object. -/
def keyOf (ref : Ref) : Option Key := (h.dereference ref).map (·.words.key)

/-- The keys of the live ones among blocks. -/
def keys (refs : List Ref) : List Key := refs.filterMap h.keyOf

def denote (ref : Ref) : List Key :=
  match h.dereference ref with
  | some (.delegate dlg) => [dlg.key]
  | some (.list list) => h.keys list.delegates
  | _ => []

def IsDelegate (ref : Ref) : Prop := ∃ dlg, h.dereference ref = some (.delegate dlg)

def IsEntry (weak : Bool) (ref : Ref) : Prop := ref = none ∧ weak = true ∨ h.IsDelegate ref

end Heap

/-- The delegates of a list lie in its slots and are entries. -/
structure DelegateList.Sound (list : DelegateList) (h : Heap) : Prop where
  fits : list.length ≤ list.slots.length
  entries : ∀ ref ∈ list.delegates, h.IsEntry list.weak ref

namespace Heap

variable (h : Heap)

def Sound : Prop := ∀ list, .list list ∈ h.objects → list.Sound h

def Denotable (ref : Ref) : Prop :=
  ref = none ∨ h.IsDelegate ref ∨ ∃ list, h.dereference ref = some (.list list)

/-- Null, a single delegate, a weak list, or a list of at least two. -/
def Canonical (ref : Ref) : Prop :=
  h.Denotable ref ∧
    ∀ list, h.dereference ref = some (.list list) → list.weak = true ∨ 2 ≤ list.length

/-- A list without live entries. -/
def EmptyList (ref : Ref) : Prop :=
  (∃ list, h.dereference ref = some (.list list)) ∧ h.denote ref = []

def DeadSingle (ref : Ref) : Prop :=
  (∃ list, h.dereference ref = some (.list list) ∧ list.length = 1) ∧ h.denote ref = []

/-- The reference is `src`, or no list that it refers to has a dead entry. -/
def Compressed (src ref : Ref) : Prop :=
  ref = src ∨ ∀ list, h.dereference ref = some (.list list) →
    ∀ entry ∈ list.delegates, h.IsDelegate entry

/-- Every object of one heap is still there in the other. -/
def Grows (h' : Heap) : Prop := h.objects <+: h'.objects

/-! ## Dereferencing -/

@[simp]
theorem dereference_none : h.dereference none = none := rfl

variable {h} {h' h'' : Heap} {ref src target : Ref} {dlg : Delegate} {weak srcWeak : Bool}
  {refs oldDlgs : List Ref}

theorem Grows.refl : h.Grows h := List.prefix_refl _

section

variable (hg : h.Grows h')

include hg

theorem Grows.trans (hg' : h'.Grows h'') : h.Grows h'' :=
  List.IsPrefix.trans hg hg'

theorem Grows.dereference {object : Object}
    (hr : h.dereference ref = some object) : h'.dereference ref = some object := by
  cases ref with
  | none => exact absurd hr nofun
  | some address =>
    obtain ⟨added, hadded⟩ := hg
    have hr : h.objects[address]? = some object := hr
    have hlt : address < h.objects.length := (List.getElem?_eq_some_iff.mp hr).1
    change h'.objects[address]? = some object
    rw [← hadded, List.getElem?_append_left hlt, hr]

theorem Grows.isDelegate (hd : h.IsDelegate ref) : h'.IsDelegate ref := by
  obtain ⟨dlg, hd⟩ := hd
  exact ⟨dlg, hg.dereference hd⟩

theorem Grows.isEntry (he : h.IsEntry weak ref) : h'.IsEntry weak ref :=
  he.imp id hg.isDelegate

theorem Grows.dereference_eq (hd : h.Denotable ref) : h'.dereference ref = h.dereference ref := by
  rcases hd with rfl | ⟨dlg, hd⟩ | ⟨list, hl⟩
  · rfl
  · rw [hd, hg.dereference hd]
  · rw [hl, hg.dereference hl]

end

theorem IsEntry.denotable (he : h.IsEntry weak ref) : h.Denotable ref := by
  rcases he with ⟨rfl, _⟩ | hd
  · exact .inl rfl
  · exact .inr (.inl hd)

theorem Grows.keys_eq (hg : h.Grows h') (he : ∀ ref ∈ refs, h.IsEntry weak ref) :
    h'.keys refs = h.keys refs := by
  apply List.filterMap_congr
  intro ref hr
  rw [keyOf, keyOf, hg.dereference_eq (he ref hr).denotable]

theorem Sound.list (hs : h.Sound) {list : DelegateList}
    (hl : h.dereference ref = some (.list list)) : list.Sound h := by
  cases ref with
  | none => exact absurd hl nofun
  | some address => exact hs list (List.mem_of_getElem? hl)

theorem Grows.denote_eq (hg : h.Grows h') (hs : h.Sound) (hd : h.Denotable ref) :
    h'.denote ref = h.denote ref := by
  unfold denote
  rw [hg.dereference_eq hd]
  rcases hr : h.dereference ref with _ | ⟨dlg | list | words⟩
  · rfl
  · rfl
  · exact hg.keys_eq (hs.list hr).entries
  · rfl

theorem Grows.compressed (hg : h.Grows h') (hd : h.Denotable ref) (hc : h.Compressed src ref) :
    h'.Compressed src ref := by
  apply hc.imp_right
  intro hc list hl entry he
  rw [hg.dereference_eq hd] at hl
  exact hg.isDelegate (hc list hl entry he)

theorem denote_delegate (hd : h.dereference ref = some (.delegate dlg)) :
    h.denote ref = [dlg.key] := by
  rw [denote, hd]

theorem denote_list {list : DelegateList} (hl : h.dereference ref = some (.list list)) :
    h.denote ref = h.keys list.delegates := by
  rw [denote, hl]

theorem canonical_none : h.Canonical none := ⟨.inl rfl, nofun⟩

theorem canonical_delegate (hd : h.IsDelegate ref) : h.Canonical ref := by
  refine ⟨.inr (.inl hd), ?_⟩
  intro list hl
  obtain ⟨dlg, hd⟩ := hd
  rw [hd] at hl
  cases hl

theorem compressed_delegate (hd : h.IsDelegate ref) : h.Compressed src ref := by
  apply Or.inr
  intro list hl
  obtain ⟨dlg, hd⟩ := hd
  rw [hd] at hl
  cases hl

/-! ## The keys of blocks -/

/-- Whether a block refers to an object. -/
def live (h : Heap) (ref : Ref) : Bool := (h.dereference ref).isSome

theorem keys_append (refs refs' : List Ref) : h.keys (refs ++ refs') = h.keys refs ++ h.keys refs' :=
  List.filterMap_append

theorem keys_cons_live {object : Object} (hr : h.dereference ref = some object) :
    h.keys (ref :: refs) = object.words.key :: h.keys refs := by
  rw [keys, List.filterMap_cons, keyOf, hr]
  rfl

theorem keys_cons_dead (hr : h.dereference ref = none) : h.keys (ref :: refs) = h.keys refs := by
  rw [keys, List.filterMap_cons, keyOf, hr]
  rfl

theorem keys_filter_live (refs : List Ref) : h.keys (refs.filter h.live) = h.keys refs := by
  rw [keys, keys, List.filterMap_filter]
  apply List.filterMap_congr
  intro ref _
  rw [live, keyOf]
  cases h.dereference ref <;> rfl

theorem filter_live_length (refs : List Ref) :
    (refs.filter h.live).length = (h.keys refs).length := by
  induction refs with
  | nil => rfl
  | cons ref refs ih =>
    cases hr : h.dereference ref with
    | none => rw [keys_cons_dead hr, List.filter_cons_of_neg (by simp [live, hr]), ih]
    | some object =>
      rw [keys_cons_live hr, List.filter_cons_of_pos (by simp [live, hr]), List.length_cons,
        List.length_cons, ih]

theorem filter_live_strong (he : ∀ ref ∈ refs, h.IsEntry false ref) : refs.filter h.live = refs := by
  apply List.filter_eq_self.mpr
  intro ref hr
  rcases he ref hr with ⟨_, hw⟩ | ⟨dlg, hd⟩
  · cases hw
  · rw [live, hd]
    rfl

theorem isDelegate_of_live (he : ∀ ref ∈ refs, h.IsEntry weak ref)
    (hr : ref ∈ refs.filter h.live) : h.IsDelegate ref := by
  obtain ⟨hmem, hlive⟩ := List.mem_filter.mp hr
  rcases he ref hmem with ⟨rfl, _⟩ | hd
  · cases hlive
  · exact hd

end Heap

end MicroFramework.Delegates
