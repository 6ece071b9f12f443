import MicroFramework.Marking.Marker

/-!
# The chain of mark stacks

What the marker's stacks look like between two turns of its loop: every mark stack before the
current one is full, the runs on them are not empty, and each starts with its sentinel.  The
blocks still to visit (`pending`) are the run at `lst` and then the runs on the stacks, topmost
first; the stack operations rearrange this list and lose nothing.
-/

namespace MicroFramework.Marking

open Heap Library Function

namespace MarkStack

/-- The blocks of the runs on a mark stack, from the element `i` down to the first. -/
def blocks (stk : MarkStack) : ℕ → List ℕ
  | 0 => []
  | i + 1 => List.range' (stk.elements (i + 1)).ptr (stk.elements (i + 1)).num ++ stk.blocks i

theorem blocks_congr {stk stk' : MarkStack} {i : ℕ}
    (h : ∀ j ≤ i, stk'.elements j = stk.elements j) : stk'.blocks i = stk.blocks i := by
  induction i with
  | zero => rfl
  | succ i ih => rw [blocks, blocks, h (i + 1) (Nat.le_refl _), ih fun j hj ↦ h j (by omega)]

end MarkStack

namespace Marker

def blocksBelow (markStacks : ℕ → MarkStack) : ℕ → List ℕ
  | 0 => []
  | j + 1 => (markStacks j).blocks (markStacks j).top ++ blocksBelow markStacks j

theorem blocksBelow_congr {markStacks markStacks' : ℕ → MarkStack} {j : ℕ}
    (h : ∀ i < j, markStacks' i = markStacks i) :
    blocksBelow markStacks' j = blocksBelow markStacks j := by
  induction j with
  | zero => rfl
  | succ j ih => rw [blocksBelow, blocksBelow, h j (by omega), ih fun i hi ↦ h i (by omega)]

def stacked (s : Marker) : List ℕ :=
  (s.markStacks s.stackList).blocks s.stack ++ blocksBelow s.markStacks s.stackList

/-- The blocks still to visit. -/
def pending (s : Marker) : List ℕ :=
  List.range' s.lst s.num ++ s.stacked

def alive (s : Marker) (a : ℕ) : Bool :=
  (s.memory a).id.isAlive

def marking (s : Marker) : Marking ℕ :=
  ⟨s.alive, s.pending, s.outOfStackSpace⟩

def topOf (s : Marker) (j : ℕ) : ℕ :=
  if j = s.stackList then s.stack else (s.markStacks j).top

structure Shape (s : Marker) : Prop where
  current : s.markStack = s.stackList
  linked : s.stackList < s.linked
  last : s.stackLast = (s.markStacks s.stackList).last
  bound : s.stack ≤ s.stackLast
  room : ∀ j < s.linked, 1 ≤ (s.markStacks j).last
  first : 2 ≤ (s.markStacks 0).last
  full : ∀ j < s.stackList, (s.markStacks j).top = (s.markStacks j).last
  sentinel : ∀ j ≤ s.stackList, ((s.markStacks j).elements 0).num = 0
  used : ∀ j ≤ s.stackList, ∀ i, 1 ≤ i → i ≤ s.topOf j → 1 ≤ ((s.markStacks j).elements i).num

theorem Shape.inBounds {s : Marker} (h : s.Shape) : s.InBounds := by
  unfold InBounds
  rw [← h.last]
  exact h.bound

section Visit

variable {s : Marker} {a : ℕ}

section

variable (memory : ℕ → HeapBlock)

include memory

@[simp]
theorem markAlive_dataType (a b : ℕ) :
    (markAlive memory a b).id.dataType = (memory b).id.dataType := by
  by_cases h : b = a
  · subst h
    simp [markAlive]
  · simp [markAlive, h]

@[simp]
theorem markAlive_size (a b : ℕ) : (markAlive memory a b).id.size = (memory b).id.size := by
  by_cases h : b = a
  · subst h
    simp [markAlive]
  · simp [markAlive, h]

@[simp]
theorem markAlive_isEvent (a b : ℕ) :
    (markAlive memory a b).id.isEvent = (memory b).id.isEvent := by
  by_cases h : b = a
  · subst h
    simp [markAlive]
  · simp [markAlive, h]

@[simp]
theorem markAlive_data (a b : ℕ) : (markAlive memory a b).data = (memory b).data := by
  by_cases h : b = a
  · subst h
    simp [markAlive]
  · simp [markAlive, h]

/-- Marking changes no reference and no field. -/
@[simp]
theorem graph_markAlive (a : ℕ) : graph (markAlive memory a) = graph memory := by
  simp [graph, HeapBlock.dereference]

theorem isAlive_markAlive (a : ℕ) :
    (fun b ↦ (markAlive memory a b).id.isAlive) =
      update (fun b ↦ (memory b).id.isAlive) a true := by
  funext b
  by_cases h : b = a
  · subst h
    simp [markAlive]
  · simp [markAlive, h]

end

/-- Visiting a block marks it and turns `lst` into what it leads to; nothing else changes. -/
theorem visit_eq (s : Marker) (a : ℕ) : ∃ lst num,
    s.visit a = { s with memory := markAlive s.memory a, lst := lst, num := num } ∧
    List.range' lst num = (graph s.memory).expand (update s.alive a true) a := by
  have halive (b : ℕ) : (markAlive s.memory a b).id.isAlive = update s.alive a true b :=
    congrFun (isAlive_markAlive s.memory a) b
  unfold visit
  simp only [Graph.expand, graph, HeapBlock.dereference, markAlive_dataType, markAlive_size,
    markAlive_data, halive]
  cases htype : (s.memory a).id.dataType
  case object | byRef =>
    cases hdata : (s.memory a).data with
    | objectReference ptr =>
      cases ptr with
      | none => exact ⟨0, 0, rfl, by simp⟩
      | some sub =>
        by_cases hsub : update s.alive a true sub = false
        · exact ⟨sub, 1, by simp [hsub], by simp [Option.filter, hsub]⟩
        · exact ⟨0, 0, by simp [hsub], by simp [hsub]⟩
    | array numOfElements fReference | other => exact ⟨0, 0, rfl, by simp⟩
  case classType | valueType => exact ⟨a + 1, (s.memory a).id.size - 1, rfl, by simp⟩
  case szArray =>
    cases hdata : (s.memory a).data with
    | objectReference ptr | other => exact ⟨0, 0, rfl, by simp⟩
    | array numOfElements fReference =>
      cases fReference with
      | true => exact ⟨a + 1, numOfElements, rfl, by simp⟩
      | false => exact ⟨0, 0, rfl, by simp⟩
  all_goals exact ⟨0, 0, rfl, by simp⟩

theorem Shape.visit (h : s.Shape) : (s.visit a).Shape := by
  obtain ⟨lst, num, heq, -⟩ := visit_eq s a
  rw [heq]
  exact ⟨h.current, h.linked, h.last, h.bound, h.room, h.first, h.full, h.sentinel, h.used⟩

theorem marking_visit (s : Marker) (a : ℕ) :
    (s.visit a).marking = s.marking.visit (graph s.memory) a s.stacked := by
  obtain ⟨lst, num, heq, hrange⟩ := visit_eq s a
  rw [heq, marking, Marking.visit]
  have halive : (fun b ↦ (markAlive s.memory a b).id.isAlive) = update s.alive a true :=
    isAlive_markAlive s.memory a
  congr 1
  show List.range' lst num ++ s.stacked = _
  rw [hrange]
  rfl

end Visit

section Stack

variable {s : Marker}

theorem Shape.topOf_current (s : Marker) : s.topOf s.stackList = s.stack := if_pos rfl

theorem Shape.element_num (h : s.Shape) (hstack : 1 ≤ s.stack) : 1 ≤ s.element.num :=
  h.used s.stackList (Nat.le_refl _) s.stack hstack (by rw [Shape.topOf_current])

theorem Shape.stack_eq_zero (h : s.Shape) (hnum : s.element.num = 0) : s.stack = 0 := by
  by_contra hstack
  have hpos := h.element_num (by omega)
  omega

def write (s : Marker) (k : ℕ) (e : MarkStackElement) (stack : ℕ) : Marker :=
  { s with
    markStacks := update s.markStacks s.stackList
      { s.markStacks s.stackList with
        elements := update (s.markStacks s.stackList).elements k e }
    stack := stack }

theorem takeTop_eq (s : Marker) :
    s.takeTop = s.write s.stack ⟨s.element.ptr + 1, s.element.num - 1⟩
      (if s.element.num - 1 = 0 then s.stack - 1 else s.stack) := by
  unfold takeTop
  by_cases h : s.element.num - 1 = 0
  · simp only [if_pos h]
    rfl
  · simp only [if_neg h]
    rfl

theorem pushRest_eq (s : Marker) :
    s.pushRest = s.write (s.stack + 1) ⟨s.lst + 1, s.num - 1⟩ (s.stack + 1) :=
  rfl

section Write

variable (s : Marker) (k : ℕ) (e : MarkStackElement) (stack : ℕ)

theorem last_write (j : ℕ) : ((s.write k e stack).markStacks j).last = (s.markStacks j).last := by
  by_cases h : j = s.stackList
  · subst h
    simp [write]
  · simp [write, h]

theorem top_write (j : ℕ) : ((s.write k e stack).markStacks j).top = (s.markStacks j).top := by
  by_cases h : j = s.stackList
  · subst h
    simp [write]
  · simp [write, h]

theorem elements_write (j i : ℕ) : ((s.write k e stack).markStacks j).elements i =
    if j = s.stackList ∧ i = k then e else (s.markStacks j).elements i := by
  by_cases h : j = s.stackList
  · subst h
    by_cases hi : i = k
    · subst hi
      simp [write]
    · simp [write, hi]
  · simp [write, h]

theorem markStacks_write {j : ℕ} (h : j ≠ s.stackList) :
    (s.write k e stack).markStacks j = s.markStacks j := by
  simp [write, h]

end Write

/-- Writing a run that is not empty above the sentinel keeps the shape. -/
theorem Shape.write (h : s.Shape) {k : ℕ} {e : MarkStackElement} {stack : ℕ} (hk : 1 ≤ k)
    (hle : stack ≤ s.stackLast) (he : ∀ i, 1 ≤ i → i ≤ stack → i = k ∧ 1 ≤ e.num ∨
      i ≠ k ∧ 1 ≤ ((s.markStacks s.stackList).elements i).num) : (s.write k e stack).Shape := by
  refine ⟨h.current, h.linked, h.last.trans (s.last_write k e stack s.stackList).symm, hle,
    fun j hj ↦ (h.room j hj).trans_eq (s.last_write k e stack j).symm,
    h.first.trans_eq (s.last_write k e stack 0).symm, fun j hj ↦ ?_, fun j hj ↦ ?_, ?_⟩
  · exact (s.top_write k e stack j).trans ((h.full j hj).trans (s.last_write k e stack j).symm)
  · have hzero : ¬ (j = s.stackList ∧ 0 = k) := by omega
    rw [elements_write, if_neg hzero]
    exact h.sentinel j hj
  · intro j hj i hi htop
    rw [elements_write]
    by_cases hcurrent : j = s.stackList
    · subst hcurrent
      rcases he i hi (htop.trans_eq (Shape.topOf_current _)) with ⟨hi', he'⟩ | ⟨hi', hold⟩
      · rw [if_pos ⟨rfl, hi'⟩]
        exact he'
      · rw [if_neg fun hand ↦ hi' hand.2]
        exact hold
    · rw [if_neg fun hand ↦ hcurrent hand.1]
      refine h.used j hj i hi ?_
      rw [topOf, if_neg hcurrent, ← s.top_write k e stack j]
      exact htop.trans_eq (if_neg hcurrent)

theorem blocks_write {k i : ℕ} {e : MarkStackElement} {stack : ℕ} (hi : i < k) :
    ((s.write k e stack).markStacks s.stackList).blocks i ++
        blocksBelow (s.write k e stack).markStacks s.stackList =
      (s.markStacks s.stackList).blocks i ++ blocksBelow s.markStacks s.stackList := by
  have hbelow : blocksBelow (s.write k e stack).markStacks s.stackList =
      blocksBelow s.markStacks s.stackList :=
    blocksBelow_congr fun j hj ↦ markStacks_write s k e stack (by omega)
  have hunder : ((s.write k e stack).markStacks s.stackList).blocks i =
      (s.markStacks s.stackList).blocks i :=
    MarkStack.blocks_congr fun j hj ↦ by rw [elements_write, if_neg (by omega)]
  rw [hbelow, hunder]

theorem Shape.takeTop (h : s.Shape) (hstack : 1 ≤ s.stack) : s.takeTop.Shape := by
  have hold (i : ℕ) (hi : 1 ≤ i) (hle : i ≤ s.stack) :
      1 ≤ ((s.markStacks s.stackList).elements i).num :=
    h.used s.stackList (Nat.le_refl _) i hi (by rwa [Shape.topOf_current])
  have hbound := h.bound
  rw [takeTop_eq]
  by_cases hnum : s.element.num - 1 = 0
  · rw [if_pos hnum]
    exact h.write hstack (by omega) fun i hi hle ↦ .inr ⟨by omega, hold i hi (by omega)⟩
  · rw [if_neg hnum]
    refine h.write hstack hbound fun i hi hle ↦ ?_
    by_cases hi' : i = s.stack
    · exact .inl ⟨hi', by show 1 ≤ s.element.num - 1; omega⟩
    · exact .inr ⟨hi', hold i hi hle⟩

theorem stacked_takeTop (h : s.Shape) (hstack : 1 ≤ s.stack) :
    s.stacked = s.element.ptr :: s.takeTop.stacked := by
  have hpos := h.element_num hstack
  obtain ⟨i, hi⟩ : ∃ i, s.stack = i + 1 := ⟨s.stack - 1, by omega⟩
  obtain ⟨n, hn⟩ : ∃ n, s.element.num = n + 1 := ⟨s.element.num - 1, by omega⟩
  set e : MarkStackElement := ⟨s.element.ptr + 1, s.element.num - 1⟩ with he
  have hstacked : s.stacked = s.element.ptr :: (List.range' e.ptr e.num ++
      ((s.markStacks s.stackList).blocks i ++ blocksBelow s.markStacks s.stackList)) := by
    have hrange : List.range' s.element.ptr s.element.num =
        s.element.ptr :: List.range' e.ptr e.num := by
      simp [he, hn, List.range'_succ]
    have hblocks : (s.markStacks s.stackList).blocks s.stack =
        List.range' s.element.ptr s.element.num ++ (s.markStacks s.stackList).blocks i := by
      rw [element, hi]
      rfl
    rw [stacked, hblocks, hrange]
    simp
  rw [hstacked, takeTop_eq, ← he]
  by_cases hnum : s.element.num - 1 = 0
  · have hempty : List.range' e.ptr e.num = [] := by simp [he, hnum]
    have hpred : s.stack - 1 = i := by omega
    rw [if_pos hnum, hempty, List.nil_append, hpred]
    exact congrArg _ (blocks_write (by omega)).symm
  · rw [if_neg hnum, ← @blocks_write s s.stack i e s.stack (by omega)]
    have htop : ((s.write s.stack e s.stack).markStacks s.stackList).elements s.stack = e := by
      rw [elements_write, if_pos ⟨rfl, rfl⟩]
    have hblocks : ((s.write s.stack e s.stack).markStacks s.stackList).blocks s.stack =
        List.range' e.ptr e.num ++
          ((s.write s.stack e s.stack).markStacks s.stackList).blocks i := by
      rw [hi] at htop ⊢
      rw [MarkStack.blocks, htop]
    show _ = s.element.ptr :: (((s.write s.stack e s.stack).markStacks s.stackList).blocks s.stack ++
      blocksBelow (s.write s.stack e s.stack).markStacks s.stackList)
    rw [hblocks, List.append_assoc]

theorem Shape.pushRest (h : s.Shape) (hroom : s.stack < s.stackLast) (hnum : 1 < s.num) :
    s.pushRest.Shape := by
  rw [pushRest_eq]
  refine h.write (by omega) hroom fun i hi hle ↦ ?_
  by_cases hi' : i = s.stack + 1
  · exact .inl ⟨hi', by show 1 ≤ s.num - 1; omega⟩
  · exact .inr ⟨hi', h.used s.stackList (Nat.le_refl _) i hi (by rw [Shape.topOf_current]; omega)⟩

/-- Pushing the rest of a run leaves its first block to visit. -/
theorem pending_pushRest (hnum : 1 < s.num) : s.pending = s.lst :: s.pushRest.stacked := by
  obtain ⟨n, hn⟩ : ∃ n, s.num = n + 1 := ⟨s.num - 1, by omega⟩
  set e : MarkStackElement := ⟨s.lst + 1, s.num - 1⟩ with he
  have htop : ((s.write (s.stack + 1) e (s.stack + 1)).markStacks s.stackList).elements
      (s.stack + 1) = e := by
    rw [elements_write, if_pos ⟨rfl, rfl⟩]
  have hrange : List.range' s.lst s.num = s.lst :: List.range' e.ptr e.num := by
    simp [he, hn, List.range'_succ]
  rw [pending, hrange, stacked, ← @blocks_write s (s.stack + 1) s.stack e (s.stack + 1) (by omega)]
  show _ = s.lst ::
    (((s.write (s.stack + 1) e (s.stack + 1)).markStacks s.stackList).blocks (s.stack + 1) ++
      blocksBelow (s.write (s.stack + 1) e (s.stack + 1)).markStacks s.stackList)
  rw [MarkStack.blocks, htop]
  simp

section Save

theorem elements_saveState (s : Marker) (j : ℕ) :
    (s.saveState.markStacks j).elements = (s.markStacks j).elements := by
  by_cases h : j = s.markStack
  · subst h
    simp [saveState]
  · simp [saveState, h]

theorem Shape.last_saveState (h : s.Shape) (j : ℕ) :
    (s.saveState.markStacks j).last = (s.markStacks j).last := by
  by_cases hj : j = s.markStack
  · subst hj
    simp [saveState, h.last, h.current]
  · simp [saveState, hj]

theorem Shape.top_saveState (h : s.Shape) (j : ℕ) : (s.saveState.markStacks j).top = s.topOf j := by
  unfold topOf
  by_cases hj : j = s.stackList
  · subst hj
    simp [saveState, h.current]
  · simp [saveState, h.current, hj]

theorem blocks_eq_of_elements {stk stk' : MarkStack} (h : stk'.elements = stk.elements) (i : ℕ) :
    stk'.blocks i = stk.blocks i :=
  MarkStack.blocks_congr fun _ _ ↦ by rw [h]

theorem Shape.markStacks_saveState (h : s.Shape) {j : ℕ} (hj : j ≠ s.stackList) :
    s.saveState.markStacks j = s.markStacks j := by
  simp [saveState, h.current, hj]

end Save

theorem Shape.previous (h : s.Shape) (hstack : s.stack = 0) (hlist : s.stackList ≠ 0) :
    s.previous.Shape ∧ 1 ≤ s.previous.stack ∧ s.previous.stacked = s.stacked := by
  obtain ⟨j, hj⟩ := Nat.exists_eq_succ_of_ne_zero hlist
  have hpred : s.stackList - 1 = j := by omega
  have hfull : (s.markStacks j).top = (s.markStacks j).last := h.full j (by omega)
  have hroom : 1 ≤ (s.markStacks j).last := h.room j (by have := h.linked; omega)
  have hprevious : s.previous =
      { s.saveState with
        markStack := j
        stackLast := (s.markStacks j).last
        stack := (s.markStacks j).top
        stackList := j } := by
    rw [Marker.previous, hpred, loadState]
    simp only [h.markStacks_saveState (by omega : j ≠ s.stackList)]
  rw [hprevious]
  refine ⟨⟨rfl, ?_, (h.last_saveState j).symm, hfull.le, fun i hi ↦ ?_, ?_, fun i hi ↦ ?_,
    fun i hi ↦ ?_, fun i hi k hk htop ↦ ?_⟩, ?_, ?_⟩
  · show j < s.linked
    have := h.linked
    omega
  · exact (h.room i hi).trans_eq (h.last_saveState i).symm
  · exact h.first.trans_eq (h.last_saveState 0).symm
  · have hi' : i < j := hi
    have hne : i ≠ s.stackList := by omega
    show (s.saveState.markStacks i).top = (s.saveState.markStacks i).last
    rw [h.markStacks_saveState hne]
    exact h.full i (by omega)
  · have hi' : i ≤ j := hi
    show ((s.saveState.markStacks i).elements 0).num = 0
    rw [elements_saveState]
    exact h.sentinel i (by omega)
  · have hi' : i ≤ j := hi
    have hne : i ≠ s.stackList := by omega
    show 1 ≤ ((s.saveState.markStacks i).elements k).num
    rw [elements_saveState]
    refine h.used i (by omega) k hk ?_
    rw [topOf, if_neg hne]
    unfold topOf at htop
    split at htop
    · rename_i hij
      have hij' : i = j := hij
      rw [hij']
      exact htop
    · rw [← h.markStacks_saveState hne]
      exact htop
  · show 1 ≤ (s.markStacks j).top
    omega
  · show (s.saveState.markStacks j).blocks (s.markStacks j).top ++
      blocksBelow s.saveState.markStacks j = s.stacked
    rw [h.markStacks_saveState (by omega), blocksBelow_congr fun i hi ↦
      h.markStacks_saveState (by omega : i ≠ s.stackList), stacked, hstack, hj]
    rfl

theorem Shape.extend (h : s.Shape) (hfull : s.stack = s.stackLast)
    (hlast : ¬ s.stackList + 1 < s.linked) {cElement : ℕ} (hsize : 2 ≤ cElement) :
    (s.extend cElement).Shape ∧ (s.extend cElement).stack < (s.extend cElement).stackLast ∧
      (s.extend cElement).stacked = s.stacked := by
  have hlinked : s.linked = s.stackList + 1 := by
    have := h.linked
    omega
  set saved := update s.saveState.markStacks s.linked (MarkStack.create cElement) with hsaved
  have hnew : saved s.linked = MarkStack.create cElement := by simp [hsaved]
  have hold {j : ℕ} (hj : j ≤ s.stackList) : saved j = s.saveState.markStacks j := by
    have hne : j ≠ s.linked := by omega
    simp [hsaved, hne]
  have hextend : s.extend cElement =
      { s.saveState with
        markStacks := saved
        linked := s.linked + 1
        markStack := s.linked
        stackLast := cElement - 1
        stack := 0
        stackList := s.linked } := by
    unfold Marker.extend loadState
    simp only [← hsaved, show s.saveState.linked = s.linked from rfl, hnew]
    rfl
  rw [hextend]
  refine ⟨⟨rfl, by simp, ?_, by simp, fun j hj ↦ ?_, ?_, fun j hj ↦ ?_, fun j hj ↦ ?_,
    fun j hj i hi htop ↦ ?_⟩, by show 0 < cElement - 1; omega, ?_⟩
  · show cElement - 1 = (saved s.linked).last
    rw [hnew]
    rfl
  · have hj' : j < s.linked + 1 := hj
    show 1 ≤ (saved j).last
    by_cases hjl : j = s.linked
    · rw [hjl, hnew]
      show 1 ≤ cElement - 1
      omega
    · rw [hold (by omega), h.last_saveState]
      exact h.room j (by omega)
  · show 2 ≤ (saved 0).last
    rw [hold (Nat.zero_le _), h.last_saveState]
    exact h.first
  · have hj' : j < s.linked := hj
    show (saved j).top = (saved j).last
    rw [hold (by omega), h.last_saveState, h.top_saveState, topOf]
    by_cases hcurrent : j = s.stackList
    · rw [if_pos hcurrent, hfull, h.last, hcurrent]
    · rw [if_neg hcurrent]
      exact h.full j (by omega)
  · have hj' : j ≤ s.linked := hj
    show ((saved j).elements 0).num = 0
    by_cases hjl : j = s.linked
    · rw [hjl, hnew]
      rfl
    · rw [hold (by omega), elements_saveState]
      exact h.sentinel j (by omega)
  · have hj' : j ≤ s.linked := hj
    show 1 ≤ ((saved j).elements i).num
    unfold topOf at htop
    split at htop
    · have htop' : i ≤ 0 := htop
      omega
    · rename_i hjl
      have hjl' : j ≠ s.linked := hjl
      have htop' : i ≤ (saved j).top := htop
      rw [hold (by omega), h.top_saveState] at htop'
      rw [hold (by omega), elements_saveState]
      exact h.used j (by omega) i hi htop'
  · have hbelow : blocksBelow saved s.stackList = blocksBelow s.markStacks s.stackList :=
      blocksBelow_congr fun j hj ↦ by rw [hold (by omega), h.markStacks_saveState (by omega)]
    show (saved s.linked).blocks 0 ++ blocksBelow saved s.linked = s.stacked
    rw [hlinked, blocksBelow, hbelow, hold (Nat.le_refl _), h.top_saveState, Shape.topOf_current,
      blocks_eq_of_elements (elements_saveState s s.stackList)]
    rfl

end Stack

end Marker

end MicroFramework.Marking
