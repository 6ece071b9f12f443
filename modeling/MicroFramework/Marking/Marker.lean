import MicroFramework.Heap.Block
import MicroFramework.Library.GraphMarking

/-!
# The marker

`ComputeReachabilityGraphForMultipleBlocks` marks what is reachable with a stack of runs of blocks
that it keeps in a chain of buffers, the mark stacks.  It works on copies of the current mark
stack's fields and writes them back with SAVESTATE before it reads another's with LOADSTATE.  When
a buffer is full it moves to the next one in the chain, or allocates one; when that fails it drops
the run and leaves the rest to `MarkSlow`.

Only the block types of plain object graphs are modelled: a reference, an object with fields, an
array.  Null pointers in `lst` are 0.
-/

namespace MicroFramework.Marking

open Heap Library

/-- `m_data` of a heap block, as far as the marker reads it. -/
inductive BlockData
  | objectReference (ptr : Option ℕ)
  | array (numOfElements : ℕ) (fReference : Bool)
  | other
  deriving DecidableEq, Repr

structure HeapBlock where
  id : BlockId
  data : BlockData
  deriving DecidableEq, Repr

def HeapBlock.dereference (block : HeapBlock) : Option ℕ :=
  match block.data with
  | .objectReference ptr => ptr
  | _ => none

structure MarkStackElement where
  ptr : ℕ
  num : ℕ
  deriving DecidableEq, Repr

/-- `MarkStack`; the elements are addressed from the start of its buffer, and those from
`last + 1` on lie past its end. -/
structure MarkStack where
  elements : ℕ → MarkStackElement
  last : ℕ
  top : ℕ

/-- `MarkStack::Initialize`, for a buffer of `num` elements; only the sentinel is written. -/
def MarkStack.create (num : ℕ) : MarkStack where
  elements := fun _ ↦ ⟨0, 0⟩
  last := num - 1
  top := 0

def minimumSpaceForGC : ℕ := 128

/-- The sizes tried for a further mark stack: `c_minimumSpaceForGC`, halved down to 1. -/
def stackSizes : List ℕ := [128, 64, 32, 16, 8, 4, 2, 1]

/-- The collector and the marking loop's local variables. -/
structure Marker where
  memory : ℕ → HeapBlock
  /-- `m_markStackList`, by position in the list. -/
  markStacks : ℕ → MarkStack
  linked : ℕ
  markStack : ℕ
  outOfStackSpace : Bool
  /-- How many allocations have been attempted. -/
  attempts : ℕ
  stackList : ℕ
  stack : ℕ
  stackLast : ℕ
  lst : ℕ
  num : ℕ

namespace Marker

def loadState (s : Marker) : Marker :=
  { s with
    stackLast := (s.markStacks s.markStack).last
    stack := (s.markStacks s.markStack).top
    stackList := s.markStack }

def saveState (s : Marker) : Marker :=
  { s with
    markStacks := Function.update s.markStacks s.markStack
      { s.markStacks s.markStack with last := s.stackLast, top := s.stack }
    markStack := s.stackList }

def element (s : Marker) : MarkStackElement :=
  (s.markStacks s.stackList).elements s.stack

def setElement (s : Marker) (e : MarkStackElement) : Marker :=
  { s with
    markStacks := Function.update s.markStacks s.stackList
      { s.markStacks s.stackList with
        elements := Function.update (s.markStacks s.stackList).elements s.stack e } }

def markAlive (memory : ℕ → HeapBlock) (ptr : ℕ) : ℕ → HeapBlock :=
  Function.update memory ptr { memory ptr with id := (memory ptr).id.markAlive }

/-- The end of the loop body: mark the block at `ptr` and find what it leads to. -/
def visit (s : Marker) (ptr : ℕ) : Marker :=
  let s := { s with memory := markAlive s.memory ptr, lst := 0, num := 0 }
  let block := s.memory ptr
  match block.id.dataType with
  | .object | .byRef =>
    match block.dereference with
    | none => s
    | some sub => if (s.memory sub).id.isAlive = false then { s with lst := sub, num := 1 } else s
  | .classType | .valueType => { s with lst := ptr + 1, num := block.id.size - 1 }
  | .szArray =>
    match block.data with
    | .array numOfElements true => { s with lst := ptr + 1, num := numOfElements }
    | _ => s
  | _ => s

/-- Take the next block off the run on top of the stack. -/
def takeTop (s : Marker) : Marker :=
  let e := s.element
  let s := s.setElement ⟨e.ptr + 1, e.num - 1⟩
  if e.num - 1 = 0 then { s with stack := s.stack - 1 } else s

/-- Take the next block off the stack and visit it. -/
def pop (s : Marker) : Marker :=
  s.takeTop.visit s.element.ptr

def previous (s : Marker) : Marker :=
  loadState { s.saveState with markStack := s.stackList - 1 }

def pushRest (s : Marker) : Marker :=
  let s := { s with stack := s.stack + 1 }
  s.setElement ⟨s.lst + 1, s.num - 1⟩

/-- Push the rest of the run at `lst` and visit its first block. -/
def push (s : Marker) : Marker :=
  s.pushRest.visit s.lst

/-- Try the sizes until an allocation succeeds; `attempts` counts the calls. -/
def allocate (allocated : ℕ → Bool) : List ℕ → ℕ → Option ℕ × ℕ
  | [], attempts => (none, attempts)
  | cElement :: rest, attempts =>
    if allocated attempts then (some cElement, attempts + 1)
    else allocate allocated rest (attempts + 1)

/-- There is no room for the run at `lst`: leave it to `MarkSlow`. -/
def dropRun (s : Marker) : Marker :=
  { s with outOfStackSpace := true, lst := 0, num := 0 }

/-- Move to the mark stack after a full one, if one is linked. -/
def descend (s : Marker) : Marker :=
  let s := s.saveState
  let s := { s with stackList := s.stackList + 1 }
  s.loadState

/-- Link a new mark stack of `cElement` elements and move to it. -/
def extend (s : Marker) (cElement : ℕ) : Marker :=
  let s := s.saveState
  let s :=
    { s with
      markStacks := Function.update s.markStacks s.linked (MarkStack.create cElement)
      linked := s.linked + 1
      markStack := s.linked }
  s.loadState

/-- The loop body for a run of more than one block. -/
def pushRun (allocated : ℕ → Bool) (s : Marker) : Marker :=
  if s.stack = s.stackLast then
    if s.stackList + 1 < s.linked then s.descend.push
    else if s.outOfStackSpace then s.dropRun
    else
      match allocate allocated stackSizes s.attempts with
      | (some cElement, attempts) => ({ s with attempts := attempts }.extend cElement).push
      | (none, attempts) => { s with attempts := attempts }.dropRun
  else s.push

/-- One turn of the loop of `ComputeReachabilityGraphForMultipleBlocks`; `none` leaves it. -/
def iteration (allocated : ℕ → Bool) (s : Marker) : Option Marker :=
  if s.num = 0 then
    if s.element.num = 0 then
      if s.stackList = 0 then none else some s.previous.pop
    else some s.pop
  else if 1 < s.num then some (s.pushRun allocated)
  else some (s.visit s.lst)

/-- Enter the function with a run of blocks. -/
def enter (s : Marker) (lst num : ℕ) : Marker :=
  { s.loadState with lst := lst, num := num }

/-- The collector as `Mark` sets it up: one mark stack of `c_minimumSpaceForGC` elements. -/
def create (memory : ℕ → HeapBlock) : Marker where
  memory := memory
  markStacks := fun _ ↦ MarkStack.create minimumSpaceForGC
  linked := 1
  markStack := 0
  outOfStackSpace := false
  attempts := 0
  stackList := 0
  stack := 0
  stackLast := minimumSpaceForGC - 1
  lst := 0
  num := 0

/-- The top of the current mark stack is inside its buffer. -/
def InBounds (s : Marker) : Prop :=
  s.stack ≤ (s.markStacks s.stackList).last

/-- The next turn does not push onto a full mark stack by moving to one that is linked already, or
to a new one of a single element. -/
def Safe (allocated : ℕ → Bool) (s : Marker) : Prop :=
  1 < s.num → s.stack = s.stackLast →
    ¬ s.stackList + 1 < s.linked ∧
      (s.outOfStackSpace = false → (allocate allocated stackSizes s.attempts).1 ≠ some 1)

end Marker

def graph (memory : ℕ → HeapBlock) : Graph ℕ where
  link a :=
    match (memory a).id.dataType with
    | .object | .byRef => (memory a).dereference
    | _ => none
  fields a :=
    match (memory a).id.dataType with
    | .classType | .valueType => List.range' (a + 1) ((memory a).id.size - 1)
    | .szArray =>
      match (memory a).data with
      | .array numOfElements true => List.range' (a + 1) numOfElements
      | _ => []
    | _ => []

inductive RootCall
  | multipleBlocks (lst num : ℕ)
  | singleBlock (obj : Option ℕ)
  deriving DecidableEq, Repr

/-- A collection in progress: the calls for the roots still to make, whether the marker is inside
its loop, and, in `MarkSlow`, the clusters still to walk, the first from its current block. -/
structure Collection where
  marker : Marker
  inLoop : Bool
  roots : List RootCall
  walk : Option (List (ℕ × ℕ))

namespace Collection

/-- Call `ComputeReachabilityGraphForMultipleBlocks`. -/
def call (m : Collection) (lst num : ℕ) : Collection :=
  { m with marker := m.marker.enter lst num, inLoop := true }

/-- One step: a turn of the marking loop, the next root, or the next block of `MarkSlow`. -/
def step (allocated : ℕ → Bool) (clusters : List (ℕ × ℕ)) (m : Collection) : Option Collection :=
  if m.inLoop then
    match m.marker.iteration allocated with
    | some s => some { m with marker := s }
    | none => some { m with marker := m.marker.saveState, inLoop := false }
  else
    match m.walk with
    | some ((ptr, stop) :: rest) =>
      if ptr < stop then
        let block := m.marker.memory ptr
        let m := { m with walk := some ((ptr + block.id.size, stop) :: rest) }
        if block.id.isAlive && !block.id.isEvent then some (m.call ptr 1) else some m
      else some { m with walk := some rest }
    | some [] => some { m with walk := none }
    | none =>
      match m.roots with
      | .multipleBlocks lst num :: rest => some ({ m with roots := rest }.call lst num)
      | .singleBlock obj :: rest =>
        let m := { m with roots := rest }
        match obj with
        | none => some m
        | some ptr => if (m.marker.memory ptr).id.isAlive then some m else some (m.call ptr 1)
      | [] =>
        if m.marker.outOfStackSpace then
          some { m with
            marker := { m.marker with outOfStackSpace := false }
            walk := some clusters }
        else none

/-- The collection before its first step. -/
def create (memory : ℕ → HeapBlock) (roots : List RootCall) : Collection where
  marker := Marker.create memory
  inLoop := false
  roots := roots
  walk := none

/-- The collection after `n` steps, or where it stopped. -/
def after (allocated : ℕ → Bool) (clusters : List (ℕ × ℕ)) (m : Collection) : ℕ → Collection
  | 0 => m
  | n + 1 =>
    let before := after allocated clusters m n
    (before.step allocated clusters).getD before

end Collection

end MicroFramework.Marking
