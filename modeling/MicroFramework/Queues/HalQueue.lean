import Mathlib.Data.List.Range
import Mathlib.Algebra.Order.Group.Nat

/-!
# The ring queues of the HAL

`Hal_Queue_UnknownSize` and `Hal_Queue_KnownSize`: a writer, a reader and a flag that tells a full
queue from an empty one.  The operations hand out pointers into the buffer, which are the numbers of
their slots here; the client stores and loads through them.  Positions and their sums are below
twice the length of an array, which a `size_t` holds.
-/

namespace MicroFramework.Queues

/-- `Hal_Queue_UnknownSize`, and `Hal_Queue_KnownSize` with `size` its parameter. -/
@[ext]
structure HalQueue (T : Type*) where
  writer : ℕ
  reader : ℕ
  size : ℕ
  full : Bool
  data : ℕ → T

namespace HalQueue

variable {T : Type*} (q : HalQueue T)

def initializeQueue (data : ℕ → T) (size : ℕ) : HalQueue T := ⟨0, 0, size, false, data⟩

def numberOfElements : ℕ :=
  if q.writer < q.reader then q.size + q.writer - q.reader
  else if q.full then q.size
  else q.writer - q.reader

def isEmpty : Bool := decide (q.writer = q.reader) && !q.full

def isFull : Bool := q.full

/-- `operator[]` -/
def getElement (index : ℤ) : Option ℕ :=
  if index < 0 ∨ index > q.numberOfElements then none
  else some ((q.reader + index.toNat) % q.size)

/-- The position `i`, moved to the start of the buffer when it is at its end. -/
def wrap (i : ℕ) : ℕ := if i = q.size then 0 else i

def push : Option ℕ × HalQueue T :=
  if q.full then (none, q)
  else
    let writer := q.wrap (q.writer + 1)
    (some q.writer, { q with writer := writer, full := q.full || decide (writer = q.reader) })

def peek : Option ℕ :=
  if q.writer = q.reader ∧ q.full = false then none else some q.reader

def pop : Option ℕ × HalQueue T :=
  if q.reader = q.writer ∧ q.full = false then (none, q)
  else (some q.reader, { q with reader := q.wrap (q.reader + 1), full := false })

def pushMany (nElements : ℕ) : Option ℕ × ℕ × HalQueue T :=
  if q.full = true ∨ nElements = 0 then (none, 0, q)
  else
    let max := if q.writer < q.reader then q.reader - q.writer else q.size - q.writer
    let nElements := if max < nElements then max else nElements
    let writer := q.wrap (q.writer + nElements)
    (some q.writer, nElements,
      { q with writer := writer, full := q.full || decide (writer = q.reader) })

def popMany (nElements : ℕ) : Option ℕ × ℕ × HalQueue T :=
  if nElements = 0 then (none, nElements, q)
  else if q.reader = q.writer ∧ q.full = false then
    -- reset the reader/writer to maximize push potential
    (none, 0, { q with reader := 0, writer := 0 })
  else
    let max := if q.writer ≤ q.reader then q.size - q.reader else q.writer - q.reader
    let nElements := if max < nElements then max else nElements
    (some q.reader, nElements, { q with reader := q.wrap (q.reader + nElements), full := false })

/-! ## The queue of known size -/

def pushKnown : Option ℕ × HalQueue T :=
  let oldWriter := q.writer
  let nextWriter := if oldWriter + 1 = q.size then 0 else oldWriter + 1
  if q.full then (none, q)
  else
    let q := if nextWriter = q.reader then { q with full := true } else q
    (some oldWriter, { q with writer := nextWriter })

def popKnown : Option ℕ × HalQueue T :=
  let oldReader := q.reader
  if oldReader = q.writer ∧ q.full = false then (none, q)
  else
    let nextReader := if oldReader + 1 = q.size then 0 else oldReader + 1
    (some oldReader, { q with reader := nextReader, full := false })

theorem pushKnown_eq : q.pushKnown = q.push := by
  unfold pushKnown push wrap
  cases hfull : q.full with
  | true => rfl
  | false =>
    dsimp only
    by_cases hmeet : (if q.writer + 1 = q.size then 0 else q.writer + 1) = q.reader
    · simp [hmeet]
    · simp [hmeet, hfull]

theorem popKnown_eq : q.popKnown = q.pop := rfl

/-! ## The client -/

/-- The client's stores through a pointer to consecutive slots. -/
def store (slot : ℕ) (xs : List T) : HalQueue T :=
  { q with data := fun a ↦ if slot ≤ a then (xs[a - slot]?).getD (q.data a) else q.data a }

/-- The client's loads through such a pointer. -/
def load (slot count : ℕ) : List T := (List.range count).map fun i ↦ q.data (slot + i)

end HalQueue

/-- An operation of a client, with the elements that it stores. -/
inductive Operation (T : Type*)
  | push (x : T)
  | pop
  | peek
  | pushMany (xs : List T)
  | popMany (nElements : ℕ)
  | getElement (index : ℤ)

/-- A queue, with the elements stored and loaded through the pointers it handed out. -/
structure Session (T : Type*) where
  queue : HalQueue T
  pushed : List T
  popped : List T

namespace Session

variable {T : Type*}

/-- The client calls the operation and uses the pointer. -/
def perform (s : Session T) : Operation T → Session T
  | .push x =>
    match s.queue.push with
    | (none, queue) => { s with queue := queue }
    | (some slot, queue) => { s with queue := queue.store slot [x], pushed := s.pushed ++ [x] }
  | .pop =>
    match s.queue.pop with
    | (none, queue) => { s with queue := queue }
    | (some slot, queue) => { s with queue := queue, popped := s.popped ++ s.queue.load slot 1 }
  | .peek => s
  | .pushMany xs =>
    match s.queue.pushMany xs.length with
    | (none, _, queue) => { s with queue := queue }
    | (some slot, nElements, queue) =>
      { s with
        queue := queue.store slot (xs.take nElements)
        pushed := s.pushed ++ xs.take nElements }
  | .popMany nElements =>
    match s.queue.popMany nElements with
    | (none, _, queue) => { s with queue := queue }
    | (some slot, nElements, queue) =>
      { s with queue := queue, popped := s.popped ++ s.queue.load slot nElements }
  | .getElement _ => s

def start (data : ℕ → T) (size : ℕ) : Session T := ⟨.initializeQueue data size, [], []⟩

def run (s : Session T) (operations : List (Operation T)) : Session T :=
  operations.foldl perform s

end Session

end MicroFramework.Queues
