import MicroFramework.Arrays.Range

/-!
# The hash table

`System.Collections.Hashtable`: buckets of chained entries, which are doubled when the load reaches its
limit.  The entries are objects on a heap, given by their numbers, so that tables can share them: a
clone copies the buckets, not the entries.
-/

namespace MicroFramework.Collections

open Arrays

/-- What the methods of a key do: `Equals` is an equivalence, and `GetHashCode` agrees on equal keys. -/
structure Keys (K : Type*) where
  equals : K → K → Bool
  getHashCode : K → ℤ
  refl : ∀ a, equals a a = true
  symm : ∀ {a b}, equals a b = true → equals b a = true
  trans : ∀ {a b c}, equals a b = true → equals b c = true → equals a c = true
  consistent : ∀ {a b}, equals a b = true → getHashCode a = getHashCode b
  range : ∀ a, -2 ^ 31 ≤ getHashCode a ∧ getHashCode a < 2 ^ 31

/-- The numbers of type `double`: the initial growth factor,
and `(int)(numberOfBuckets * growthFactor)`. -/
structure Doubles (G : Type*) where
  two : G
  scaled : ℤ → G → ℤ

/-- What the methods throw. -/
inductive HashtableException where
  | argumentNull
  | keyExists
  | divideByZero
  | indexOutOfRange
  | outOfRange
  | argument
deriving DecidableEq

/-- The references in `_buckets`, with `none` for a null reference. -/
abbrev Buckets := List (Option ℕ)

structure Hashtable (G : Type*) where
  buckets : Buckets
  numberOfBuckets : ℤ
  count : ℤ
  loadFactor : ℤ
  maxLoadFactor : ℤ
  growthFactor : G
deriving DecidableEq

namespace Hashtable

structure Entry (K V : Type*) where
  key : K
  value : Option V
  next : Option ℕ
deriving DecidableEq

/-- The objects of type `Entry`, each at its number. -/
abbrev Heap (K V : Type*) := List (Entry K V)

variable {K V G : Type*}

/-! ## Chains -/

/-- The entries that `for (cur = head; cur != null; cur = cur.next)` visits, with their numbers. -/
def chain (heap : Heap K V) : ℕ → Option ℕ → List (ℕ × Entry K V)
  | turns + 1, some cur =>
    match heap[cur]? with
    | none => []
    | some entry => (cur, entry) :: chain heap turns entry.next
  | _, _ => []

/-- The chain of a bucket, which has no more entries than the heap. -/
def cellsFrom (heap : Heap K V) (head : Option ℕ) : List (ℕ × Entry K V) :=
  chain heap heap.length head

def cells (heap : Heap K V) (buckets : Buckets) : List (ℕ × Entry K V) :=
  buckets.flatMap (cellsFrom heap)

def Entry.pair (entry : Entry K V) : K × Option V := (entry.key, entry.value)

def contents (heap : Heap K V) (buckets : Buckets) : List (K × Option V) :=
  (cells heap buckets).map fun cell ↦ cell.2.pair

/-- An element of an array. -/
def bucketAt (buckets : Buckets) (index : ℤ) : Option (Option ℕ) :=
  if 0 ≤ index then buckets[index.toNat]? else none

/-! ## The methods -/

variable (keys : Keys K) (doubles : Doubles G)

def hash (key : K) (numOfBuckets : ℤ) : ℤ :=
  let hashcode := keys.getHashCode key
  let hashcode := if hashcode < 0 then int32 (hashcode * -1) else hashcode
  hashcode.tmod numOfBuckets

def whichBucket (buckets : Buckets) (key : K) (numOfBuckets : ℤ) :
    Except HashtableException (ℕ × Option ℕ) :=
  if numOfBuckets = 0 then .error .divideByZero
  else
    match bucketAt buckets (hash keys key numOfBuckets) with
    | none => .error .indexOutOfRange
    | some head => .ok ((hash keys key numOfBuckets).toNat, head)

def entryForKey (heap : Heap K V) (key : K) (head : Option ℕ) : Option (ℕ × Entry K V) :=
  (cellsFrom heap head).find? fun cell ↦ keys.equals cell.2.key key

/-- `_count++`, and the load that follows from it. -/
def counted (table : Hashtable G) : Hashtable G :=
  { table with
    count := int32 (table.count + 1)
    loadFactor := (int32 (table.count + 1)).tdiv table.numberOfBuckets }

/-- `Add(ref Entry[], object, object, bool)`: the heap, the table and the buckets. -/
def addTo (heap : Heap K V) (table : Hashtable G) (buckets : Buckets) (key : K) (value : Option V)
    (overwrite : Bool) : Except HashtableException (Heap K V × Hashtable G × Buckets) :=
  match whichBucket keys buckets key table.numberOfBuckets with
  | .error e => .error e
  | .ok (index, head) =>
    match entryForKey keys heap key head with
    | some (cur, entry) =>
      if overwrite then
        .ok (heap.set cur { entry with value := value }, table.counted, buckets)
      else .error .keyExists
    | none =>
      .ok (heap ++ [⟨key, value, head⟩], table.counted, buckets.set index (some heap.length))

def rehashLoop : Heap K V → Hashtable G → Buckets → List (ℕ × Entry K V) →
    Heap K V × Hashtable G × Except HashtableException Buckets
  | heap, table, newTable, [] => (heap, table, .ok newTable)
  | heap, table, newTable, (_, cur) :: rest =>
    match addTo keys heap table newTable cur.key cur.value false with
    | .error e => (heap, table, .error e)
    | .ok (heap, table, newTable) => rehashLoop heap table newTable rest

def rehash (heap : Heap K V) (table : Hashtable G) (newSize : ℤ) :
    Heap K V × Hashtable G × Option HashtableException :=
  if newSize < 0 then (heap, table, some .outOfRange)
  else
    match rehashLoop keys heap { table with numberOfBuckets := newSize, count := 0 }
      (List.replicate newSize.toNat none) (cells heap table.buckets) with
    | (heap, table, .error e) => (heap, table, some e)
    | (heap, table, .ok newTable) => (heap, { table with buckets := newTable }, none)

/-- `Add(object, object)` and the setter of the indexer, which overwrites. -/
def store (heap : Heap K V) (table : Hashtable G) (key : K) (value : Option V) (overwrite : Bool) :
    Heap K V × Hashtable G × Option HashtableException :=
  match addTo keys heap table table.buckets key value overwrite with
  | .error e => (heap, table, some e)
  | .ok (heap, table, buckets) =>
    let table := { table with buckets := buckets }
    if table.maxLoadFactor ≤ table.loadFactor then
      rehash keys heap table (doubles.scaled table.numberOfBuckets table.growthFactor)
    else (heap, table, none)

/-- The entry of a key, in the bucket with its index. -/
def find (heap : Heap K V) (table : Hashtable G) (key : K) :
    Except HashtableException (ℕ × Option ℕ × Option (ℕ × Entry K V)) :=
  (whichBucket keys table.buckets key table.numberOfBuckets).map fun (index, head) ↦
    (index, head, entryForKey keys heap key head)

def remove (heap : Heap K V) (table : Hashtable G) (key : K) :
    Except HashtableException (Heap K V × Hashtable G) :=
  match find keys heap table key with
  | .error e => .error e
  | .ok (_, _, none) => .ok (heap, table)
  | .ok (index, head, some (cur, entry)) =>
    if head = some cur then
      .ok (heap, { table with
        buckets := table.buckets.set index entry.next
        count := int32 (table.count - 1) })
    else
      match (cellsFrom heap head).find? fun cell ↦ cell.2.next = some cur with
      | none => .ok (heap, table)
      | some (before, previous) =>
        .ok (heap.set before { previous with next := entry.next },
          { table with count := int32 (table.count - 1) })

/-- `Hashtable(int, int)` -/
def new (capacity maxLoadFactor : ℤ) : Except HashtableException (Hashtable G) :=
  if capacity < 0 then .error .outOfRange
  else .ok ⟨List.replicate capacity.toNat none, capacity, 0, 0, maxLoadFactor, doubles.two⟩

def clone (table : Hashtable G) : Except HashtableException (Hashtable G) :=
  match new doubles table.numberOfBuckets table.maxLoadFactor with
  | .error e => .error e
  | .ok ht =>
    if (table.buckets.length : ℤ) < table.numberOfBuckets then .error .argument
    else .ok { ht with
      count := table.count
      loadFactor := table.loadFactor
      buckets := table.buckets.take table.numberOfBuckets.toNat }

def clear (table : Hashtable G) : Hashtable G :=
  { table with
    buckets := List.replicate 4 none
    numberOfBuckets := 4
    loadFactor := 0
    count := 0 }

/-! ## The enumerator -/

structure Enumerator where
  index : ℤ
  temp : Option ℕ

def moveNext (heap : Heap K V) (table : Hashtable G) :
    ℕ → Enumerator → Except HashtableException (Bool × Enumerator)
  | 0, e => .ok (false, e)
  | turns + 1, e =>
    match e.temp with
    | none =>
      let index := e.index + 1
      if index < table.numberOfBuckets then
        match bucketAt table.buckets index with
        | none => .error .indexOutOfRange
        | some none => moveNext heap table turns ⟨index, none⟩
        | some (some head) => .ok (true, ⟨index, some head⟩)
      else .ok (false, ⟨index, none⟩)
    | some cur =>
      match heap[cur]?.bind Entry.next with
      | none => moveNext heap table turns ⟨e.index, none⟩
      | some next => .ok (true, ⟨e.index, some next⟩)

/-- `MoveNext` and `Current`, until there is nothing left. -/
def enumerateFrom (heap : Heap K V) (table : Hashtable G) :
    ℕ → Enumerator → Except HashtableException (List (K × Option V))
  | 0, _ => .ok []
  | turns + 1, e =>
    match moveNext heap table (table.buckets.length + 2) e with
    | .error exception => .error exception
    | .ok (false, _) => .ok []
    | .ok (true, e) =>
      match e.temp.bind fun temp ↦ heap[temp]? with
      | none => .ok []
      | some entry => (enumerateFrom heap table turns e).map (entry.pair :: ·)

def enumerate (heap : Heap K V) (table : Hashtable G) :
    Except HashtableException (List (K × Option V)) :=
  enumerateFrom heap table (table.buckets.length * heap.length + 1) ⟨-1, none⟩

/-! ## The operations -/

/-- The operations on one table, with `none` for a null key. -/
inductive Op (K V G : Type*) where
  | add (key : Option K) (value : Option V)
  | set (key : Option K) (value : Option V)
  | get (key : Option K)
  | contains (key : Option K)
  | remove (key : Option K)
  | clear
  | count
  | enumerate
  | setMaxLoadFactor (value : ℤ)
  | setGrowthFactor (value : G)

/-- What an operation returns. -/
inductive Answer (K V : Type*) where
  | done
  | table (number : ℕ)
  | value (value : Option V)
  | contains (present : Bool)
  | count (count : ℤ)
  | entries (entries : List (K × Option V))
  | threw (e : HashtableException)
deriving DecidableEq

/-- The end of a method without a value. -/
def Answer.ofException : Option HashtableException → Answer K V
  | none => .done
  | some e => .threw e

def perform (heap : Heap K V) (table : Hashtable G) :
    Op K V G → Heap K V × Hashtable G × Answer K V
  | .add none _ | .set none _ | .get none | .contains none | .remove none =>
    (heap, table, .threw .argumentNull)
  | .add (some key) value =>
    let (heap, table, e) := store keys doubles heap table key value false
    (heap, table, .ofException e)
  | .set (some key) value =>
    let (heap, table, e) := store keys doubles heap table key value true
    (heap, table, .ofException e)
  | .get (some key) =>
    match find keys heap table key with
    | .error e => (heap, table, .threw e)
    | .ok (_, _, found) => (heap, table, .value (found.bind fun cell ↦ cell.2.value))
  | .contains (some key) =>
    match find keys heap table key with
    | .error e => (heap, table, .threw e)
    | .ok (_, _, found) => (heap, table, .contains found.isSome)
  | .remove (some key) =>
    match remove keys heap table key with
    | .error e => (heap, table, .threw e)
    | .ok (heap, table) => (heap, table, .done)
  | .clear => (heap, table.clear, .done)
  | .count => (heap, table, .count table.count)
  | .enumerate =>
    match enumerate heap table with
    | .error e => (heap, table, .threw e)
    | .ok entries => (heap, table, .entries entries)
  | .setMaxLoadFactor value => (heap, { table with maxLoadFactor := value }, .done)
  | .setGrowthFactor value => (heap, { table with growthFactor := value }, .done)

end Hashtable

/-! ## Several tables -/

variable {K V G : Type*}

/-- The tables that there are, each at its number, and their entries. -/
structure Tables (K V G : Type*) where
  heap : Hashtable.Heap K V
  tables : List (Hashtable G)

namespace Tables

open Hashtable

variable (keys : Keys K) (doubles : Doubles G)

/-- The operations; a new table gets the next number. -/
inductive Op (K V G : Type*) where
  | new (capacity maxLoadFactor : ℤ)
  | clone (number : ℕ)
  | on (number : ℕ) (op : Hashtable.Op K V G)

def empty : Tables K V G := ⟨[], []⟩

def push (w : Tables K V G) (made : Except HashtableException (Hashtable G)) :
    Tables K V G × Answer K V :=
  match made with
  | .error e => (w, .threw e)
  | .ok table => (⟨w.heap, w.tables ++ [table]⟩, .table w.tables.length)

def step (w : Tables K V G) : Op K V G → Option (Tables K V G × Answer K V)
  | .new capacity maxLoadFactor => some (w.push (Hashtable.new doubles capacity maxLoadFactor))
  | .clone number => w.tables[number]?.map fun table ↦ w.push (table.clone doubles)
  | .on number op => w.tables[number]?.map fun table ↦
    let (heap, table, answer) := perform keys doubles w.heap table op
    (⟨heap, w.tables.set number table⟩, answer)

end Tables

end MicroFramework.Collections
