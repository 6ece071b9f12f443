import Mathlib.Data.Int.Notation
import Mathlib.Data.Nat.Notation
import Mathlib.Data.Option.Basic

/-!
# The AVL tree of the runtime

`CLR_RT_AVLTree`: entries with a hand-kept skew flag, the four helpers that repair a node after one
of its subtrees has grown or shrunk, and insertion, removal and search over the callbacks of an
owner.  An operation that follows a `NULL` pointer has no result.
-/

namespace MicroFramework.AvlTree

inductive Skew
  | left
  | none
  | right
  deriving DecidableEq, Repr

inductive Result
  | ok
  | balance
  | notFound
  | duplicate
  | error
  deriving DecidableEq, Repr

/-- An `Entry*`: `NULL`, or an entry with its payload and its two subtrees. -/
inductive Entry (α : Type*)
  | null
  | node (left : Entry α) (datum : α) (skew : Skew) (right : Entry α)
  deriving DecidableEq, Repr

/-- The callbacks of `OwnerInfo` that a result depends on: the payload of a new node, if there is
one, and the payload that `to` has after the one of `from` is moved into it. -/
structure OwnerInfo (α : Type*) where
  compare : α → α → ℤ
  newNode : α → Option α
  reassignNode : α → α → α

variable {α : Type*}

open Entry

/-! ## Rotations -/

def rotateLeft : Entry α → Option (Entry α)
  | node left top skew (node middle bottom skew' right) =>
    some (node (node left top skew middle) bottom skew' right)
  | _ => none

def rotateRight : Entry α → Option (Entry α)
  | node (node left bottom skew' middle) top skew right =>
    some (node left bottom skew' (node middle top skew right))
  | _ => none

/-- The double rotation of `LeftGrown` and `RightShrunk`: the flags of the node and of its left
child follow the flag of the grandchild between them, which becomes the root. -/
def rotateLeftRight : Entry α → Option (Entry α)
  | node (node l left _ (node m right skew r)) n _ rest => do
    let skews : Skew × Skew :=
      match skew with
      | .left => (.right, .none)
      | .right => (.none, .left)
      | .none => (.none, .none)
    let left ← rotateLeft (node l left skews.2 (node m right .none r))
    rotateRight (node left n skews.1 rest)
  | _ => none

def rotateRightLeft : Entry α → Option (Entry α)
  | node rest n _ (node (node l left skew m) right _ r) => do
    let skews : Skew × Skew :=
      match skew with
      | .right => (.left, .none)
      | .left => (.none, .right)
      | .none => (.none, .none)
    let right ← rotateRight (node (node l left .none m) right skews.2 r)
    rotateLeft (node rest n skews.1 right)
  | _ => none

/-! ## Repairs -/

def leftGrown : Entry α → Option (Entry α × Result)
  | null => none
  | node left datum .left right =>
    match left with
    | null => none
    | node l d .left r => do
      let n ← rotateRight (node (node l d .none r) datum .none right)
      return (n, .ok)
    | node l d skew r => do
      let n ← rotateLeftRight (node (node l d skew r) datum .left right)
      return (n, .ok)
  | node left datum .right right => some (node left datum .none right, .ok)
  | node left datum .none right => some (node left datum .left right, .balance)

def rightGrown : Entry α → Option (Entry α × Result)
  | null => none
  | node left datum .left right => some (node left datum .none right, .ok)
  | node left datum .right right =>
    match right with
    | null => none
    | node l d .right r => do
      let n ← rotateLeft (node left datum .none (node l d .none r))
      return (n, .ok)
    | node l d skew r => do
      let n ← rotateRightLeft (node left datum .right (node l d skew r))
      return (n, .ok)
  | node left datum .none right => some (node left datum .right right, .balance)

def leftShrunk : Entry α → Option (Entry α × Result)
  | null => none
  | node left datum .left right => some (node left datum .none right, .balance)
  | node left datum .right right =>
    match right with
    | null => none
    | node l d .right r => do
      let n ← rotateLeft (node left datum .none (node l d .none r))
      return (n, .balance)
    | node l d .none r => do
      let n ← rotateLeft (node left datum .right (node l d .left r))
      return (n, .ok)
    | node l d .left r => do
      let n ← rotateRightLeft (node left datum .right (node l d .left r))
      return (n, .balance)
  | node left datum .none right => some (node left datum .right right, .ok)

def rightShrunk : Entry α → Option (Entry α × Result)
  | null => none
  | node left datum .right right => some (node left datum .none right, .balance)
  | node left datum .left right =>
    match left with
    | null => none
    | node l d .left r => do
      let n ← rotateRight (node (node l d .none r) datum .none right)
      return (n, .balance)
    | node l d .none r => do
      let n ← rotateRight (node (node l d .right r) datum .left right)
      return (n, .ok)
    | node l d .right r => do
      let n ← rotateLeftRight (node (node l d .right r) datum .left right)
      return (n, .balance)
  | node left datum .none right => some (node left datum .left right, .ok)

/-- What a caller does with a node whose subtree was changed: only `RES_BALANCE` asks for the
repair. -/
def repair (helper : Entry α → Option (Entry α × Result)) (n : Entry α) (res : Result) :
    Option (Entry α × Result) :=
  if res = .balance then helper n else some (n, res)

/-! ## The operations -/

section Operations

variable (owner : OwnerInfo α)

/-- `FindHighest`: whether an entry was found, the subtree without it, the payload of `target` and
the result. -/
def findHighest : Entry α → α → Option (Bool × Entry α × α × Result)
  | null, target => some (false, null, target, .balance)
  | node left datum skew right, target =>
    match right with
    | null => some (true, left, owner.reassignNode datum target, .balance)
    | node l d s r => do
      let (found, right', target', res) ← findHighest (node l d s r) target
      if found then
        let (n, res) ← repair rightShrunk (node left datum skew right') res
        return (true, n, target', res)
      else
        return (false, node left datum skew right', target', res)

def findLowest : Entry α → α → Option (Bool × Entry α × α × Result)
  | null, target => some (false, null, target, .balance)
  | node left datum skew right, target =>
    match left with
    | null => some (true, right, owner.reassignNode datum target, .balance)
    | node l d s r => do
      let (found, left', target', res) ← findLowest (node l d s r) target
      if found then
        let (n, res) ← repair leftShrunk (node left' datum skew right) res
        return (true, n, target', res)
      else
        return (false, node left' datum skew right, target', res)

def insert (newDatum : α) : Entry α → Option (Entry α × Result)
  | null =>
    match owner.newNode newDatum with
    | none => some (null, .error)
    | some datum => some (node null datum .none null, .balance)
  | node left datum skew right =>
    let cmp := owner.compare datum newDatum
    if cmp > 0 then do
      let (left', res) ← insert newDatum left
      repair leftGrown (node left' datum skew right) res
    else if cmp < 0 then do
      let (right', res) ← insert newDatum right
      repair rightGrown (node left datum skew right') res
    else
      some (node left datum skew right, .duplicate)

/-- The end of `Remove` on the entry that is removed, without a left subtree or after
`FindHighest` has found none in it. -/
def removeRight (left : Entry α) (datum : α) (skew : Skew) (right : Entry α) :
    Option (Entry α × Result) :=
  match right with
  | null => some (null, .balance)
  | node l d s r => do
    let (found, right', datum', res) ← findLowest owner (node l d s r) datum
    if found then repair rightShrunk (node left datum' skew right') res
    else some (null, .balance)

def removeNode (left : Entry α) (datum : α) (skew : Skew) (right : Entry α) :
    Option (Entry α × Result) :=
  match left with
  | null => removeRight owner null datum skew right
  | node l d s r => do
    let (found, left', datum', res) ← findHighest owner (node l d s r) datum
    if found then repair leftShrunk (node left' datum' skew right) res
    else removeRight owner left' datum' skew right

def remove (oldDatum : α) : Entry α → Option (Entry α × Result)
  | null => some (null, .notFound)
  | node left datum skew right =>
    let cmp := owner.compare datum oldDatum
    if cmp > 0 then do
      let (left', res) ← remove oldDatum left
      repair leftShrunk (node left' datum skew right) res
    else if cmp < 0 then do
      let (right', res) ← remove oldDatum right
      repair rightShrunk (node left datum skew right') res
    else
      removeNode owner left datum skew right

def find (srcDatum : α) : Entry α → Entry α
  | null => null
  | node left datum skew right =>
    let cmp := owner.compare datum srcDatum
    if cmp = 0 then node left datum skew right
    else if cmp > 0 then find srcDatum left
    else find srcDatum right

inductive Call (α : Type*)
  | insert (newDatum : α)
  | remove (oldDatum : α)

def step (root : Entry α) : Call α → Option (Entry α)
  | .insert newDatum => (insert owner newDatum root).map Prod.fst
  | .remove oldDatum => (remove owner oldDatum root).map Prod.fst

end Operations

end MicroFramework.AvlTree
