import Mathlib.Algebra.Order.Group.Int
import MicroFramework.AvlTree.Tree

/-!
# The repairs keep the tree balanced

Every flag of a balanced tree is the difference of the heights below it.  A helper that is called
after one subtree has grown or shrunk by one gives back a balanced tree of the same entries in the
same order, and its result tells whether the whole has grown or shrunk.  The right-hand helpers are
the left-hand ones seen in a mirror.
-/

namespace MicroFramework.AvlTree

variable {α : Type*}

def Skew.value : Skew → ℤ
  | .left => -1
  | .none => 0
  | .right => 1

def Skew.mirror : Skew → Skew
  | .left => .right
  | .none => .none
  | .right => .left

@[simp] theorem Skew.mirror_mirror (skew : Skew) : skew.mirror.mirror = skew := by
  cases skew <;> rfl

@[simp] theorem Skew.value_mirror (skew : Skew) : skew.mirror.value = -skew.value := by
  cases skew <;> rfl

namespace Entry

def height : Entry α → ℕ
  | null => 0
  | node left _ _ right => max left.height right.height + 1

/-- The payloads from left to right. -/
def toList : Entry α → List α
  | null => []
  | node left datum _ right => left.toList ++ datum :: right.toList

def skew : Entry α → Skew
  | null => .none
  | node _ _ skew _ => skew

/-- At every entry the flag is the height of the right subtree less that of the left one. -/
def Balanced : Entry α → Prop
  | null => True
  | node left _ skew right =>
    left.Balanced ∧ right.Balanced ∧ (right.height : ℤ) - left.height = skew.value

def mirror : Entry α → Entry α
  | null => null
  | node left datum skew right => node right.mirror datum skew.mirror left.mirror

section Lemmas

variable {t left right : Entry α} {datum : α} {skew : Skew}

@[simp] theorem height_null : (null : Entry α).height = 0 := rfl

@[simp] theorem height_node :
    (node left datum skew right).height = max left.height right.height + 1 := rfl

@[simp] theorem toList_null : (null : Entry α).toList = [] := rfl

@[simp] theorem toList_node :
    (node left datum skew right).toList = left.toList ++ datum :: right.toList := rfl

@[simp] theorem skew_null : (null : Entry α).skew = .none := rfl

@[simp] theorem skew_node : (node left datum skew right).skew = skew := rfl

@[simp] theorem balanced_null : (null : Entry α).Balanced := trivial

@[simp] theorem balanced_node :
    (node left datum skew right).Balanced ↔
      left.Balanced ∧ right.Balanced ∧ (right.height : ℤ) - left.height = skew.value := Iff.rfl

@[simp] theorem mirror_null : (null : Entry α).mirror = null := rfl

@[simp] theorem mirror_node :
    (node left datum skew right).mirror = node right.mirror datum skew.mirror left.mirror := rfl

@[simp] theorem mirror_mirror : t.mirror.mirror = t := by
  induction t with
  | null => rfl
  | node left datum skew right ihl ihr => simp [ihl, ihr]

@[simp] theorem height_mirror : t.mirror.height = t.height := by
  induction t with
  | null => rfl
  | node left datum skew right ihl ihr => simp [ihl, ihr, max_comm]

@[simp] theorem toList_mirror : t.mirror.toList = t.toList.reverse := by
  induction t with
  | null => rfl
  | node left datum skew right ihl ihr => simp [ihl, ihr]

@[simp] theorem skew_mirror : t.mirror.skew = t.skew.mirror := by cases t <;> rfl

theorem Balanced.mirror (h : t.Balanced) : t.mirror.Balanced := by
  induction t with
  | null => trivial
  | node left datum skew right ihl ihr =>
    obtain ⟨hleft, hright, hskew⟩ := h
    refine ⟨ihr hright, ihl hleft, ?_⟩
    rw [height_mirror, height_mirror, Skew.value_mirror, ← hskew]
    exact (neg_sub _ _).symm

end Lemmas

end Entry

open Entry

/-! ## What a repair gives back -/

/-- A tree that had height `h` before an insertion: the result tells whether it has grown, and one
that has grown is higher on one side, unless it was empty. -/
inductive Grew (h : ℕ) (t : Entry α) : Result → Prop
  | balance : t.height = h + 1 → (t.skew = .none → h = 0) → Grew h t .balance
  | ok : t.height = h → Grew h t .ok

/-- A tree that had height `h` before a removal: the result tells whether it has shrunk. -/
inductive Shrank (h : ℕ) (t : Entry α) : Result → Prop
  | balance : t.height + 1 = h → Shrank h t .balance
  | ok : t.height = h → Shrank h t .ok

/-- The computation ends with a balanced tree of these entries that `changed` describes. -/
structure Yields (changed : Entry α → Result → Prop) (entries : List α) (t : Entry α)
    (res : Result) : Prop where
  balanced : t.Balanced
  toList : t.toList = entries
  changed : changed t res

variable {h : ℕ} {n left right : Entry α} {datum : α} {skew : Skew} {res : Result}
  {entries : List α}

theorem Grew.mirror (ht : Grew h n res) : Grew h n.mirror res := by
  cases ht with
  | balance hh hs =>
    apply Grew.balance
    · rw [height_mirror, hh]
    · intro hskew
      apply hs
      rw [skew_mirror] at hskew
      cases hn : n.skew <;> simp [hn, Skew.mirror] at hskew ⊢
  | ok hh => exact .ok (by rw [height_mirror, hh])

theorem Shrank.mirror (ht : Shrank h n res) : Shrank h n.mirror res := by
  cases ht with
  | balance hh => exact .balance (by rw [height_mirror, hh])
  | ok hh => exact .ok (by rw [height_mirror, hh])

/-! ## The left side -/

theorem leftGrown_spec (hleft : left.Balanced) (hright : right.Balanced)
    (hskew : (right.height : ℤ) - h = skew.value) (hgrew : Grew h left .balance) :
    ∃ t res, leftGrown (node left datum skew right) = some (t, res) ∧
      Yields (Grew (max h right.height + 1)) (left.toList ++ datum :: right.toList) t res := by
  cases hgrew with
  | balance hheight hroot =>
  cases skew with
  | right =>
    simp only [Skew.value] at hskew
    refine ⟨_, _, rfl, ⟨hleft, hright, ?_⟩, rfl, .ok ?_⟩
    · simp only [Skew.value]
      omega
    · rw [height_node]
      omega
  | none =>
    simp only [Skew.value] at hskew
    refine ⟨_, _, rfl, ⟨hleft, hright, ?_⟩, rfl, .balance ?_ (by simp)⟩
    · simp only [Skew.value]
      omega
    · rw [height_node]
      omega
  | left =>
    simp only [Skew.value] at hskew
    cases left with
    | null => simp at hheight
    | node l d skew' r =>
      obtain ⟨hl, hr, hd⟩ := hleft
      rw [height_node] at hheight
      cases skew' with
      | left =>
        simp only [Skew.value] at hd
        refine ⟨_, _, rfl, ⟨hl, ⟨hr, hright, ?_⟩, ?_⟩, by simp, .ok ?_⟩
        · simp only [Skew.value]
          omega
        · simp only [Skew.value, height_node]
          omega
        · simp only [height_node]
          omega
      | none =>
        have hzero := hroot rfl
        omega
      | right =>
        simp only [Skew.value] at hd
        cases r with
        | null =>
          rw [height_null] at hd
          omega
        | node m e skew'' r =>
          obtain ⟨hm, hr, he⟩ := hr
          rw [height_node] at hd hheight
          cases skew'' <;>
          · simp only [Skew.value] at he
            refine ⟨_, _, rfl, ⟨⟨hl, hm, ?_⟩, ⟨hr, hright, ?_⟩, ?_⟩, by simp, .ok ?_⟩ <;>
            · simp only [Skew.value, height_node]
              omega

theorem leftShrunk_spec (hleft : left.Balanced) (hright : right.Balanced)
    (hskew : (right.height : ℤ) - (left.height + 1) = skew.value) :
    ∃ t res, leftShrunk (node left datum skew right) = some (t, res) ∧
      Yields (Shrank (max (left.height + 1) right.height + 1))
        (left.toList ++ datum :: right.toList) t res := by
  cases skew with
  | left =>
    simp only [Skew.value] at hskew
    refine ⟨_, _, rfl, ⟨hleft, hright, ?_⟩, rfl, .balance ?_⟩
    · simp only [Skew.value]
      omega
    · rw [height_node]
      omega
  | none =>
    simp only [Skew.value] at hskew
    refine ⟨_, _, rfl, ⟨hleft, hright, ?_⟩, rfl, .ok ?_⟩
    · simp only [Skew.value]
      omega
    · rw [height_node]
      omega
  | right =>
    simp only [Skew.value] at hskew
    cases right with
    | null =>
      rw [height_null] at hskew
      omega
    | node l d skew' r =>
      obtain ⟨hl, hr, hd⟩ := hright
      rw [height_node] at hskew
      cases skew' with
      | right =>
        simp only [Skew.value] at hd
        refine ⟨_, _, rfl, ⟨⟨hleft, hl, ?_⟩, hr, ?_⟩, by simp, .balance ?_⟩ <;>
        · simp only [Skew.value, height_node]
          omega
      | none =>
        simp only [Skew.value] at hd
        refine ⟨_, _, rfl, ⟨⟨hleft, hl, ?_⟩, hr, ?_⟩, by simp, .ok ?_⟩ <;>
        · simp only [Skew.value, height_node]
          omega
      | left =>
        simp only [Skew.value] at hd
        cases l with
        | null =>
          rw [height_null] at hd
          omega
        | node l e skew'' m =>
          obtain ⟨hl, hm, he⟩ := hl
          rw [height_node] at hd hskew
          cases skew'' <;>
          · simp only [Skew.value] at he
            refine ⟨_, _, rfl, ⟨⟨hleft, hl, ?_⟩, ⟨hm, hr, ?_⟩, ?_⟩, by simp, .balance ?_⟩ <;>
            · simp only [Skew.value, height_node]
              omega

/-! ## The right side -/

def mirrorResult (p : Entry α × Result) : Entry α × Result := (p.1.mirror, p.2)

theorem rightGrown_mirror (n : Entry α) : rightGrown n.mirror = (leftGrown n).map mirrorResult := by
  rcases n with _ | ⟨left, datum, _ | _ | _, right⟩
  · rfl
  · rcases left with _ | ⟨l, d, _ | _ | _, _ | ⟨m, e, _ | _ | _, r⟩⟩ <;> rfl
  · rfl
  · rfl

theorem rightShrunk_mirror (n : Entry α) :
    rightShrunk n.mirror = (leftShrunk n).map mirrorResult := by
  rcases n with _ | ⟨left, datum, _ | _ | _, right⟩
  · rfl
  · rfl
  · rfl
  · rcases right with _ | ⟨_ | ⟨l, e, _ | _ | _, m⟩, d, _ | _ | _, r⟩ <;> rfl

theorem Yields.mirror {changed : Entry α → Result → Prop}
    (hmirror : ∀ t res, changed t res → changed t.mirror res)
    (hn : Yields changed entries n res) : Yields changed entries.reverse n.mirror res where
  balanced := hn.balanced.mirror
  toList := by rw [toList_mirror, hn.toList]
  changed := hmirror n res hn.changed

theorem rightGrown_spec (hleft : left.Balanced) (hright : right.Balanced)
    (hskew : (h : ℤ) - left.height = skew.value) (hgrew : Grew h right .balance) :
    ∃ t res, rightGrown (node left datum skew right) = some (t, res) ∧
      Yields (Grew (max left.height h + 1)) (left.toList ++ datum :: right.toList) t res := by
  obtain ⟨t, res, ht, hyields⟩ := @leftGrown_spec _ h right.mirror left.mirror datum skew.mirror
    hright.mirror hleft.mirror (by rw [height_mirror, Skew.value_mirror, ← hskew, neg_sub])
    hgrew.mirror
  refine ⟨t.mirror, res, ?_, ?_⟩
  · have hrw := rightGrown_mirror (node right.mirror datum skew.mirror left.mirror)
    simpa [ht, mirrorResult] using hrw
  · simpa [max_comm] using hyields.mirror fun _ _ ↦ Grew.mirror

theorem rightShrunk_spec (hleft : left.Balanced) (hright : right.Balanced)
    (hskew : (right.height + 1 : ℤ) - left.height = skew.value) :
    ∃ t res, rightShrunk (node left datum skew right) = some (t, res) ∧
      Yields (Shrank (max left.height (right.height + 1) + 1))
        (left.toList ++ datum :: right.toList) t res := by
  obtain ⟨t, res, ht, hyields⟩ := @leftShrunk_spec _ right.mirror left.mirror datum skew.mirror
    hright.mirror hleft.mirror
    (by rw [height_mirror, height_mirror, Skew.value_mirror, ← hskew, neg_sub])
  refine ⟨t.mirror, res, ?_, ?_⟩
  · have hrw := rightShrunk_mirror (node right.mirror datum skew.mirror left.mirror)
    simpa [ht, mirrorResult] using hrw
  · simpa [max_comm] using hyields.mirror fun _ _ ↦ Shrank.mirror

/-! ## A change of one subtree -/

section Change

variable {left' right' : Entry α}

theorem repair_leftGrown (hn : (node left datum skew right).Balanced) (hleft : left'.Balanced)
    (hgrew : Grew left.height left' res) :
    ∃ t res', repair leftGrown (node left' datum skew right) res = some (t, res') ∧
      Yields (Grew (node left datum skew right).height)
        (left'.toList ++ datum :: right.toList) t res' := by
  obtain ⟨-, hright, hskew⟩ := hn
  cases hgrew with
  | balance hheight hroot => exact leftGrown_spec hleft hright hskew (.balance hheight hroot)
  | ok hheight =>
    refine ⟨_, _, rfl, ⟨hleft, hright, ?_⟩, rfl, .ok ?_⟩
    · rw [hheight, hskew]
    · rw [height_node, height_node, hheight]

theorem repair_rightGrown (hn : (node left datum skew right).Balanced) (hright : right'.Balanced)
    (hgrew : Grew right.height right' res) :
    ∃ t res', repair rightGrown (node left datum skew right') res = some (t, res') ∧
      Yields (Grew (node left datum skew right).height)
        (left.toList ++ datum :: right'.toList) t res' := by
  obtain ⟨hleft, -, hskew⟩ := hn
  cases hgrew with
  | balance hheight hroot => exact rightGrown_spec hleft hright hskew (.balance hheight hroot)
  | ok hheight =>
    refine ⟨_, _, rfl, ⟨hleft, hright, ?_⟩, rfl, .ok ?_⟩
    · rw [hheight, hskew]
    · rw [height_node, height_node, hheight]

theorem repair_leftShrunk {datum' : α} (hn : (node left datum skew right).Balanced)
    (hleft : left'.Balanced) (hshrank : Shrank left.height left' res) :
    ∃ t res', repair leftShrunk (node left' datum' skew right) res = some (t, res') ∧
      Yields (Shrank (node left datum skew right).height)
        (left'.toList ++ datum' :: right.toList) t res' := by
  obtain ⟨-, hright, hskew⟩ := hn
  cases hshrank with
  | balance hheight =>
    rw [height_node, ← hheight]
    rw [← hheight] at hskew
    exact leftShrunk_spec hleft hright hskew
  | ok hheight =>
    refine ⟨_, _, rfl, ⟨hleft, hright, ?_⟩, rfl, .ok ?_⟩
    · rw [hheight, hskew]
    · rw [height_node, height_node, hheight]

theorem repair_rightShrunk {datum' : α} (hn : (node left datum skew right).Balanced)
    (hright : right'.Balanced) (hshrank : Shrank right.height right' res) :
    ∃ t res', repair rightShrunk (node left datum' skew right') res = some (t, res') ∧
      Yields (Shrank (node left datum skew right).height)
        (left.toList ++ datum' :: right'.toList) t res' := by
  obtain ⟨hleft, -, hskew⟩ := hn
  cases hshrank with
  | balance hheight =>
    rw [height_node, ← hheight]
    rw [← hheight] at hskew
    exact rightShrunk_spec hleft hright hskew
  | ok hheight =>
    refine ⟨_, _, rfl, ⟨hleft, hright, ?_⟩, rfl, .ok ?_⟩
    · rw [hheight, hskew]
    · rw [height_node, height_node, hheight]

end Change

end MicroFramework.AvlTree
