import Mathlib.Order.BooleanAlgebra.Set
import MicroFramework.AvlTree.Balance

/-!
# Insertion and removal maintain a balanced search tree

The entries of a search tree read from left to right are sorted by the comparison.  An insertion
puts the new payload between those before and those behind it, a removal takes one out, and the
repairs on the way up keep the tree balanced.
-/

namespace MicroFramework.AvlTree

open List

variable {α : Type*}

structure StrictTotalOrder (compare : α → α → ℤ) : Prop where
  eq_zero_iff : ∀ x y, compare x y = 0 ↔ x = y
  pos_iff : ∀ x y, 0 < compare x y ↔ compare y x < 0
  trans : ∀ x y z, compare x y < 0 → compare y z < 0 → compare x z < 0

/-- The owner compares by a strict total order, always has a node for the payload of an insertion,
and moves a payload as it is. -/
structure OwnerInfo.Lawful (owner : OwnerInfo α) : Prop where
  order : StrictTotalOrder owner.compare
  newNode : ∀ d, owner.newNode d = some d
  reassignNode : ∀ d target, owner.reassignNode d target = d

namespace StrictTotalOrder

variable {compare : α → α → ℤ} {x y : α}

theorem irrefl (h : StrictTotalOrder compare) : ¬ compare x x < 0 := by
  rw [(h.eq_zero_iff x x).mpr rfl]
  exact lt_irrefl 0

theorem asymm (h : StrictTotalOrder compare) (hxy : compare x y < 0) : ¬ compare y x < 0 :=
  fun hyx ↦ h.irrefl (h.trans x y x hxy hyx)

theorem ne (h : StrictTotalOrder compare) (hxy : compare x y < 0) : x ≠ y := by
  rintro rfl
  exact h.irrefl hxy

end StrictTotalOrder

namespace Entry

def stored (t : Entry α) : Set α := {x | x ∈ t.toList}

/-- What is to the left of an entry comes before it, and what is to the right comes behind it. -/
def SearchTree (compare : α → α → ℤ) : Entry α → Prop
  | null => True
  | node left datum _ right =>
    left.SearchTree compare ∧ right.SearchTree compare ∧
      (∀ x ∈ left.stored, compare x datum < 0) ∧ ∀ y ∈ right.stored, compare datum y < 0

theorem mem_stored {t : Entry α} {x : α} : x ∈ t.stored ↔ x ∈ t.toList := Iff.rfl

theorem searchTree_iff {compare : α → α → ℤ} (hcmp : StrictTotalOrder compare) (t : Entry α) :
    t.SearchTree compare ↔ t.toList.Pairwise (fun x y ↦ compare x y < 0) := by
  induction t with
  | null => simp [SearchTree]
  | node left datum skew right ihl ihr =>
    simp only [SearchTree, ihl, ihr, toList_node, pairwise_append, pairwise_cons,
      mem_cons, mem_stored]
    constructor
    · rintro ⟨hl, hr, hleft, hright⟩
      refine ⟨hl, ⟨hright, hr⟩, fun x hx y hy ↦ ?_⟩
      rcases hy with rfl | hy
      · exact hleft x hx
      · exact hcmp.trans x datum y (hleft x hx) (hright y hy)
    · rintro ⟨hl, ⟨hright, hr⟩, hall⟩
      exact ⟨hl, hr, fun x hx ↦ hall x hx datum (.inl rfl), hright⟩

end Entry

open Entry

/-! ## Payloads before and behind -/

section Between

variable {compare : α → α → ℤ} {d datum : α} {xs ys entries : List α}

/-- `d` lies behind all of `xs` and before all of `ys`. -/
structure Between (compare : α → α → ℤ) (xs : List α) (d : α) (ys : List α) : Prop where
  before : ∀ x ∈ xs, compare x d < 0
  behind : ∀ y ∈ ys, compare d y < 0

theorem Between.append_right (hcmp : StrictTotalOrder compare) (h : Between compare xs d ys)
    (hd : compare d datum < 0) (hentries : ∀ y ∈ entries, compare datum y < 0) :
    Between compare xs d (ys ++ datum :: entries) where
  before := h.before
  behind y hy := by
    simp only [mem_append, mem_cons] at hy
    rcases hy with hy | rfl | hy
    · exact h.behind y hy
    · exact hd
    · exact hcmp.trans d datum y hd (hentries y hy)

theorem Between.append_left (hcmp : StrictTotalOrder compare) (h : Between compare xs d ys)
    (hd : compare datum d < 0) (hentries : ∀ x ∈ entries, compare x datum < 0) :
    Between compare (entries ++ datum :: xs) d ys where
  before x hx := by
    simp only [mem_append, mem_cons] at hx
    rcases hx with hx | rfl | hx
    · exact hcmp.trans x datum d (hentries x hx) hd
    · exact hd
    · exact h.before x hx
  behind := h.behind

theorem Between.not_mem (hcmp : StrictTotalOrder compare) (h : Between compare xs d ys) :
    d ∉ xs ++ ys := by
  intro hd
  rcases mem_append.mp hd with hd | hd
  · exact hcmp.irrefl (h.before d hd)
  · exact hcmp.irrefl (h.behind d hd)

theorem Between.pairwise (h : Between compare xs d ys)
    (hsorted : (xs ++ ys).Pairwise fun x y ↦ compare x y < 0) :
    (xs ++ d :: ys).Pairwise fun x y ↦ compare x y < 0 := by
  obtain ⟨hxs, hys, hall⟩ := pairwise_append.mp hsorted
  refine pairwise_append.mpr ⟨hxs, pairwise_cons.mpr ⟨h.behind, hys⟩, ?_⟩
  intro x hx y hy
  rcases mem_cons.mp hy with rfl | hy
  · exact h.before x hx
  · exact hall x hx y hy

end Between

variable {owner : OwnerInfo α} {t : Entry α} {d : α}

/-! ## Insertion -/

/-- An insertion that finds its payload in the tree leaves the tree alone; any other one puts it
between those before and those behind it. -/
theorem insert_spec (hown : owner.Lawful) (hsearch : t.SearchTree owner.compare)
    (hbalanced : t.Balanced) :
    d ∈ t.toList ∧ insert owner d t = some (t, .duplicate) ∨
      ∃ t' res xs ys, insert owner d t = some (t', res) ∧ t.toList = xs ++ ys ∧
        Between owner.compare xs d ys ∧ Yields (Grew t.height) (xs ++ d :: ys) t' res := by
  induction t with
  | null =>
    refine .inr ⟨node null d .none null, .balance, [], [], ?_, rfl, ⟨by simp, by simp⟩, ?_⟩
    · simp [insert, hown.newNode]
    · exact ⟨⟨trivial, trivial, rfl⟩, rfl, .balance rfl fun _ ↦ rfl⟩
  | node left datum skew right ihl ihr =>
    obtain ⟨hsl, hsr, hbefore, hbehind⟩ := hsearch
    obtain ⟨hbl, hbr, -⟩ := id hbalanced
    by_cases hgt : owner.compare datum d > 0
    · have hd : owner.compare d datum < 0 := (hown.order.pos_iff datum d).mp hgt
      rcases ihl hsl hbl with ⟨hmem, hins⟩ | ⟨left', res, xs, ys, hins, hlist, hbetween, hyields⟩
      · refine .inl ⟨mem_append_left _ hmem, ?_⟩
        simp [insert, hgt, hins, repair]
      · right
        obtain ⟨t', res', hrepair, ht'⟩ :=
          @repair_leftGrown _ left right datum skew res left' hbalanced hyields.balanced
            hyields.changed
        refine ⟨t', res', xs, ys ++ datum :: right.toList, ?_, ?_, ?_, ?_⟩
        · simpa [insert, hgt, hins] using hrepair
        · rw [toList_node, hlist, append_assoc]
        · exact hbetween.append_right hown.order hd hbehind
        · simpa [hyields.toList] using ht'
    · by_cases hlt : owner.compare datum d < 0
      · rcases ihr hsr hbr with ⟨hmem, hins⟩ | ⟨right', res, xs, ys, hins, hlist, hbetween, hyields⟩
        · refine .inl ⟨mem_append_right _ (mem_cons_of_mem _ hmem), ?_⟩
          simp [insert, hgt, hlt, hins, repair]
        · right
          obtain ⟨t', res', hrepair, ht'⟩ :=
            @repair_rightGrown _ left right datum skew res right' hbalanced hyields.balanced
              hyields.changed
          refine ⟨t', res', left.toList ++ datum :: xs, ys, ?_, ?_, ?_, ?_⟩
          · simpa [insert, hgt, hlt, hins] using hrepair
          · rw [toList_node, hlist, append_assoc, cons_append]
          · exact hbetween.append_left hown.order hlt hbefore
          · simpa [hyields.toList] using ht'
      · have heq : datum = d := (hown.order.eq_zero_iff datum d).mp (by omega)
        refine .inl ⟨by simp [heq], ?_⟩
        simp [insert, hgt, hlt]

/-! ## Removal -/

/-- The last entry of a subtree moves into the target. -/
theorem findHighest_spec (hown : owner.Lawful) (target : α) (hnull : t ≠ null)
    (hbalanced : t.Balanced) :
    ∃ t' d res entries, findHighest owner t target = some (true, t', d, res) ∧
      t.toList = entries ++ [d] ∧ Yields (Shrank t.height) entries t' res := by
  induction t with
  | null => exact absurd rfl hnull
  | node left datum skew right ihl ihr =>
    obtain ⟨hbl, hbr, hskew⟩ := id hbalanced
    cases hright : right with
    | null =>
      refine ⟨left, datum, .balance, left.toList, ?_, rfl, hbl, rfl, .balance ?_⟩
      · simp [findHighest, hown.reassignNode]
      · simp
    | node l e s r =>
      rw [← hright]
      obtain ⟨right', d, res, entries, hfind, hlist, hyields⟩ := ihr (by simp [hright]) hbr
      obtain ⟨t', res', hrepair, ht'⟩ :=
        @repair_rightShrunk _ left right datum skew res right' datum hbalanced hyields.balanced
          hyields.changed
      refine ⟨t', d, res', left.toList ++ datum :: entries, ?_, ?_, ?_⟩
      · rw [hright] at hfind ⊢
        simp [findHighest, hfind, hrepair]
      · rw [toList_node, hlist, append_assoc, cons_append]
      · simpa [hyields.toList] using ht'

/-- The first entry of a subtree moves into the target. -/
theorem findLowest_spec (hown : owner.Lawful) (target : α) (hnull : t ≠ null)
    (hbalanced : t.Balanced) :
    ∃ t' d res entries, findLowest owner t target = some (true, t', d, res) ∧
      t.toList = d :: entries ∧ Yields (Shrank t.height) entries t' res := by
  induction t with
  | null => exact absurd rfl hnull
  | node left datum skew right ihl ihr =>
    obtain ⟨hbl, hbr, hskew⟩ := id hbalanced
    cases hleft : left with
    | null =>
      refine ⟨right, datum, .balance, right.toList, ?_, rfl, hbr, rfl, .balance ?_⟩
      · simp [findLowest, hown.reassignNode]
      · simp
    | node l e s r =>
      rw [← hleft]
      obtain ⟨left', d, res, entries, hfind, hlist, hyields⟩ := ihl (by simp [hleft]) hbl
      obtain ⟨t', res', hrepair, ht'⟩ :=
        @repair_leftShrunk _ left right datum skew res left' datum hbalanced hyields.balanced
          hyields.changed
      refine ⟨t', d, res', entries ++ datum :: right.toList, ?_, ?_, ?_⟩
      · rw [hleft] at hfind ⊢
        simp [findLowest, hfind, hrepair]
      · rw [toList_node, hlist, cons_append]
      · simpa [hyields.toList] using ht'

theorem removeNode_spec {left right : Entry α} {datum : α} {skew : Skew} (hown : owner.Lawful)
    (hbalanced : (node left datum skew right).Balanced) :
    ∃ t res, removeNode owner left datum skew right = some (t, res) ∧
      Yields (Shrank (node left datum skew right).height) (left.toList ++ right.toList) t res := by
  obtain ⟨hbl, hbr, -⟩ := id hbalanced
  cases hleft : left with
  | null =>
    cases hright : right with
    | null => exact ⟨null, .balance, rfl, trivial, rfl, .balance rfl⟩
    | node l e s r =>
      rw [← hleft, ← hright]
      obtain ⟨right', d, res, entries, hfind, hlist, hyields⟩ :=
        findLowest_spec hown datum (by simp [hright]) hbr
      obtain ⟨t, res', hrepair, ht⟩ :=
        @repair_rightShrunk _ left right datum skew res right' d hbalanced hyields.balanced
          hyields.changed
      refine ⟨t, res', ?_, ?_⟩
      · rw [hright] at hfind
        rw [hleft] at hrepair
        simp [removeNode, removeRight, hleft, hright, hfind, hrepair]
      · simpa [hyields.toList, hlist] using ht
  | node l e s r =>
    rw [← hleft]
    obtain ⟨left', d, res, entries, hfind, hlist, hyields⟩ :=
      findHighest_spec hown datum (by simp [hleft]) hbl
    obtain ⟨t, res', hrepair, ht⟩ :=
      @repair_leftShrunk _ left right datum skew res left' d hbalanced hyields.balanced
        hyields.changed
    refine ⟨t, res', ?_, ?_⟩
    · rw [hleft] at hfind
      simp [removeNode, hleft, hfind, hrepair]
    · simpa [hyields.toList, hlist] using ht

/-- A removal that does not find its payload leaves the tree alone; any other one takes it out. -/
theorem remove_spec (hown : owner.Lawful) (hsearch : t.SearchTree owner.compare)
    (hbalanced : t.Balanced) :
    d ∉ t.toList ∧ remove owner d t = some (t, .notFound) ∨
      ∃ t' res xs ys, remove owner d t = some (t', res) ∧ t.toList = xs ++ d :: ys ∧
        Yields (Shrank t.height) (xs ++ ys) t' res := by
  induction t with
  | null => exact .inl ⟨by simp, rfl⟩
  | node left datum skew right ihl ihr =>
    obtain ⟨hsl, hsr, hbefore, hbehind⟩ := hsearch
    obtain ⟨hbl, hbr, -⟩ := id hbalanced
    by_cases hgt : owner.compare datum d > 0
    · have hd : owner.compare d datum < 0 := (hown.order.pos_iff datum d).mp hgt
      rcases ihl hsl hbl with ⟨hmem, hrem⟩ | ⟨left', res, xs, ys, hrem, hlist, hyields⟩
      · refine .inl ⟨?_, by simp [remove, hgt, hrem, repair]⟩
        simp only [toList_node, mem_append, mem_cons, not_or]
        refine ⟨hmem, hown.order.ne hd, fun hr ↦ ?_⟩
        exact hown.order.asymm hd (hbehind d hr)
      · right
        obtain ⟨t', res', hrepair, ht'⟩ :=
          @repair_leftShrunk _ left right datum skew res left' datum hbalanced hyields.balanced
            hyields.changed
        refine ⟨t', res', xs, ys ++ datum :: right.toList, ?_, ?_, ?_⟩
        · simpa [remove, hgt, hrem] using hrepair
        · rw [toList_node, hlist, append_assoc, cons_append]
        · simpa [hyields.toList] using ht'
    · by_cases hlt : owner.compare datum d < 0
      · rcases ihr hsr hbr with ⟨hmem, hrem⟩ | ⟨right', res, xs, ys, hrem, hlist, hyields⟩
        · refine .inl ⟨?_, by simp [remove, hgt, hlt, hrem, repair]⟩
          simp only [toList_node, mem_append, mem_cons, not_or]
          refine ⟨fun hl ↦ ?_, (hown.order.ne hlt).symm, hmem⟩
          exact hown.order.asymm hlt (hbefore d hl)
        · right
          obtain ⟨t', res', hrepair, ht'⟩ :=
            @repair_rightShrunk _ left right datum skew res right' datum hbalanced
              hyields.balanced hyields.changed
          refine ⟨t', res', left.toList ++ datum :: xs, ys, ?_, ?_, ?_⟩
          · simpa [remove, hgt, hlt, hrem] using hrepair
          · rw [toList_node, hlist, append_assoc, cons_append]
          · simpa [hyields.toList] using ht'
      · have heq : datum = d := (hown.order.eq_zero_iff datum d).mp (by omega)
        obtain ⟨t', res, hrem, hyields⟩ := removeNode_spec hown hbalanced
        refine .inr ⟨t', res, left.toList, right.toList, ?_, by rw [toList_node, heq], hyields⟩
        simpa [remove, hgt, hlt] using hrem

/-! ## Search -/

theorem find_spec (hown : owner.Lawful) (hsearch : t.SearchTree owner.compare) :
    d ∈ t.toList ∧ (∃ left skew right, find owner d t = node left d skew right) ∨
      d ∉ t.toList ∧ find owner d t = null := by
  induction t with
  | null => exact .inr ⟨by simp, rfl⟩
  | node left datum skew right ihl ihr =>
    obtain ⟨hsl, hsr, hbefore, hbehind⟩ := hsearch
    by_cases hzero : owner.compare datum d = 0
    · have heq : datum = d := (hown.order.eq_zero_iff datum d).mp hzero
      subst heq
      refine .inl ⟨by simp, left, skew, right, ?_⟩
      simp [find, hzero]
    · by_cases hgt : owner.compare datum d > 0
      · have hd : owner.compare d datum < 0 := (hown.order.pos_iff datum d).mp hgt
        have hright : d ∉ right.toList := fun hr ↦ hown.order.asymm hd (hbehind d hr)
        have hne : d ≠ datum := hown.order.ne hd
        simpa [find, hzero, hgt, hright, hne] using ihl hsl
      · have hlt : owner.compare datum d < 0 := by omega
        have hleft : d ∉ left.toList := fun hl ↦ hown.order.asymm hlt (hbefore d hl)
        have hne : d ≠ datum := (hown.order.ne hlt).symm
        simpa [find, hzero, hgt, hleft, hne] using ihr hsr

/-! ## Every sequence of calls -/

/-- What an insertion of `d` does: it adds the payload and tells whether the tree has grown, or
leaves the tree that has the payload. -/
structure Inserts (t : Entry α) (d : α) (t' : Entry α) (res : Result) : Prop where
  stored : t'.stored = t.stored ∪ {d}
  duplicate : d ∈ t.stored → t' = t ∧ res = .duplicate
  height : d ∉ t.stored →
    res = .balance ∧ t'.height = t.height + 1 ∨ res = .ok ∧ t'.height = t.height

/-- What a removal of `d` does: it takes the payload out and tells whether the tree has shrunk, or
leaves the tree without the payload. -/
structure Removes (t : Entry α) (d : α) (t' : Entry α) (res : Result) : Prop where
  stored : t'.stored = t.stored \ {d}
  notFound : d ∉ t.stored → t' = t ∧ res = .notFound
  height : d ∈ t.stored →
    res = .balance ∧ t'.height + 1 = t.height ∨ res = .ok ∧ t'.height = t.height

theorem insert_correct (hown : owner.Lawful) (hsearch : t.SearchTree owner.compare)
    (hbalanced : t.Balanced) :
    ∃ t' res, insert owner d t = some (t', res) ∧ Inserts t d t' res ∧
      t'.SearchTree owner.compare ∧ t'.Balanced := by
  rcases insert_spec (d := d) hown hsearch hbalanced with
    ⟨hmem, hins⟩ | ⟨t', res, xs, ys, hins, hlist, hbetween, hyields⟩
  · refine ⟨t, .duplicate, hins, ⟨?_, fun _ ↦ ⟨rfl, rfl⟩, absurd hmem⟩, hsearch, hbalanced⟩
    rw [Set.union_singleton, Set.insert_eq_of_mem (mem_stored.mpr hmem)]
  · have hnot : d ∉ t.stored := by
      rw [mem_stored, hlist]
      exact hbetween.not_mem hown.order
    refine ⟨t', res, hins, ⟨?_, fun hmem ↦ absurd hmem hnot, fun _ ↦ ?_⟩, ?_, hyields.balanced⟩
    · ext x
      simp only [mem_stored, hyields.toList, hlist, Set.mem_union, Set.mem_singleton_iff,
        mem_append, mem_cons]
      rw [or_assoc, or_comm (a := x = d)]
    · cases hyields.changed with
      | balance hheight => exact .inl ⟨rfl, hheight⟩
      | ok hheight => exact .inr ⟨rfl, hheight⟩
    · rw [searchTree_iff hown.order, hlist] at hsearch
      rw [searchTree_iff hown.order, hyields.toList]
      exact hbetween.pairwise hsearch

theorem remove_correct (hown : owner.Lawful) (hsearch : t.SearchTree owner.compare)
    (hbalanced : t.Balanced) :
    ∃ t' res, remove owner d t = some (t', res) ∧ Removes t d t' res ∧
      t'.SearchTree owner.compare ∧ t'.Balanced := by
  rcases remove_spec (d := d) hown hsearch hbalanced with
    ⟨hmem, hrem⟩ | ⟨t', res, xs, ys, hrem, hlist, hyields⟩
  · refine ⟨t, .notFound, hrem, ⟨?_, fun _ ↦ ⟨rfl, rfl⟩, (absurd · hmem)⟩, hsearch, hbalanced⟩
    rw [Set.sdiff_singleton_eq_self (mem_stored.not.mpr hmem)]
  · have hsorted := (searchTree_iff hown.order t).mp hsearch
    rw [hlist] at hsorted
    obtain ⟨hxs, hdys, hall⟩ := pairwise_append.mp hsorted
    obtain ⟨hd, hys⟩ := pairwise_cons.mp hdys
    have hbetween : Between owner.compare xs d ys := ⟨fun x hx ↦ hall x hx d mem_cons_self, hd⟩
    have hnot := hbetween.not_mem hown.order
    have hmem : d ∈ t.stored := by simp [mem_stored, hlist]
    refine ⟨t', res, hrem, ⟨?_, (absurd hmem ·), fun _ ↦ ?_⟩, ?_, hyields.balanced⟩
    · ext x
      simp only [mem_stored, hyields.toList, hlist, Set.mem_sdiff, Set.mem_singleton_iff,
        mem_append, mem_cons] at hnot ⊢
      constructor
      · intro hx
        refine ⟨hx.imp_right .inr, ?_⟩
        rintro rfl
        exact hnot hx
      · rintro ⟨hx | hx | hx, hne⟩
        · exact .inl hx
        · exact absurd hx hne
        · exact .inr hx
    · cases hyields.changed with
      | balance hheight => exact .inl ⟨rfl, hheight⟩
      | ok hheight => exact .inr ⟨rfl, hheight⟩
    · rw [searchTree_iff hown.order, hyields.toList]
      exact pairwise_append.mpr ⟨hxs, hys, fun x hx y hy ↦ hall x hx y (mem_cons_of_mem _ hy)⟩

/-- Any sequence of calls runs to its end without a step through `NULL`, from a balanced search
tree to a balanced search tree. -/
theorem calls_run (hown : owner.Lawful) (calls : List (Call α))
    (hsearch : t.SearchTree owner.compare) (hbalanced : t.Balanced) :
    ∃ t', calls.foldlM (step owner) t = some t' ∧ t'.SearchTree owner.compare ∧ t'.Balanced := by
  induction calls generalizing t with
  | nil => exact ⟨t, rfl, hsearch, hbalanced⟩
  | cons call calls ih =>
    have hcall : ∃ t', step owner t call = some t' ∧ t'.SearchTree owner.compare ∧
        t'.Balanced := by
      cases call with
      | insert d =>
        obtain ⟨t', res, hins, -, hkept⟩ := insert_correct (d := d) hown hsearch hbalanced
        exact ⟨t', by simp [step, hins], hkept⟩
      | remove d =>
        obtain ⟨t', res, hrem, -, hkept⟩ := remove_correct (d := d) hown hsearch hbalanced
        exact ⟨t', by simp [step, hrem], hkept⟩
    obtain ⟨t', hstep, hsearch', hbalanced'⟩ := hcall
    obtain ⟨final, hrun, hfinal⟩ := ih hsearch' hbalanced'
    refine ⟨final, ?_, hfinal⟩
    rw [foldlM_cons, hstep]
    exact hrun

/-- After any sequence of insertions and removals the tree is a balanced search tree, on which the
next insertion, removal or search does what it should. -/
theorem calls_maintain (hown : owner.Lawful) (calls : List (Call α)) :
    ∃ t, calls.foldlM (step owner) null = some t ∧ t.SearchTree owner.compare ∧ t.Balanced ∧
      ∀ d, (∃ t' res, insert owner d t = some (t', res) ∧ Inserts t d t' res) ∧
        (∃ t' res, remove owner d t = some (t', res) ∧ Removes t d t' res) ∧
        (find owner d t ≠ null ↔ d ∈ t.stored) := by
  obtain ⟨t, hrun, hsearch, hbalanced⟩ := calls_run (t := null) hown calls trivial trivial
  refine ⟨t, hrun, hsearch, hbalanced, fun d ↦ ⟨?_, ?_, ?_⟩⟩
  · obtain ⟨t', res, hins, hinserts, -⟩ := insert_correct (d := d) hown hsearch hbalanced
    exact ⟨t', res, hins, hinserts⟩
  · obtain ⟨t', res, hrem, hremoves, -⟩ := remove_correct (d := d) hown hsearch hbalanced
    exact ⟨t', res, hrem, hremoves⟩
  · rcases find_spec (d := d) hown hsearch with ⟨hmem, left, skew, right, hfind⟩ | ⟨hmem, hfind⟩
    · simp [hfind, mem_stored, hmem]
    · simp [hfind, mem_stored, hmem]

def integers : OwnerInfo ℤ where
  compare x y := x - y
  newNode d := some d
  reassignNode d _ := d

theorem integers_lawful : integers.Lawful where
  order :=
    { eq_zero_iff := fun _ _ ↦ sub_eq_zero
      pos_iff := fun x y ↦ by simp only [integers]; omega
      trans := fun x y z ↦ by simp only [integers]; omega }
  newNode _ := rfl
  reassignNode _ _ := rfl

theorem calls_maintain_integers :
    ∃ t, [Call.insert 3, .insert 1, .insert 2, .remove 3].foldlM (step integers) null = some t ∧
      t.SearchTree integers.compare ∧ t.Balanced ∧
        ∀ d, (∃ t' res, insert integers d t = some (t', res) ∧ Inserts t d t' res) ∧
          (∃ t' res, remove integers d t = some (t', res) ∧ Removes t d t' res) ∧
          (find integers d t ≠ null ↔ d ∈ t.stored) :=
  calls_maintain integers_lawful _

end MicroFramework.AvlTree
