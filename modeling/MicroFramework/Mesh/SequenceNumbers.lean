import MicroFramework.Mesh.LoopFreedom

/-!
# Sequence numbers of one byte

The byte a node sends after drawing so many numbers, and when the comparison of two bytes is the order
of the numbers: within 123 of each other, and the older one is not among the first four, which the
code takes for a reset.
-/

namespace MicroFramework.Mesh

open Library Table

/-- Numbers run up to 255 and then from 4 again. -/
theorem seqNoOf_toNat (issued : ℕ) :
    (seqNoOf issued).toNat = if issued < 4 then issued else 4 + (issued - 4) % 252 := by
  induction issued with
  | zero => rfl
  | succ issued ih =>
    rw [seqNoOf, nextSeqNo]
    by_cases hwrap : seqNoOf issued = 255
    · rw [if_pos hwrap]
      rw [hwrap] at ih
      change 255 = _ at ih
      show 4 = _
      split at ih <;> split <;> omega
    · rw [if_neg hwrap]
      have hlt : (seqNoOf issued).toNat ≠ 255 := fun h ↦ hwrap (UInt8.toNat_inj.mp h)
      have hmax := (seqNoOf issued).toNat_lt
      have hsucc : (seqNoOf issued + 1).toNat = (seqNoOf issued).toNat + 1 := by
        rw [UInt8.toNat_add]
        show ((seqNoOf issued).toNat + 1) % 256 = _
        omega
      rw [hsucc]
      split at ih <;> split <;> omega

theorem seqOffset_eq_bmod (seqNo known : UInt8) :
    seqOffset seqNo known = ((seqNo.toNat : ℤ) - known.toNat).bmod 256 := by
  have hcast : seqOffset seqNo known = (seqNo.toBitVec - known.toBitVec).toInt := rfl
  have hbytes : (seqNo.toBitVec - known.toBitVec).toInt =
      (seqNo.toBitVec.toInt - known.toBitVec.toInt).bmod 256 := BitVec.toInt_sub ..
  rw [hcast, hbytes, BitVec.toInt_eq_toNat_bmod, BitVec.toInt_eq_toNat_bmod]
  exact (Int.sub_bmod_bmod ..).trans (Int.bmod_sub_bmod ..)

variable {i j : ℕ}

theorem seqNoOf_gap (hlt : i < j) (hclose : j ≤ i + 123) :
    (seqNoOf i).toNat + (j - i) = (seqNoOf j).toNat ∨
      (seqNoOf i).toNat + (j - i) = (seqNoOf j).toNat + 252 := by
  have hi := seqNoOf_toNat i
  have hj := seqNoOf_toNat j
  have hround : (j - 4) / 252 = (i - 4) / 252 ∨ (j - 4) / 252 = (i - 4) / 252 + 1 := by omega
  split at hi <;> split at hj <;> omega

theorem classify_newer (hlt : i < j) (hclose : j ≤ i + 123) :
    classify (seqNoOf j) (seqNoOf i) = .gt := by
  have hgap := seqNoOf_gap hlt hclose
  have hoffset : 0 < seqOffset (seqNoOf j) (seqNoOf i) := by
    rw [seqOffset_eq_bmod, Int.bmod_def]
    have hmaxi := (seqNoOf i).toNat_lt
    have hmaxj := (seqNoOf j).toNat_lt
    split <;> omega
  rw [classify, if_neg (by omega), if_neg (by omega)]

/-- A number drawn earlier, by at most 123, reads as stale unless it is one of the first four. -/
theorem classify_older (hlt : i < j) (hclose : j ≤ i + 123) (hsmall : 4 ≤ i) :
    classify (seqNoOf i) (seqNoOf j) = .lt := by
  have hgap := seqNoOf_gap hlt hclose
  have hi := seqNoOf_toNat i
  have hoffset : seqOffset (seqNoOf i) (seqNoOf j) < 0 := by
    rw [seqOffset_eq_bmod, Int.bmod_def]
    have hmaxi := (seqNoOf i).toNat_lt
    have hmaxj := (seqNoOf j).toNat_lt
    split <;> omega
  have hnotsmall : ¬seqNoOf i < cSeqNoWraparound := by
    rw [UInt8.lt_iff_toNat_lt]
    show ¬(seqNoOf i).toNat < 4
    split at hi <;> omega
  rw [classify, if_pos hoffset, if_neg hnotsmall]

theorem classify_same (i : ℕ) : classify (seqNoOf i) (seqNoOf i) = .eq := by
  have hoffset : seqOffset (seqNoOf i) (seqNoOf i) = 0 := by
    rw [seqOffset_eq_bmod, Int.sub_self]
    rfl
  rw [classify, hoffset]
  rfl

theorem classify_eq_compare (hnewer : i ≤ j + 123) (holder : j ≤ i + 123)
    (hsmall : i < j → 4 ≤ i) : classify (seqNoOf i) (seqNoOf j) = compare i j := by
  rcases Nat.lt_trichotomy i j with hlt | rfl | hgt
  · rw [classify_older hlt holder (hsmall hlt), compare_lt_iff_lt.mpr hlt]
  · rw [classify_same, compare_eq_iff_eq.mpr rfl]
  · rw [classify_newer hgt hnewer, compare_gt_iff_gt.mpr hgt]

/-- A node with a route it compares learns safely from a message whose number is close to the one it
knows, unless the number is older and one of the first four. -/
theorem Fresh.careful_of_close {net : Network} (h : Fresh net) {addr srcAddr : Address}
    {rm : RoutingMessage} {lqi : UInt8} {entry : Entry} (hvouched : Vouched net.nodes srcAddr rm)
    (hfind : (net.nodes addr).table.findTargetAddr rm.originatorAddr = some entry)
    (hcompares : comparesRoute entry = true)
    (hclose : ∀ label, (net.nodes addr).known rm.originatorAddr = some label →
      rm.issue ≤ (ofLex label).1 + 123 ∧ (ofLex label).1 ≤ rm.issue + 123 ∧
        (rm.issue < (ofLex label).1 → 4 ≤ rm.issue)) :
    (net.nodes addr).Careful (Node.received rm lqi) := by
  intro label hlabel
  change (net.nodes addr).known rm.originatorAddr = some label at hlabel
  have hroute := routeTo_of_find hfind
  rw [Node.route_of_comparesRoute hcompares] at hroute
  obtain ⟨seq, hseq, hnum⟩ := h.labelled addr _ _ hroute
  obtain rfl : label = _ := Option.some.inj (hlabel.symm.trans hseq)
  obtain ⟨hnewer, holder, hsmall⟩ := hclose _ hlabel
  have hentry : (net.nodes addr).table.findTargetAddr (Node.received rm lqi).originatorAddr =
      some entry := hfind
  rw [hentry]
  dsimp only
  rw [if_pos hcompares]
  show classify rm.seqNo entry.seqNo = _
  rw [hvouched.seqNo, show entry.seqNo = seqNoOf seq from hnum]
  exact classify_eq_compare hnewer holder hsmall

end MicroFramework.Mesh
