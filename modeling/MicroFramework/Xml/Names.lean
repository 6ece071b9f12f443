import Mathlib.Data.Nat.Bitwise
import MicroFramework.Xml.Scoping

/-!
# Names and flags

The comparisons that the reader makes with `hal_strncmp_s`, on strings without a zero byte, and
the word that holds the namespace count of a node beside its two flags.
-/

namespace MicroFramework.Xml

open List Nat

/-! ### Comparisons -/

/-- A comparison that takes in the zero at the end is equality. -/
theorem equalUpTo_iff {s t : Text} (hs : 0 ∉ s) (ht : 0 ∉ t) :
    equalUpTo s t (t.length + 1) = true ↔ s = t := by
  induction t generalizing s with
  | nil =>
    cases s with
    | nil => simp [equalUpTo]
    | cons a s =>
      have ha : a ≠ 0 := fun h ↦ hs (h ▸ mem_cons_self)
      simp [equalUpTo, ha]
  | cons b t ih =>
    rw [mem_cons, not_or] at ht
    cases s with
    | nil => simpa [equalUpTo] using fun h ↦ ht.1 h.symm
    | cons a s =>
      rw [mem_cons, not_or] at hs
      have ha : a ≠ 0 := fun h ↦ hs.1 h.symm
      rw [length_cons, equalUpTo, Bool.and_eq_true, Bool.or_eq_true, beq_iff_eq, beq_iff_eq,
        ih hs.2 ht.2, List.cons.injEq, or_iff_right ha]

/-- A comparison that stops in front of the zero looks for a first part. -/
theorem equalUpTo_length_iff {s t : Text} (ht : 0 ∉ t) :
    equalUpTo s t t.length = true ↔ ∃ rest, s = t ++ rest := by
  induction t generalizing s with
  | nil => simp [equalUpTo]
  | cons b t ih =>
    rw [mem_cons, not_or] at ht
    have hb : b ≠ 0 := fun h ↦ ht.1 h.symm
    cases s with
    | nil => simp [equalUpTo, hb]
    | cons a s =>
      rw [length_cons, equalUpTo, Bool.and_eq_true, Bool.or_eq_true, beq_iff_eq, beq_iff_eq,
        ih ht.2]
      constructor
      · rintro ⟨rfl, h⟩
        obtain ⟨rest, rfl⟩ := h.resolve_left hb
        exact ⟨rest, rfl⟩
      · rintro ⟨rest, hrest⟩
        rw [cons_append, List.cons.injEq] at hrest
        exact ⟨hrest.1, .inr ⟨rest, hrest.2⟩⟩

/-- The comparison of an end tag's name: where the name of the start tag ends, the comparison
stops if the other name has a zero byte there. -/
theorem equalUpTo_name_iff {s t : Text} (hs : 0 ∉ s) :
    equalUpTo s t t.length = true ↔ (∃ rest, s = t ++ rest) ∨ ∃ rest, t = s ++ 0 :: rest := by
  induction s generalizing t with
  | nil =>
    cases t with
    | nil | cons b t => simp [equalUpTo]
  | cons a s ih =>
    rw [mem_cons, not_or] at hs
    have ha : a ≠ 0 := fun h ↦ hs.1 h.symm
    cases t with
    | nil => simp [equalUpTo]
    | cons b t =>
      rw [length_cons, equalUpTo, Bool.and_eq_true, Bool.or_eq_true, beq_iff_eq, beq_iff_eq,
        ih hs.2, or_iff_right ha]
      simp only [cons_append, List.cons.injEq, exists_and_left]
      constructor
      · rintro ⟨rfl, h⟩
        exact h.imp (fun h ↦ ⟨rfl, h⟩) fun h ↦ ⟨rfl, h⟩
      · rintro (⟨rfl, h⟩ | ⟨rfl, h⟩)
        · exact ⟨rfl, .inl h⟩
        · exact ⟨rfl, .inr h⟩

namespace QName

variable (q : QName)

theorem zero_notMem_pre : 0 ∉ q.pre := fun h ↦ (q.bytes 0 (mem_append_left _ h)).1 rfl

theorem zero_notMem_localName : 0 ∉ q.localName := fun h ↦ (q.bytes 0 (mem_append_right _ h)).1 rfl

theorem colon_notMem_pre : 58 ∉ q.pre := fun h ↦ (q.bytes 58 (mem_append_left _ h)).2 rfl

theorem colon_notMem_localName : 58 ∉ q.localName :=
  fun h ↦ (q.bytes 58 (mem_append_right _ h)).2 rfl

theorem zero_notMem_name : 0 ∉ q.name := by
  rw [QName.name]
  split
  · exact q.zero_notMem_localName
  · rw [mem_append, mem_cons, not_or, not_or]
    exact ⟨q.zero_notMem_pre, by decide, q.zero_notMem_localName⟩

theorem name_of_pre_eq_nil {q : QName} (h : q.pre = []) : q.name = q.localName := by
  rw [QName.name, if_pos h]

/-- A name without a colon is a local name alone. -/
theorem pre_eq_nil_of_name {q : QName} {t : Text} (ht : 58 ∉ t) (h : q.name = t) :
    q.pre = [] ∧ q.localName = t := by
  rw [QName.name] at h
  split at h
  · exact ⟨‹_›, h⟩
  · exact absurd (h ▸ mem_append_right _ mem_cons_self) ht

theorem name_eq_xmlns_iff : q.name = xmlns ↔ q.pre = [] ∧ q.localName = xmlns := by
  refine ⟨pre_eq_nil_of_name (by decide), fun h ↦ ?_⟩
  rw [name_of_pre_eq_nil h.1, h.2]

/-- The part in front of the first colon. -/
theorem takeWhile_colon {s t : Text} (hs : 58 ∉ s) : (s ++ 58 :: t).takeWhile (· ≠ 58) = s := by
  rw [takeWhile_append_of_pos, takeWhile_cons_of_neg (by decide), append_nil]
  exact fun b hb ↦ decide_eq_true fun h ↦ hs (h ▸ hb)

theorem exists_name_eq_xmlns_colon_iff :
    (∃ rest, q.name = xmlns ++ 58 :: rest) ↔ q.pre = xmlns := by
  constructor
  · rintro ⟨rest, h⟩
    rw [QName.name] at h
    split at h
    · exact absurd (h ▸ mem_append_right _ mem_cons_self) q.colon_notMem_localName
    · rw [← takeWhile_colon (t := q.localName) q.colon_notMem_pre, h,
        takeWhile_colon (by decide)]
  · intro h
    refine ⟨q.localName, ?_⟩
    rw [QName.name, if_neg (by rw [h]; decide), h]

/-- The test of `InAttributeValue` finds the names that declare a namespace. -/
theorem isDeclaration_iff :
    Reader.isDeclaration q.name = true ↔
      q.pre = xmlns ∨ q.pre = [] ∧ q.localName = xmlns := by
  have hfirst : equalUpTo q.name xmlns 5 = true ↔ ∃ rest, q.name = xmlns ++ rest :=
    equalUpTo_length_iff (by decide)
  rw [← exists_name_eq_xmlns_colon_iff, ← name_eq_xmlns_iff, Reader.isDeclaration,
    Bool.and_eq_true, hfirst, Bool.or_eq_true, beq_iff_eq, beq_iff_eq]
  constructor
  · rintro ⟨⟨rest, hrest⟩, hnext⟩
    have hget : q.name.getD 5 0 = rest.getD 0 0 := by
      rw [hrest]
      exact getD_append_right xmlns rest 0 5 (by decide)
    rw [hget] at hnext
    cases rest with
    | nil => exact .inr (by rw [hrest, append_nil])
    | cons b rest =>
      rw [getD_cons_zero] at hnext
      rcases hnext with rfl | rfl
      · exact absurd (hrest ▸ mem_append_right _ mem_cons_self) q.zero_notMem_name
      · exact .inl ⟨rest, hrest⟩
  · rintro (⟨rest, hrest⟩ | hname)
    · exact ⟨⟨_, hrest⟩, .inr (by rw [hrest]; rfl)⟩
    · exact ⟨⟨[], by rw [hname, append_nil]⟩, .inl (by rw [hname]; rfl)⟩

/-- Behind `xmlns` stands the zero at the end or the colon in front of the declared prefix. -/
theorem getD_name_eq_zero_iff (h : q.pre = xmlns ∨ q.pre = [] ∧ q.localName = xmlns) :
    q.name.getD 5 0 = 0 ↔ q.pre = [] := by
  rcases h with h | h
  · have hname : q.name = xmlns ++ 58 :: q.localName := by
      rw [QName.name, if_neg (by rw [h]; decide), h]
    rw [hname, h]
    exact iff_of_false (by change ¬ (58 : UInt8) = 0; decide) (by decide)
  · rw [q.name_eq_xmlns_iff.mpr h]
    exact iff_of_true rfl h.1

end QName

/-! ### Flags -/

/-- The word of a node with `count` namespaces and these two flags. -/
def marks (count : ℕ) (hasSpace hasLang : Bool) : ℕ :=
  count ||| (if hasSpace then 2 ^ 31 else 0) ||| if hasLang then 2 ^ 30 else 0

variable {count : ℕ} {hasSpace hasLang : Bool}

theorem and_two_pow_of_lt {i : ℕ} (h : count < 2 ^ i) : count &&& 2 ^ i = 0 := by
  rw [and_two_pow, testBit_lt_two_pow h, Bool.toNat_false, Nat.zero_mul]

theorem marks_and_mask (h : count < 2 ^ 30) :
    marks count hasSpace hasLang &&& 0x3FFFFFFF = count := by
  have hcount : count &&& 0x3FFFFFFF = count := by
    rw [show 0x3FFFFFFF = 2 ^ 30 - 1 from rfl, and_two_pow_sub_one_eq_mod, mod_eq_of_lt h]
  rw [marks, Nat.and_or_distrib_right, Nat.and_or_distrib_right, hcount]
  cases hasSpace <;> cases hasLang <;> simp

theorem marks_and_space (h : count < 2 ^ 30) :
    (marks count hasSpace hasLang &&& 0x80000000 != 0) = hasSpace := by
  have hcount : count &&& 0x80000000 = 0 := and_two_pow_of_lt (h.trans (by decide) : _ < 2 ^ 31)
  rw [marks, Nat.and_or_distrib_right, Nat.and_or_distrib_right, hcount]
  cases hasSpace <;> cases hasLang <;> rfl

theorem marks_and_lang (h : count < 2 ^ 30) :
    (marks count hasSpace hasLang &&& 0x40000000 != 0) = hasLang := by
  have hcount : count &&& 0x40000000 = 0 := and_two_pow_of_lt (h : _ < 2 ^ 30)
  rw [marks, Nat.and_or_distrib_right, Nat.and_or_distrib_right, hcount]
  cases hasSpace <;> cases hasLang <;> rfl

theorem marks_or_space :
    marks count hasSpace hasLang ||| 0x80000000 = marks count true hasLang := by
  rw [marks, marks, Nat.or_assoc, Nat.or_assoc, Nat.or_assoc]
  cases hasSpace <;> cases hasLang <;> rfl

theorem marks_or_lang :
    marks count hasSpace hasLang ||| 0x40000000 = marks count hasSpace true := by
  rw [marks, marks, Nat.or_assoc, Nat.or_assoc, Nat.or_assoc]
  cases hasSpace <;> cases hasLang <;> rfl

/-- The parts of the word do not meet. -/
theorem marks_eq_add (h : count < 2 ^ 30) :
    marks count hasSpace hasLang =
      count + (if hasSpace then 2 ^ 31 else 0) + if hasLang then 2 ^ 30 else 0 := by
  have hlang : ∀ {n : ℕ}, n < 2 ^ 30 → n ||| 2 ^ 30 = n + 2 ^ 30 := fun {n} hn ↦ by
    rw [Nat.or_comm, Nat.add_comm]
    exact (two_pow_add_eq_or_of_lt hn 1).symm
  have hspace : ∀ {n : ℕ}, n < 2 ^ 31 → n ||| 2 ^ 31 = n + 2 ^ 31 := fun {n} hn ↦ by
    rw [Nat.or_comm, Nat.add_comm]
    exact (two_pow_add_eq_or_of_lt hn 1).symm
  cases hasSpace <;> cases hasLang <;>
    simp only [marks, if_true, Bool.false_eq_true, if_false, or_zero, Nat.add_zero]
  · exact hlang h
  · exact hspace (h.trans (by decide))
  · rw [Nat.or_assoc, Nat.or_comm (2 ^ 31), ← Nat.or_assoc, hlang h, hspace (by omega)]
    omega

theorem marks_succ (h : count + 1 < 2 ^ 30) :
    (marks count hasSpace hasLang + 1) % 2 ^ 32 = marks (count + 1) hasSpace hasLang := by
  have hlt : count < 2 ^ 30 := lt_of_succ_lt h
  rw [marks_eq_add hlt, marks_eq_add h]
  cases hasSpace <;> cases hasLang <;>
    simp only [if_true, Bool.false_eq_true, if_false] <;> omega

end MicroFramework.Xml
