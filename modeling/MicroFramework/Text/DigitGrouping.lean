import MicroFramework.Text.IntegerParsing

/-!
# Grouping digits

`Number.InsertGroupSeperators` cuts the integer digits of a formatted number into groups, from the
right, and puts a separator between them.
-/

namespace MicroFramework.Text

open List Option

/-- `NumberFormatInfo`, with the first group size apart: the array is not empty. -/
structure NumberFormatInfo where
  firstGroupSize : ℕ
  otherGroupSizes : List ℕ
  numberGroupSeparator : List UInt16

structure FormattedNumber where
  isNeg : Bool
  digits : List UInt16
  fraction : Option (List UInt16)
  digits_ne_nil : digits ≠ []
  isDigit : ∀ c ∈ digits, IsDigit c

namespace FormattedNumber

variable (x : FormattedNumber)

def sign : List UInt16 := if x.isNeg then [45] else []

def suffix : List UInt16 :=
  match x.fraction with
  | none => []
  | some fraction => 46 :: fraction

def text : List UInt16 := x.sign ++ x.digits ++ x.suffix

end FormattedNumber

/-! ## The code -/

/-- `Substring` of a start and a length; it throws where they are out of range. -/
def substring (text : List UInt16) (startIndex length : ℤ) : Option (List UInt16) :=
  if 0 ≤ startIndex ∧ 0 ≤ length ∧ startIndex + length ≤ text.length then
    some ((text.drop startIndex.toNat).take length.toNat)
  else none

/-- The loop over the groups, with the sizes behind the one in use; it ends with the result so far,
the size and the position.  There is no outcome when the fuel is used up or `Substring` throws. -/
def groupLoop (seperator digits : List UInt16) :
    ℕ → List UInt16 → ℕ → List ℕ → ℤ → Option (List UInt16 × ℕ × ℤ)
  | 0, _, _, _, _ => none
  | fuel + 1, result, size, later, pos =>
    if 0 < pos then
      (substring digits pos size).bind fun group ↦
        let result := seperator ++ group ++ result
        match later with
        | [] => groupLoop seperator digits fuel result size [] (pos - size)
        | next :: later =>
          if next = 0 then some (result, next, pos)
          else groupLoop seperator digits fuel result next later (pos - next)
    else some (result, size, pos)

def groupDigits (info : NumberFormatInfo) (fuel : ℕ) (digits : List UInt16) :
    Option (List UInt16) :=
  (groupLoop info.numberGroupSeparator digits fuel [] info.firstGroupSize info.otherGroupSizes
    (digits.length - info.firstGroupSize)).bind fun outcome ↦
      (substring digits 0 (outcome.2.1 + outcome.2.2)).map (· ++ outcome.1)

def insertGroupSeperators (info : NumberFormatInfo) (fuel : ℕ) (original : List UInt16) :
    Option (List UInt16) :=
  match original with
  | [] => none
  | first :: _ =>
    let digitsStartPos : ℕ := if first = 45 then 1 else 0
    let decimalPointPos := original.findIdx (· == 46)
    let sign : List UInt16 := if digitsStartPos = 1 then [45] else []
    let suffix := original.drop decimalPointPos
    (substring original digitsStartPos (decimalPointPos - digitsStartPos)).bind fun digits ↦
      (groupDigits info fuel digits).map fun result ↦ sign ++ result ++ suffix

/-! ## What it is for -/

/-- The digits are cut into groups, from the right: each has the next of the sizes, the last size is
used again and again, and what is left at a size of 0 is one group. -/
inductive Grouped : ℕ → List ℕ → List UInt16 → List (List UInt16) → Prop
  | last {size : ℕ} {later : List ℕ} {digits : List UInt16} :
      size = 0 ∨ digits.length ≤ size → Grouped size later digits [digits]
  | again {size : ℕ} {front group : List UInt16} {groups : List (List UInt16)} :
      size ≠ 0 → front ≠ [] → group.length = size → Grouped size [] front groups →
        Grouped size [] (front ++ group) (groups ++ [group])
  | next {size next : ℕ} {later : List ℕ} {front group : List UInt16}
      {groups : List (List UInt16)} :
      size ≠ 0 → front ≠ [] → group.length = size → Grouped next later front groups →
        Grouped size (next :: later) (front ++ group) (groups ++ [group])

/-- Grouping terminates with the digits in groups of the right sizes, separators between them and
everything else as it was. -/
def GroupsDigits (info : NumberFormatInfo) (x : FormattedNumber) : Prop :=
  ∃ groups, Grouped info.firstGroupSize info.otherGroupSizes x.digits groups ∧
    groups.flatten = x.digits ∧
    ∃ enough, ∀ fuel, enough ≤ fuel →
      insertGroupSeperators info fuel x.text =
        some (x.sign ++ info.numberGroupSeparator.intercalate groups ++ x.suffix)

/-! ## Groups -/

variable {groups : List (List UInt16)} {later : List ℕ}

theorem Grouped.ne_nil {size : ℕ} {digits : List UInt16} (h : Grouped size later digits groups) :
    groups ≠ [] := by
  cases h <;> simp

theorem Grouped.flatten {size : ℕ} {digits : List UInt16} (h : Grouped size later digits groups) :
    groups.flatten = digits := by
  induction h with
  | last => simp
  | again _ _ _ _ ih | next _ _ _ _ ih => rw [flatten_append, ih, flatten_singleton]

theorem Grouped.eq_singleton {digits : List UInt16} (h : Grouped 0 later digits groups) :
    groups = [digits] := by
  cases h with
  | last => rfl
  | again hsize | next hsize => exact absurd rfl hsize

variable {α : Type*}

theorem intercalate_nil_left (groups : List (List α)) :
    ([] : List α).intercalate groups = groups.flatten := by
  induction groups with
  | nil => rfl
  | cons first groups ih =>
    cases groups with
    | nil => simp
    | cons second groups =>
      rw [intercalate_cons_cons, ih]
      simp

theorem intercalate_concat (seperator : List α) {groups : List (List α)}
    (h : groups ≠ []) (group : List α) :
    seperator.intercalate (groups ++ [group]) = seperator.intercalate groups ++ seperator ++ group := by
  induction groups with
  | nil => exact absurd rfl h
  | cons first groups ih =>
    cases groups with
    | nil => simp [List.intercalate]
    | cons second groups =>
      have hrest := ih (by simp)
      simp only [cons_append, intercalate_cons_cons, append_assoc] at hrest ⊢
      rw [hrest]

theorem length_flatten_le_intercalate (seperator : List α) (groups : List (List α)) :
    groups.flatten.length ≤ (seperator.intercalate groups).length := by
  induction groups with
  | nil => simp
  | cons first groups ih =>
    cases groups with
    | nil => simp
    | cons second groups =>
      simp only [flatten_cons, length_append, intercalate_cons_cons] at ih ⊢
      omega

/-! ## The loop -/

section Loop

variable (seperator digits : List UInt16)

theorem substring_zero {count : ℕ} (h : count ≤ digits.length) :
    substring digits 0 count = some (digits.take count) := by
  unfold substring
  rw [if_pos (by omega)]
  simp

/-- What the loop leaves to do: the digits in front of `position`, `size` more, are put before the
result. -/
def Delivers (fuel : ℕ) (result : List UInt16) (size : ℕ) (later : List ℕ) (pos : ℤ)
    (text : List UInt16) : Prop :=
  ∃ outcome, groupLoop seperator digits fuel result size later pos = some outcome ∧
    (substring digits 0 (outcome.2.1 + outcome.2.2)).map (· ++ outcome.1) = some (text ++ result)

/-- From a size that is not 0, the loop cuts the digits before `count` into groups. -/
theorem groupLoop_delivers {size : ℕ} (hsize : size ≠ 0) (later : List ℕ) {count : ℕ}
    (hcount : count ≤ digits.length) (result : List UInt16) :
    ∃ groups, Grouped size later (digits.take count) groups ∧
      ∃ enough, ∀ fuel, enough ≤ fuel →
        Delivers seperator digits fuel result size later (count - size)
          (seperator.intercalate groups) := by
  induction count using Nat.strong_induction_on generalizing size later result with
  | _ count ih =>
    by_cases hlast : count ≤ size
    · refine ⟨[digits.take count], .last (.inr ?_), 1, ?_⟩
      · rw [length_take]
        omega
      · intro fuel hfuel
        obtain ⟨fuel, rfl⟩ := Nat.exists_eq_add_of_le' hfuel
        refine ⟨(result, size, count - size), ?_, ?_⟩
        · rw [groupLoop, if_neg (by omega)]
        · have hsum : (size : ℤ) + (count - size) = count := by omega
          rw [hsum, substring_zero digits hcount]
          simp
    · have hfront : digits.take count =
          digits.take (count - size) ++ (digits.drop (count - size)).take size := by
        rw [← take_add, Nat.sub_add_cancel (by omega)]
      have hgroup : substring digits (count - size : ℤ) size =
          some ((digits.drop (count - size)).take size) := by
        have hpos : ((count : ℤ) - size).toNat = count - size := by omega
        unfold substring
        rw [if_pos (by omega), hpos, Int.toNat_natCast]
      have hlength : ((digits.drop (count - size)).take size).length = size := by
        rw [length_take, length_drop]
        omega
      have hne : digits.take (count - size) ≠ [] := by
        rw [ne_eq, ← length_eq_zero_iff, length_take]
        omega
      have hpos : (0 : ℤ) < count - size := by omega
      have hcast : ((count - size : ℕ) : ℤ) = count - size := by omega
      -- the group is put before the result, and the rest is cut by the next size
      set group := (digits.drop (count - size)).take size with hdef
      cases later with
      | nil =>
        obtain ⟨groups, hgroups, enough, hrun⟩ := ih (count - size) (by omega) hsize []
          (by omega) (seperator ++ group ++ result)
        refine ⟨groups ++ [group], hfront ▸ .again hsize hne hlength hgroups, enough + 1, ?_⟩
        intro fuel hfuel
        obtain ⟨fuel, rfl⟩ := Nat.exists_eq_add_of_le' hfuel
        obtain ⟨outcome, hloop, htext⟩ := hrun (fuel + enough) (by omega)
        refine ⟨outcome, ?_, ?_⟩
        · rw [← Nat.add_assoc, groupLoop, if_pos hpos, hgroup, bind_some, ← hcast]
          exact hloop
        · rw [htext, intercalate_concat _ hgroups.ne_nil]
          simp
      | cons next later =>
        by_cases hnext : next = 0
        · refine ⟨[digits.take (count - size)] ++ [group],
            hfront ▸ .next hsize hne hlength (.last (.inl hnext)), 1, ?_⟩
          intro fuel hfuel
          obtain ⟨fuel, rfl⟩ := Nat.exists_eq_add_of_le' hfuel
          refine ⟨(seperator ++ group ++ result, next, count - size), ?_, ?_⟩
          · rw [groupLoop, if_pos hpos, hgroup, bind_some]
            exact if_pos hnext
          · have hsum : (next : ℤ) + (count - size) = (count - size : ℕ) := by omega
            rw [hsum, substring_zero digits (by omega)]
            simp [List.intercalate]
        · obtain ⟨groups, hgroups, enough, hrun⟩ := ih (count - size) (by omega) hnext later
            (by omega) (seperator ++ group ++ result)
          refine ⟨groups ++ [group], hfront ▸ .next hsize hne hlength hgroups, enough + 1, ?_⟩
          intro fuel hfuel
          obtain ⟨fuel, rfl⟩ := Nat.exists_eq_add_of_le' hfuel
          obtain ⟨outcome, hloop, htext⟩ := hrun (fuel + enough) (by omega)
          refine ⟨outcome, ?_, ?_⟩
          · rw [← Nat.add_assoc, groupLoop, if_pos hpos, hgroup, bind_some, ← hcast]
            exact (if_neg hnext).trans hloop
          · rw [htext, intercalate_concat _ hgroups.ne_nil]
            simp

end Loop

/-! ## A first size of 0 -/

section ZeroSize

variable (seperator : List UInt16) {digits : List UInt16}

/-- With 0 as the only size, the position never moves. -/
theorem groupLoop_zero (hdigits : digits ≠ []) (fuel : ℕ) (result : List UInt16) :
    groupLoop seperator digits fuel result 0 [] digits.length = none := by
  have hpos : (0 : ℤ) < digits.length := by
    have hlength := length_pos_of_ne_nil hdigits
    omega
  have hgroup : substring digits digits.length (0 : ℕ) = some [] := by
    unfold substring
    rw [if_pos (by omega)]
    simp
  induction fuel generalizing result with
  | zero => rfl
  | succ fuel ih =>
    rw [groupLoop, if_pos hpos, hgroup, bind_some]
    have hstay : (digits.length : ℤ) - (0 : ℕ) = digits.length := by omega
    rw [hstay]
    exact ih _

theorem groupDigits_zero (hdigits : digits ≠ []) (fuel : ℕ) :
    groupDigits ⟨0, [], seperator⟩ fuel digits = none := by
  have hstart : (digits.length : ℤ) - (0 : ℕ) = digits.length := by omega
  unfold groupDigits
  simp only [hstart, groupLoop_zero seperator hdigits, bind_none]

/-- With 0 in front of other sizes, a separator is put behind the digits, which are then cut into
groups by the other sizes. -/
theorem groupDigits_zero_next (hdigits : digits ≠ []) (next : ℕ) (later : List ℕ) :
    ∃ groups, groups.flatten = digits ∧ ∃ enough, ∀ fuel, enough ≤ fuel →
      groupDigits ⟨0, next :: later, seperator⟩ fuel digits =
        some (seperator.intercalate groups ++ seperator) := by
  have hpos : (0 : ℤ) < digits.length := by
    have hlength := length_pos_of_ne_nil hdigits
    omega
  have hgroup : substring digits digits.length (0 : ℕ) = some [] := by
    unfold substring
    rw [if_pos (by omega)]
    simp
  have hstart : (digits.length : ℤ) - (0 : ℕ) = digits.length := by omega
  unfold groupDigits
  simp only [hstart]
  by_cases hnext : next = 0
  · refine ⟨[digits], by simp, 1, ?_⟩
    intro fuel hfuel
    obtain ⟨fuel, rfl⟩ := Nat.exists_eq_add_of_le' hfuel
    rw [groupLoop, if_pos hpos, hgroup, bind_some]
    simp only [if_pos hnext, bind_some]
    have hsum : (next : ℤ) + digits.length = digits.length := by omega
    rw [hsum, substring_zero digits (le_refl _)]
    simp
  · obtain ⟨groups, hgroups, enough, hrun⟩ :=
      groupLoop_delivers seperator digits hnext later (le_refl digits.length)
        (seperator ++ [] ++ [])
    rw [take_length] at hgroups
    refine ⟨groups, hgroups.flatten, enough + 1, ?_⟩
    intro fuel hfuel
    obtain ⟨fuel, rfl⟩ := Nat.exists_eq_add_of_le' hfuel
    obtain ⟨outcome, hloop, htext⟩ := hrun (fuel + enough) (by omega)
    rw [← Nat.add_assoc, groupLoop, if_pos hpos, hgroup, bind_some]
    simp only [if_neg hnext, hloop, bind_some, htext]
    simp

end ZeroSize

/-! ## The exact condition -/

/-- The decimal point is found behind the sign and the digits, or not at all. -/
theorem findIdx_text (x : FormattedNumber) :
    x.text.findIdx (· == 46) = x.sign.length + x.digits.length := by
  have hfront : ∀ c ∈ x.sign ++ x.digits, (c == 46) = false := by
    intro c hc
    rw [beq_eq_false_iff_ne]
    rintro rfl
    rcases mem_append.mp hc with hsign | hdigit
    · unfold FormattedNumber.sign at hsign
      split at hsign <;> simp at hsign
    · exact absurd (x.isDigit 46 hdigit) (by decide)
  have hsuffix : x.suffix.findIdx (· == 46) = 0 := by
    unfold FormattedNumber.suffix
    split <;> simp [findIdx_cons]
  rw [FormattedNumber.text, findIdx_append, findIdx_eq_length_of_false hfront,
    if_neg (lt_irrefl _), hsuffix, length_append, Nat.zero_add]

/-- Sign, digits and fraction are found where they are. -/
theorem insertGroupSeperators_text (info : NumberFormatInfo) (fuel : ℕ) (x : FormattedNumber) :
    insertGroupSeperators info fuel x.text =
      (groupDigits info fuel x.digits).map fun result ↦ x.sign ++ result ++ x.suffix := by
  obtain ⟨first, rest, htext, hfirst⟩ : ∃ first rest, x.text = first :: rest ∧
      (if first = 45 then 1 else 0) = x.sign.length := by
    obtain ⟨c, digits, hdigits⟩ := exists_cons_of_ne_nil x.digits_ne_nil
    cases hneg : x.isNeg with
    | true => exact ⟨45, x.digits ++ x.suffix, by simp [FormattedNumber.text,
        FormattedNumber.sign, hneg], by simp [FormattedNumber.sign, hneg]⟩
    | false =>
      have hc : c ≠ 45 := by
        rintro rfl
        exact absurd (x.isDigit 45 (by simp [hdigits])) (by decide)
      exact ⟨c, digits ++ x.suffix, by simp [FormattedNumber.text, FormattedNumber.sign, hneg,
        hdigits], by simp [FormattedNumber.sign, hneg, hc]⟩
  have hpoint := findIdx_text x
  have hsign : (if x.sign.length = 1 then [45] else []) = x.sign := by
    unfold FormattedNumber.sign
    split <;> rfl
  have hdrop : x.text.drop (x.sign.length + x.digits.length) = x.suffix := by
    rw [FormattedNumber.text, ← length_append, drop_left]
  have hdigits : substring x.text x.sign.length
      ((x.sign.length + x.digits.length : ℕ) - x.sign.length) = some x.digits := by
    have hlength : x.text.length = x.sign.length + x.digits.length + x.suffix.length := by
      simp [FormattedNumber.text, Nat.add_assoc]
    have hcount : (((x.sign.length + x.digits.length : ℕ) : ℤ) - x.sign.length).toNat =
        x.digits.length := by omega
    unfold substring
    rw [if_pos (by omega), hcount, Int.toNat_natCast, FormattedNumber.text, append_assoc,
      drop_left, take_left]
  unfold insertGroupSeperators
  rw [htext] at hpoint hdrop hdigits ⊢
  simp only [hfirst, hpoint, hsign, hdrop]
  rw [hdigits, bind_some]

/-- Digits are grouped, for every number, if and only if the first size is not 0, or the separator is
empty and there are other sizes. -/
theorem groupsDigits_iff (info : NumberFormatInfo) (x : FormattedNumber) :
    GroupsDigits info x ↔
      info.firstGroupSize ≠ 0 ∨ info.numberGroupSeparator = [] ∧ info.otherGroupSizes ≠ [] := by
  by_cases hfirst : info.firstGroupSize = 0
  · obtain ⟨first, others, seperator⟩ := info
    obtain rfl : first = 0 := hfirst
    simp only [ne_eq, not_true_eq_false, false_or]
    constructor
    · rintro ⟨groups, hgroups, _, enough, hrun⟩
      have hresult := hrun enough (le_refl enough)
      rw [hgroups.eq_singleton, intercalate_singleton, insertGroupSeperators_text,
        map_eq_some_iff] at hresult
      obtain ⟨result, hgroup, hresult⟩ := hresult
      cases others with
      | nil =>
        rw [groupDigits_zero seperator x.digits_ne_nil] at hgroup
        cases hgroup
      | cons next later =>
        refine ⟨?_, by simp⟩
        obtain ⟨groups', hflatten, enough', hrun'⟩ :=
          groupDigits_zero_next seperator x.digits_ne_nil next later
        have hboth := hrun (enough + enough') (by omega)
        rw [hgroups.eq_singleton, intercalate_singleton, insertGroupSeperators_text,
          hrun' _ (by omega), map_some, Option.some.injEq] at hboth
        have htext : seperator.intercalate groups' ++ seperator = x.digits :=
          append_cancel_left (append_cancel_right hboth)
        have hlength := congrArg List.length htext
        have hle := length_flatten_le_intercalate seperator groups'
        rw [hflatten] at hle
        rw [length_append] at hlength
        exact length_eq_zero_iff.mp (by omega)
    · rintro ⟨rfl, hothers⟩
      obtain ⟨next, later, rfl⟩ := exists_cons_of_ne_nil hothers
      obtain ⟨groups, hflatten, enough, hrun⟩ := groupDigits_zero_next [] x.digits_ne_nil next later
      refine ⟨[x.digits], .last (.inl rfl), by simp, enough, ?_⟩
      intro fuel hfuel
      rw [insertGroupSeperators_text, hrun fuel hfuel, intercalate_nil_left, hflatten,
        intercalate_singleton]
      simp
  · simp only [ne_eq, hfirst, not_false_eq_true, true_or, iff_true]
    obtain ⟨groups, hgroups, enough, hrun⟩ :=
      groupLoop_delivers info.numberGroupSeparator x.digits hfirst info.otherGroupSizes
        (le_refl x.digits.length) []
    rw [take_length] at hgroups
    refine ⟨groups, hgroups, hgroups.flatten, enough, ?_⟩
    intro fuel hfuel
    obtain ⟨outcome, hloop, htext⟩ := hrun fuel hfuel
    rw [insertGroupSeperators_text, groupDigits, hloop, bind_some, htext]
    simp

/-- With 0 as the only size, even a single digit is never done. -/
theorem groups_never_done : ¬ ∀ info x, GroupsDigits info x := by
  intro h
  obtain ⟨groups, _, _, enough, hrun⟩ := h ⟨0, [], [44]⟩ ⟨false, [49], none, by decide,
    forall_mem_singleton.mpr (by decide)⟩
  have hresult := hrun enough (le_refl enough)
  rw [insertGroupSeperators_text, groupDigits_zero [44] (by decide)] at hresult
  cases hresult

end MicroFramework.Text
