import Mathlib.Data.List.DropRight
import MicroFramework.Library.ExceptRules
import MicroFramework.Library.TreeWalk

/-!
# Normalising paths

`Path.NormalizePath` checks the lengths of the raw string, splits it at backslashes and keeps a
stack of segments: a dot stays, two dots take the last segment off, and other parts are put on
without the spaces and dots at their end.  Against it stands the walk in the tree of names that the
parts describe.
-/

namespace MicroFramework.Paths

open Library List Option WalkStep

/-- A string, as its UTF-16 code units. -/
abbrev Text := List UInt16

/-- The exceptions of `NormalizePath` on a string that is not null. -/
inductive PathError where
  | argument
  | volumeNotFound
  | pathTooLong
  deriving DecidableEq, Repr

/-! ## Constants -/

def fsMaxPathLength : ℕ := 260 - 2
def fsMaxFilenameLength : ℕ := 256
def fsNameMaxLength : ℕ := 7 + 1
def maxPath : ℕ := 260

def directorySeparatorChar : UInt16 := 92
def dot : UInt16 := 46
def space : UInt16 := 32

/-- The characters `/ " < > | :` and those below the space. -/
def invalidPathChars : List UInt16 :=
  [47, 34, 60, 62, 124, 58] ++ (List.range 32).map UInt16.ofNat

/-- The characters `?` and `*`. -/
def illegalCharacters : List UInt16 := [63, 42]

/-! ## The code -/

/-- The number of backslashes at the start. -/
def leadingSeparators (path : Text) : ℕ :=
  (path.takeWhile (· = directorySeparatorChar)).length

def rootedPath (path : Text) : Bool := leadingSeparators path = 1

def serverPath (path : Text) : Bool := leadingSeparators path = 2 ∧ 2 < path.length

/-- Where the scan for the end of the namespace of a rooted path stops. -/
def namespaceEnd (path : Text) : ℕ :=
  1 + (((path.drop 1).take fsNameMaxLength).takeWhile (· ≠ directorySeparatorChar)).length

def checkLengths (path : Text) : Except PathError Unit :=
  if rootedPath path then
    if namespaceEnd path = 1 + fsNameMaxLength then .error .volumeNotFound
    else if fsMaxPathLength ≤ path.length - namespaceEnd path then .error .pathTooLong
    else .ok ()
  else if maxPath ≤ path.length then .error .pathTooLong
  else .ok ()

def trimEnd (part : Text) : Text := part.rdropWhile fun c ↦ c = space ∨ c = dot

/-- The body of the loop over the parts. -/
def addPart (pattern : Bool) (finalPathSegments : List Text) (part : Text) :
    Except PathError (List Text) :=
  if part.length = 0 then .ok finalPathSegments
  else if fsMaxFilenameLength ≤ part.length then .error .pathTooLong
  else if part.any (invalidPathChars.contains ·) then .error .argument
  else if !pattern && part.any (illegalCharacters.contains ·) then .error .argument
  else
    -- the dots and spaces at the start
    let scanned := part.takeWhile fun c ↦ c = dot ∨ c = space
    if part.length ≤ scanned.length then
      if scanned.contains space then .error .argument
      else if scanned.length = 1 then .ok finalPathSegments
      else if scanned.length = 2 then
        if finalPathSegments = [] then .error .argument
        else .ok finalPathSegments.dropLast
      else .error .argument
    else .ok (finalPathSegments ++ [trimEnd part])

def joinSegments (segments : List Text) : Text := [directorySeparatorChar].intercalate segments

def rootOf (path : Text) : Text :=
  if rootedPath path then [directorySeparatorChar]
  else if serverPath path then [directorySeparatorChar, directorySeparatorChar]
  else []

def normalizePath (path : Text) (pattern : Bool) : Except PathError Text :=
  if path.length = 0 then .error .argument
  else if 2 < leadingSeparators path then .error .argument
  else do
    checkLengths path
    let pathParts := path.splitOn directorySeparatorChar
    if pattern && 1 < pathParts.length then .error .argument
    else do
      let finalPathSegments ← pathParts.foldlM (addPart pattern) []
      if serverPath path && finalPathSegments = [] then .error .argument
      else .ok (rootOf path ++ joinSegments finalPathSegments)

/-! ## The walk that the parts describe -/

def stepOf (part : Text) : WalkStep Text :=
  if part = [] ∨ part = [dot] then .stay
  else if part = [dot, dot] then .up
  else .down (trimEnd part)

def steps (path : Text) : List (WalkStep Text) :=
  (path.splitOn directorySeparatorChar).map stepOf

/-- A part that does not throw by itself. -/
structure Accepted (part : Text) : Prop where
  length_lt : part.length < fsMaxFilenameLength
  valid : ∀ c ∈ part, c ∉ invalidPathChars ∧ c ∉ illegalCharacters
  named : (∃ c ∈ part, c ≠ dot ∧ c ≠ space) ∨ part = [] ∨ part = [dot] ∨ part = [dot, dot]

/-! ## One part -/

theorem takeWhile_eq_self_of_length_le {α : Type*} {p : α → Bool} {l : List α}
    (h : l.length ≤ (l.takeWhile p).length) : l.takeWhile p = l :=
  (List.takeWhile_prefix p).eq_of_length_le h

/-- The scan over dots and spaces stops before the end exactly if there is another character. -/
theorem scanned_lt_iff (part : Text) :
    ¬ part.length ≤ (part.takeWhile fun c ↦ c = dot ∨ c = space).length ↔
      ∃ c ∈ part, c ≠ dot ∧ c ≠ space := by
  rw [← not_iff_not, not_not]
  constructor
  · intro h hname
    obtain ⟨c, hc, hdot, hspace⟩ := hname
    have hall := takeWhile_eq_self_iff.mp (takeWhile_eq_self_of_length_le h) c hc
    simp [hdot, hspace] at hall
  · intro h
    have hall : ∀ c ∈ part, decide (c = dot ∨ c = space) = true := by
      intro c hc
      by_contra hc'
      rw [decide_eq_true_eq, not_or] at hc'
      exact h ⟨c, hc, hc'⟩
    rw [takeWhile_eq_self_iff.mpr hall]

variable {part path result s first rest : Text}

theorem eq_replicate_of_only_dots (h : ∀ c ∈ part, c = dot) : part = replicate part.length dot :=
  eq_replicate_iff.mpr ⟨rfl, h⟩

theorem any_contains_iff (part chars : Text) :
    part.any (chars.contains ·) = true ↔ ∃ c ∈ part, c ∈ chars := by
  simp

theorem stepOf_name (h : ∃ c ∈ part, c ≠ dot ∧ c ≠ space) : stepOf part = .down (trimEnd part) := by
  obtain ⟨c, hc, hdot, -⟩ := h
  have hshort : ¬ (part = [] ∨ part = [dot]) := by
    rintro (rfl | rfl)
    · exact not_mem_nil hc
    · exact hdot (mem_singleton.mp hc)
  have hup : part ≠ [dot, dot] := by
    rintro rfl
    rcases mem_cons.mp hc with h | h
    · exact hdot h
    · exact hdot (mem_singleton.mp h)
  rw [stepOf, if_neg hshort, if_neg hup]

variable {segments more : List Text}

theorem addPart_eq_ok_iff {segments' : List Text} :
    addPart false segments part = .ok segments' ↔
      Accepted part ∧ (stepOf part).move segments = some segments' := by
  by_cases hempty : part = []
  · -- an empty part is skipped
    subst hempty
    have haccepted : Accepted [] := ⟨by decide, fun c hc ↦ absurd hc not_mem_nil, .inr (.inl rfl)⟩
    simp [addPart, stepOf, move, haccepted]
  have hlength : part.length ≠ 0 := fun h ↦ hempty (length_eq_zero_iff.mp h)
  unfold addPart
  rw [if_neg hlength]
  by_cases hlong : fsMaxFilenameLength ≤ part.length
  · rw [if_pos hlong]
    exact iff_of_false (fun h ↦ by cases h) fun h ↦ absurd h.1.length_lt (not_lt.mpr hlong)
  rw [if_neg hlong]
  by_cases hinvalid : part.any (invalidPathChars.contains ·) = true
  · rw [if_pos hinvalid]
    obtain ⟨c, hc, hbad⟩ := (any_contains_iff _ _).mp hinvalid
    exact iff_of_false (fun h ↦ by cases h) fun h ↦ (h.1.valid c hc).1 hbad
  rw [if_neg hinvalid, Bool.not_false, Bool.true_and]
  by_cases hillegal : part.any (illegalCharacters.contains ·) = true
  · rw [if_pos hillegal]
    obtain ⟨c, hc, hbad⟩ := (any_contains_iff _ _).mp hillegal
    exact iff_of_false (fun h ↦ by cases h) fun h ↦ (h.1.valid c hc).2 hbad
  rw [if_neg hillegal]
  have hvalid : ∀ c ∈ part, c ∉ invalidPathChars ∧ c ∉ illegalCharacters := fun c hc ↦
    ⟨fun h ↦ hinvalid ((any_contains_iff _ _).mpr ⟨c, hc, h⟩),
      fun h ↦ hillegal ((any_contains_iff _ _).mpr ⟨c, hc, h⟩)⟩
  dsimp only
  by_cases hscan : part.length ≤ (part.takeWhile fun c ↦ c = dot ∨ c = space).length
  · have hself := takeWhile_eq_self_of_length_le hscan
    have hname : ¬ ∃ c ∈ part, c ≠ dot ∧ c ≠ space := fun h ↦ (scanned_lt_iff part).mpr h hscan
    rw [if_pos hscan, hself]
    by_cases hspace : part.contains space = true
    · -- dots and spaces
      rw [if_pos hspace]
      have hmem : space ∈ part := by simpa using hspace
      refine iff_of_false (fun h ↦ by cases h) fun h ↦ ?_
      rcases h.1.named with hn | rfl | rfl | rfl
      · exact hname hn
      · exact hempty rfl
      · exact absurd hmem (by decide)
      · exact absurd hmem (by decide)
    · rw [if_neg hspace]
      have hnot : space ∉ part := by simpa using hspace
      have hall : ∀ c ∈ part, c = dot := by
        intro c hc
        by_contra hdot
        exact hname ⟨c, hc, hdot, fun h ↦ hnot (h ▸ hc)⟩
      have hdots := eq_replicate_of_only_dots hall
      by_cases hone : part.length = 1
      · obtain rfl : part = [dot] := by rw [hdots, hone]; rfl
        have haccepted : Accepted [dot] := ⟨by decide, hvalid, .inr (.inr (.inl rfl))⟩
        simp [stepOf, move, haccepted]
      rw [if_neg hone]
      by_cases htwo : part.length = 2
      · obtain rfl : part = [dot, dot] := by rw [hdots, htwo]; rfl
        have haccepted : Accepted [dot, dot] := ⟨by decide, hvalid, .inr (.inr (.inr rfl))⟩
        have hup : stepOf [dot, dot] = .up := rfl
        rw [if_pos htwo, hup, move]
        by_cases hsegments : segments = []
        · rw [if_pos hsegments, if_pos hsegments]
          exact iff_of_false (fun h ↦ by cases h) fun h ↦ by cases h.2
        · rw [if_neg hsegments, if_neg hsegments, Except.ok.injEq, Option.some.injEq]
          exact (and_iff_right haccepted).symm
      · rw [if_neg htwo]
        refine iff_of_false (fun h ↦ by cases h) fun h ↦ ?_
        rcases h.1.named with hn | rfl | rfl | rfl
        · exact hname hn
        · exact hempty rfl
        · exact hone rfl
        · exact htwo rfl
  · have hname := (scanned_lt_iff part).mp hscan
    have haccepted : Accepted part := ⟨not_le.mp hlong, hvalid, .inl hname⟩
    rw [if_neg hscan, stepOf_name hname, move, Except.ok.injEq, Option.some.injEq]
    exact (and_iff_right haccepted).symm

/-- The loop over the parts is the walk that they describe, where each part is accepted. -/
theorem foldlM_addPart_eq_ok_iff {parts : List Text} {result : List Text} :
    parts.foldlM (addPart false) segments = .ok result ↔
      (∀ part ∈ parts, Accepted part) ∧ walk (parts.map stepOf) segments = some result := by
  induction parts generalizing segments with
  | nil =>
    rw [foldlM_nil, map_nil, walk, Option.some.injEq]
    constructor
    · intro h
      exact ⟨fun part hpart ↦ absurd hpart not_mem_nil, Except.ok.inj h⟩
    · exact fun h ↦ congrArg Except.ok h.2
  | cons part parts ih =>
    rw [foldlM_cons, map_cons, walk_cons, forall_mem_cons]
    constructor
    · intro h
      cases hpart : addPart false segments part with
      | error e =>
        rw [hpart] at h
        cases h
      | ok next =>
        rw [hpart] at h
        obtain ⟨haccepted, hmove⟩ := addPart_eq_ok_iff.mp hpart
        obtain ⟨hrest, hwalk⟩ := ih.mp h
        exact ⟨⟨haccepted, hrest⟩, next, hmove, hwalk⟩
    · rintro ⟨⟨haccepted, hrest⟩, next, hmove, hwalk⟩
      rw [addPart_eq_ok_iff.mpr ⟨haccepted, hmove⟩]
      exact ih.mpr ⟨hrest, hwalk⟩

/-! ## The function -/

theorem normalizePath_eq_ok_iff :
    normalizePath path false = .ok result ↔
      path ≠ [] ∧ leadingSeparators path ≤ 2 ∧ checkLengths path = .ok () ∧
        (∀ part ∈ path.splitOn directorySeparatorChar, Accepted part) ∧
          ∃ segments, walk (steps path) [] = some segments ∧
            (serverPath path = true → segments ≠ []) ∧
              result = rootOf path ++ joinSegments segments := by
  unfold normalizePath
  simp only [ite_eq_ok_iff, bind_eq_ok_iff, foldlM_addPart_eq_ok_iff, error_ne_ok, and_false,
    false_or, Bool.false_and, Bool.false_eq_true, not_false_eq_true, true_and, Except.ok.injEq]
  constructor
  · rintro ⟨hlength, hleading, u, hcheck, segments, ⟨haccepted, hwalk⟩, hserver, rfl⟩
    refine ⟨fun h ↦ hlength (length_eq_zero_iff.mpr h), not_lt.mp hleading, hcheck, haccepted,
      segments, hwalk, fun h hempty ↦ hserver ?_, rfl⟩
    rw [h, Bool.true_and]
    exact decide_eq_true hempty
  · rintro ⟨hne, hleading, hcheck, haccepted, segments, hwalk, hserver, rfl⟩
    refine ⟨fun h ↦ hne (length_eq_zero_iff.mp h), not_lt.mpr hleading, (), hcheck, segments,
      ⟨haccepted, hwalk⟩, fun h ↦ ?_, rfl⟩
    rw [Bool.and_eq_true, decide_eq_true_eq] at h
    exact hserver h.1 h.2

/-! ## Segments -/

structure Segment (s : Text) : Prop where
  ne_nil : s ≠ []
  ne_dot : s ≠ [dot]
  ne_dotdot : s ≠ [dot, dot]
  last : ∀ h : s ≠ [], s.getLast h ≠ space ∧ s.getLast h ≠ dot
  valid : ∀ c ∈ s, c ∉ invalidPathChars ∧ c ∉ illegalCharacters ∧ c ≠ directorySeparatorChar

theorem separator_not_mem_of_mem_splitOn :
    ∀ part ∈ path.splitOn directorySeparatorChar, directorySeparatorChar ∉ part := by
  induction path with
  | nil => simp
  | cons c path ih =>
    rw [splitOn_cons_eq_if_modifyHead]
    by_cases hc : c = directorySeparatorChar
    · rw [if_pos (beq_iff_eq.mpr hc), forall_mem_cons]
      exact ⟨not_mem_nil, ih⟩
    · rw [if_neg fun h ↦ hc (beq_iff_eq.mp h)]
      cases hsplit : path.splitOn directorySeparatorChar with
      | nil => exact absurd hsplit (splitOn_ne_nil _ _)
      | cons first parts =>
        rw [hsplit, forall_mem_cons] at ih
        rw [modifyHead_cons, forall_mem_cons]
        refine ⟨?_, ih.2⟩
        rw [mem_cons, not_or]
        exact ⟨fun h ↦ hc h.symm, ih.1⟩

theorem trimEnd_length_le (part : Text) : (trimEnd part).length ≤ part.length :=
  (List.rdropWhile_prefix _ _).length_le

/-- What is left of a name is a segment. -/
theorem segment_trimEnd (haccepted : Accepted part)
    (hseparator : directorySeparatorChar ∉ part) (hname : ∃ c ∈ part, c ≠ dot ∧ c ≠ space) :
    Segment (trimEnd part) := by
  have hne : trimEnd part ≠ [] := by
    intro h
    obtain ⟨c, hc, hdot, hspace⟩ := hname
    have hall := rdropWhile_eq_nil_iff.mp h c hc
    simp [hdot, hspace] at hall
  have hlast : ∀ h : trimEnd part ≠ [], (trimEnd part).getLast h ≠ space ∧
      (trimEnd part).getLast h ≠ dot := by
    intro h
    have hnot := rdropWhile_last_not _ _ h
    rw [decide_eq_true_eq, not_or] at hnot
    exact hnot
  refine ⟨hne, ?_, ?_, hlast, ?_⟩
  · intro h
    have hdot := (hlast hne).2
    simp [h] at hdot
  · intro h
    have hdot := (hlast hne).2
    simp [h] at hdot
  · intro c hc
    have hmem := (List.rdropWhile_prefix _ _).subset hc
    exact ⟨(haccepted.valid c hmem).1, (haccepted.valid c hmem).2, fun h ↦ hseparator (h ▸ hmem)⟩

theorem Segment.trimEnd_eq (h : Segment s) : trimEnd s = s := by
  rw [trimEnd, rdropWhile_eq_self_iff]
  intro hne
  rw [decide_eq_true_eq, not_or]
  exact h.last hne

theorem Segment.name (h : Segment s) : ∃ c ∈ s, c ≠ dot ∧ c ≠ space :=
  ⟨s.getLast h.ne_nil, getLast_mem h.ne_nil, (h.last h.ne_nil).2, (h.last h.ne_nil).1⟩

theorem Segment.stepOf_eq (h : Segment s) : stepOf s = .down s := by
  rw [stepOf_name h.name, h.trimEnd_eq]

/-- The names that the parts go down to are segments and no longer than a part. -/
theorem segments_of_walk (haccepted : ∀ part ∈ path.splitOn directorySeparatorChar, Accepted part)
    (hwalk : walk (steps path) [] = some segments) :
    ∀ s ∈ segments, Segment s ∧ Accepted s := by
  intro s hs
  rcases mem_of_walk hwalk s hs with hnil | hdown
  · exact absurd hnil not_mem_nil
  obtain ⟨part, hpart, hstep⟩ := mem_map.mp hdown
  have hacc := haccepted part hpart
  have hname : ∃ c ∈ part, c ≠ dot ∧ c ≠ space := by
    rcases hacc.named with hname | rfl | rfl | rfl
    · exact hname
    · cases hstep
    · cases hstep
    · cases hstep
  rw [stepOf_name hname] at hstep
  obtain rfl : trimEnd part = s := down.inj hstep
  have hsegment := segment_trimEnd hacc (separator_not_mem_of_mem_splitOn part hpart) hname
  refine ⟨hsegment, (trimEnd_length_le part).trans_lt hacc.length_lt, ?_, .inl hsegment.name⟩
  exact fun c hc ↦ ⟨(hsegment.valid c hc).1, (hsegment.valid c hc).2.1⟩

/-! ## Lengths -/

def spread (parts : List Text) : ℕ := (parts.map fun part ↦ part.length + 1).sum

theorem length_joinSegments_cons (first : Text) (rest : List Text) :
    (joinSegments (first :: rest)).length = first.length + spread rest := by
  induction rest generalizing first with
  | nil => simp [joinSegments, spread]
  | cons second rest ih =>
    have hrest := ih second
    rw [joinSegments] at hrest ⊢
    rw [intercalate_cons_cons, length_append, length_append, hrest, length_singleton]
    calc first.length + 1 + (second.length + spread rest)
        = first.length + (second.length + 1 + spread rest) := by omega
      _ = first.length + spread (second :: rest) := by rw [spread, spread, map_cons, sum_cons]

theorem splitOn_joinSegments (h : ∀ s ∈ segments, Segment s)
    (hne : segments ≠ []) : (joinSegments segments).splitOn directorySeparatorChar = segments :=
  splitOn_intercalate _ (fun s hs hmem ↦ ((h s hs).valid _ hmem).2.2 rfl) hne

section

variable (h : rest.splitOn directorySeparatorChar = first :: more)

include h

theorem length_eq_of_splitOn : rest.length = first.length + spread more := by
  rw [← length_joinSegments_cons, ← h, joinSegments, intercalate_splitOn]

theorem takeWhile_eq_of_splitOn : rest.takeWhile (· ≠ directorySeparatorChar) = first := by
  have hfirst : directorySeparatorChar ∉ first :=
    separator_not_mem_of_mem_splitOn first (h ▸ mem_cons_self)
  have hall : ∀ c ∈ first, decide (c ≠ directorySeparatorChar) = true := fun c hc ↦
    decide_eq_true fun heq ↦ hfirst (heq ▸ hc)
  have hrest : rest = joinSegments (first :: more) := by rw [← h, joinSegments, intercalate_splitOn]
  rw [hrest, joinSegments]
  cases more with
  | nil => rw [intercalate_singleton, takeWhile_eq_self_iff.mpr hall]
  | cons second more =>
    rw [intercalate_cons_cons, append_assoc, takeWhile_append_of_pos hall]
    simp

/-- The scan for the end of the namespace goes over the first part, up to its limit. -/
theorem namespaceEnd_cons :
    namespaceEnd (directorySeparatorChar :: rest) = 1 + min fsNameMaxLength first.length := by
  rw [namespaceEnd, drop_succ_cons, drop_zero, ← take_takeWhile,
    takeWhile_eq_of_splitOn h, length_take]

end

theorem checkLengths_rooted (hroot : rootedPath (directorySeparatorChar :: rest) = true)
    (h : rest.splitOn directorySeparatorChar = first :: more) :
    checkLengths (directorySeparatorChar :: rest) = .ok () ↔
      first.length < fsNameMaxLength ∧ spread more < fsMaxPathLength := by
  have hlength := length_eq_of_splitOn h
  rw [checkLengths, if_pos hroot, namespaceEnd_cons h, length_cons, hlength]
  by_cases hfirst : first.length < fsNameMaxLength
  · rw [if_neg (by omega), Nat.min_eq_right hfirst.le]
    by_cases hmore : spread more < fsMaxPathLength
    · rw [if_neg (by omega)]
      exact iff_of_true rfl ⟨hfirst, hmore⟩
    · rw [if_pos (by omega)]
      exact iff_of_false (fun h ↦ by cases h) fun h ↦ hmore h.2
  · rw [if_pos (by omega)]
    exact iff_of_false (fun h ↦ by cases h) fun h ↦ hfirst h.1

/-! ## Roots -/

theorem takeWhile_eq_nil_of_head? (h : rest.head? ≠ some directorySeparatorChar) :
    rest.takeWhile (· = directorySeparatorChar) = [] := by
  cases rest with
  | nil => rfl
  | cons c rest =>
    have hc : c ≠ directorySeparatorChar := fun heq ↦ h (congrArg some heq)
    rw [takeWhile_cons_of_neg (by simpa using hc)]

theorem takeWhile_separator (rest : Text) :
    (directorySeparatorChar :: rest).takeWhile (· = directorySeparatorChar) =
      directorySeparatorChar :: rest.takeWhile (· = directorySeparatorChar) :=
  takeWhile_cons_of_pos (decide_eq_true rfl)

theorem leadingSeparators_cons (rest : Text) :
    leadingSeparators (directorySeparatorChar :: rest) = leadingSeparators rest + 1 := by
  rw [leadingSeparators, takeWhile_separator, length_cons, leadingSeparators]

theorem leadingSeparators_eq_zero_iff :
    leadingSeparators path = 0 ↔ path.head? ≠ some directorySeparatorChar := by
  constructor
  · intro h hhead
    obtain ⟨rest, rfl⟩ := head?_eq_some_iff.mp hhead
    rw [leadingSeparators_cons] at h
    omega
  · intro h
    rw [leadingSeparators, takeWhile_eq_nil_of_head? h, length_nil]

theorem exists_eq_cons_of_leadingSeparators {n : ℕ} (h : leadingSeparators path = n + 1) :
    ∃ rest, path = directorySeparatorChar :: rest ∧ leadingSeparators rest = n := by
  have hhead : path.head? = some directorySeparatorChar := by
    by_contra hne
    rw [leadingSeparators_eq_zero_iff.mpr hne] at h
    cases h
  obtain ⟨rest, rfl⟩ := head?_eq_some_iff.mp hhead
  rw [leadingSeparators_cons] at h
  exact ⟨rest, rfl, Nat.succ.inj h⟩

theorem rootedPath_iff :
    rootedPath path = true ↔
      ∃ rest, path = directorySeparatorChar :: rest ∧ leadingSeparators rest = 0 := by
  rw [rootedPath, decide_eq_true_eq]
  constructor
  · exact exists_eq_cons_of_leadingSeparators
  · rintro ⟨rest, rfl, hrest⟩
    rw [leadingSeparators_cons, hrest]

theorem leadingSeparators_joinSegments (h : ∀ s ∈ segments, Segment s) :
    leadingSeparators (joinSegments segments) = 0 := by
  rw [leadingSeparators_eq_zero_iff]
  intro hhead
  cases segments with
  | nil => cases hhead
  | cons first rest =>
    obtain ⟨hne, -, -, -, hvalid⟩ := h first mem_cons_self
    obtain ⟨c, first, rfl⟩ := exists_cons_of_ne_nil hne
    have hc := (hvalid c mem_cons_self).2.2
    cases rest with
    | nil =>
      rw [joinSegments, intercalate_singleton] at hhead
      exact hc (some.inj hhead)
    | cons second rest =>
      rw [joinSegments, intercalate_cons_cons] at hhead
      exact hc (some.inj hhead)

/-! ## Normalising the result -/

theorem splitOn_separator_cons (rest : Text) :
    (directorySeparatorChar :: rest).splitOn directorySeparatorChar =
      [] :: rest.splitOn directorySeparatorChar := by
  rw [splitOn_cons_eq_if_modifyHead, if_pos (BEq.refl _)]

theorem steps_cons (rest : Text) :
    steps (directorySeparatorChar :: rest) = .stay :: steps rest := by
  rw [steps, splitOn_separator_cons]
  rfl

theorem walk_stay (steps : List (WalkStep Text)) (names : List Text) :
    walk (.stay :: steps) names = walk steps names :=
  rfl

theorem accepted_nil : Accepted [] := ⟨by decide, fun _ hc ↦ absurd hc not_mem_nil, .inr (.inl rfl)⟩

/-- The parts of segments put together are accepted and lead to the segments. -/
theorem joinSegments_spec (h : ∀ s ∈ segments, Segment s ∧ Accepted s) :
    (∀ part ∈ (joinSegments segments).splitOn directorySeparatorChar, Accepted part) ∧
      walk (steps (joinSegments segments)) [] = some segments := by
  by_cases hne : segments = []
  · subst hne
    refine ⟨fun part hpart ↦ ?_, rfl⟩
    obtain rfl := mem_singleton.mp hpart
    exact accepted_nil
  · rw [steps, splitOn_joinSegments (fun s hs ↦ (h s hs).1) hne]
    have hsteps : segments.map stepOf = segments.map down :=
      map_congr_left fun s hs ↦ (h s hs).1.stepOf_eq
    rw [hsteps, walk_map_down, nil_append]
    exact ⟨fun s hs ↦ (h s hs).2, rfl⟩

theorem cost_stepOf_le (part : Text) :
    cost (fun s ↦ s.length + 1) (stepOf part) ≤ part.length + 1 := by
  unfold stepOf
  split
  · exact Nat.zero_le _
  split
  · exact Nat.zero_le _
  · exact Nat.succ_le_succ (trimEnd_length_le part)

theorem sum_cost_le (parts : List Text) :
    ((parts.map stepOf).map (cost fun s ↦ s.length + 1)).sum ≤ spread parts := by
  induction parts with
  | nil => exact Nat.le_refl _
  | cons part parts ih =>
    rw [map_cons, map_cons, sum_cons, spread, map_cons, sum_cons]
    exact Nat.add_le_add (cost_stepOf_le part) ih

/-- The segments take no more room than the parts. -/
theorem spread_segments_le (hwalk : walk (steps rest) [] = some segments) :
    spread segments ≤ spread (rest.splitOn directorySeparatorChar) := by
  have hsum := sum_le_of_walk (fun s : Text ↦ s.length + 1) hwalk
  rw [map_nil, sum_nil, Nat.zero_add] at hsum
  exact hsum.trans (sum_cost_le _)

/-- The segments behind the first one take no more room than the parts behind the first one. -/
theorem spread_tail_le (h : rest.splitOn directorySeparatorChar = first :: more)
    (hwalk : walk (steps rest) [] = some segments) : spread segments.tail ≤ spread more := by
  rw [steps, h, map_cons] at hwalk
  obtain ⟨next, hmove, hmore⟩ := walk_cons.mp hwalk
  have hnext : next.tail = [] := by
    cases hstep : stepOf first with
    | stay =>
      rw [hstep] at hmove
      rw [← some.inj hmove, tail_nil]
    | up =>
      rw [hstep] at hmove
      cases hmove
    | down name =>
      rw [hstep] at hmove
      rw [← some.inj hmove]
      rfl
  have hsum := tail_sum_le_of_walk (fun s : Text ↦ s.length + 1) hmore
  rw [hnext, map_nil, sum_nil, Nat.zero_add] at hsum
  exact hsum.trans (sum_cost_le _)

/-- The result for a rooted path is normal exactly if its first segment is short enough for the name
of a namespace. -/
theorem normalizePath_rooted_iff (h : normalizePath path false = .ok result)
    (hroot : rootedPath path = true) :
    normalizePath result false = .ok result ↔
      ∀ first tail, walk (steps path) [] = some (first :: tail) →
        first.length < fsNameMaxLength := by
  obtain ⟨-, -, hcheck, haccepted, segments, hwalk, -, hresult⟩ := normalizePath_eq_ok_iff.mp h
  have hsegments := segments_of_walk haccepted hwalk
  obtain ⟨rest, rfl, -⟩ := rootedPath_iff.mp hroot
  rw [rootOf, if_pos hroot, singleton_append] at hresult
  have hroot' : rootedPath result = true :=
    rootedPath_iff.mpr ⟨_, hresult, leadingSeparators_joinSegments fun s hs ↦ (hsegments s hs).1⟩
  obtain ⟨hparts, hwalk'⟩ := joinSegments_spec hsegments
  rw [normalizePath_eq_ok_iff, hwalk]
  constructor
  · rintro ⟨-, -, hcheck', -⟩ first tail hfirst
    obtain rfl := some.inj hfirst
    have hsplit := splitOn_joinSegments (fun s hs ↦ (hsegments s hs).1) (cons_ne_nil first tail)
    rw [hresult] at hcheck' hroot'
    exact ((checkLengths_rooted hroot' hsplit).mp hcheck').1
  · intro hshort
    have hserver : serverPath result ≠ true := by
      rw [rootedPath, decide_eq_true_eq] at hroot'
      rw [serverPath, Ne, decide_eq_true_eq, hroot']
      exact fun h ↦ absurd h.1 (by decide)
    refine ⟨?_, ?_, ?_, ?_, segments, ?_, fun h ↦ absurd h hserver, ?_⟩
    · rw [hresult]
      exact cons_ne_nil _ _
    · rw [rootedPath, decide_eq_true_eq] at hroot'
      omega
    · -- the checks of the lengths
      rw [hresult] at hroot' ⊢
      obtain ⟨first, more, hsplit⟩ := exists_cons_of_ne_nil
        (splitOn_ne_nil directorySeparatorChar rest)
      have hmore := ((checkLengths_rooted hroot hsplit).mp hcheck).2
      have htail := spread_tail_le hsplit ((walk_stay _ _).symm.trans (steps_cons rest ▸ hwalk))
      cases segments with
      | nil => exact (checkLengths_rooted hroot' rfl).mpr ⟨by decide, by decide⟩
      | cons name names =>
        have hsplit' := splitOn_joinSegments (fun s hs ↦ (hsegments s hs).1)
          (cons_ne_nil name names)
        exact (checkLengths_rooted hroot' hsplit').mpr ⟨hshort name names rfl, htail.trans_lt hmore⟩
    · rw [hresult, splitOn_separator_cons, forall_mem_cons]
      exact ⟨accepted_nil, hparts⟩
    · rw [hresult, steps_cons, walk_stay, hwalk']
    · rw [rootOf, if_pos hroot', singleton_append, hresult]

theorem serverPath_iff :
    serverPath path = true ↔
      ∃ rest, path = directorySeparatorChar :: directorySeparatorChar :: rest ∧
        leadingSeparators rest = 0 ∧ rest ≠ [] := by
  rw [serverPath, decide_eq_true_eq]
  constructor
  · rintro ⟨hleading, hlength⟩
    obtain ⟨path, rfl, hone⟩ := exists_eq_cons_of_leadingSeparators hleading
    obtain ⟨rest, rfl, hzero⟩ := exists_eq_cons_of_leadingSeparators hone
    refine ⟨rest, rfl, hzero, ?_⟩
    rintro rfl
    exact absurd hlength (by decide)
  · rintro ⟨rest, rfl, hrest, hne⟩
    rw [leadingSeparators_cons, leadingSeparators_cons, hrest]
    have hpos := length_pos_iff.mpr hne
    exact ⟨rfl, by rw [length_cons, length_cons]; omega⟩

theorem rootedPath_of_serverPath (h : serverPath path = true) : ¬ rootedPath path = true := by
  rw [serverPath, decide_eq_true_eq] at h
  rw [rootedPath, decide_eq_true_eq, h.1]
  decide

theorem normalizePath_server (h : normalizePath path false = .ok result)
    (hserver : serverPath path = true) : normalizePath result false = .ok result := by
  obtain ⟨-, -, hcheck, haccepted, segments, hwalk, hne, hresult⟩ := normalizePath_eq_ok_iff.mp h
  have hsegments := segments_of_walk haccepted hwalk
  have hroot := rootedPath_of_serverPath hserver
  have hsome := hne hserver
  obtain ⟨rest, rfl, -, -⟩ := serverPath_iff.mp hserver
  rw [rootOf, if_neg hroot, if_pos hserver] at hresult
  have hjoin : joinSegments segments ≠ [] := by
    intro hnil
    obtain ⟨first, tail, rfl⟩ := exists_cons_of_ne_nil hsome
    have hlength := length_joinSegments_cons first tail
    rw [hnil, length_nil] at hlength
    exact (hsegments first mem_cons_self).1.ne_nil (length_eq_zero_iff.mp (by omega))
  have hserver' : serverPath result = true :=
    serverPath_iff.mpr ⟨_, hresult,
      leadingSeparators_joinSegments fun s hs ↦ (hsegments s hs).1, hjoin⟩
  have hroot' := rootedPath_of_serverPath hserver'
  obtain ⟨hparts, hwalk'⟩ := joinSegments_spec hsegments
  rw [normalizePath_eq_ok_iff]
  refine ⟨?_, ?_, ?_, ?_, segments, ?_, fun _ ↦ hsome, ?_⟩
  · rw [hresult]
    exact cons_ne_nil _ _
  · rw [serverPath, decide_eq_true_eq] at hserver'
    omega
  · -- the result is no longer than the path
    rw [steps_cons, walk_stay, steps_cons, walk_stay] at hwalk
    have hspread := spread_segments_le hwalk
    obtain ⟨first, more, hsplit⟩ := exists_cons_of_ne_nil
      (splitOn_ne_nil directorySeparatorChar rest)
    obtain ⟨name, names, rfl⟩ := exists_cons_of_ne_nil hsome
    have hrest := length_eq_of_splitOn hsplit
    have hjoined := length_joinSegments_cons name names
    rw [hsplit, spread, spread, map_cons, map_cons, sum_cons, sum_cons,
      ← spread, ← spread] at hspread
    have hshort :
        ¬ maxPath ≤ (directorySeparatorChar :: directorySeparatorChar :: rest).length := by
      intro hlong
      rw [checkLengths, if_neg hroot, if_pos hlong] at hcheck
      cases hcheck
    have hlength : result.length = (joinSegments (name :: names)).length + 2 := by
      rw [hresult]
      rfl
    rw [length_cons, length_cons] at hshort
    rw [checkLengths, if_neg hroot', if_neg (by omega)]
  · rw [hresult, cons_append, cons_append, nil_append, splitOn_separator_cons,
      splitOn_separator_cons, forall_mem_cons, forall_mem_cons]
    exact ⟨accepted_nil, accepted_nil, hparts⟩
  · rw [hresult, cons_append, cons_append, nil_append, steps_cons, walk_stay,
      steps_cons, walk_stay, hwalk']
  · rw [rootOf, if_neg hroot', if_pos hserver', hresult]

/-! ## Canonical and confined -/

structure Normal (path result : Text) : Prop where
  /-- The root marker of the path is followed by segments with a separator between them. -/
  shape : ∃ segments, (∀ s ∈ segments, Segment s) ∧
    result = path.takeWhile (· = directorySeparatorChar) ++ joinSegments segments
  /-- Up to any of the parts there are no more of two dots than there are names. -/
  confined : ∀ k, ((path.splitOn directorySeparatorChar).take k).countP (· = [dot, dot]) ≤
    ((path.splitOn directorySeparatorChar).take k).countP
      fun part ↦ part ≠ [] ∧ part ≠ [dot] ∧ part ≠ [dot, dot]
  /-- The result for a path with a root marker is the result for itself. -/
  stable : path.head? = some directorySeparatorChar → normalizePath result false = .ok result

theorem rootOf_eq (hleading : leadingSeparators path ≤ 2)
    (hbare : path ≠ [directorySeparatorChar, directorySeparatorChar]) :
    rootOf path = path.takeWhile (· = directorySeparatorChar) := by
  have hcases : leadingSeparators path = 0 ∨ leadingSeparators path = 1 ∨
      leadingSeparators path = 2 := by omega
  rcases hcases with h | h | h
  · have hroot : ¬ rootedPath path = true := by rw [rootedPath, decide_eq_true_eq, h]; decide
    have hserver : ¬ serverPath path = true := by rw [serverPath, decide_eq_true_eq, h]; simp
    rw [rootOf, if_neg hroot, if_neg hserver]
    exact (length_eq_zero_iff.mp h).symm
  · have hroot : rootedPath path = true := decide_eq_true h
    rw [rootOf, if_pos hroot]
    obtain ⟨rest, rfl, hrest⟩ := exists_eq_cons_of_leadingSeparators h
    rw [takeWhile_separator, length_eq_zero_iff.mp hrest]
  · obtain ⟨path, rfl, hone⟩ := exists_eq_cons_of_leadingSeparators h
    obtain ⟨rest, rfl, hzero⟩ := exists_eq_cons_of_leadingSeparators hone
    have hne : rest ≠ [] := by
      rintro rfl
      exact hbare rfl
    have hserver := serverPath_iff.mpr ⟨rest, rfl, hzero, hne⟩
    rw [rootOf, if_neg (rootedPath_of_serverPath hserver), if_pos hserver, takeWhile_separator,
      takeWhile_separator, length_eq_zero_iff.mp hzero]

theorem isUp_stepOf (part : Text) : (stepOf part).isUp = decide (part = [dot, dot]) := by
  by_cases hstay : part = [] ∨ part = [dot]
  · rw [stepOf, if_pos hstay]
    rcases hstay with rfl | rfl <;> rfl
  · by_cases hup : part = [dot, dot]
    · rw [stepOf, if_neg hstay, if_pos hup, hup]
      rfl
    · rw [stepOf, if_neg hstay, if_neg hup, decide_eq_false hup]
      rfl

theorem isDown_stepOf (part : Text) :
    (stepOf part).isDown = decide (part ≠ [] ∧ part ≠ [dot] ∧ part ≠ [dot, dot]) := by
  by_cases hstay : part = [] ∨ part = [dot]
  · rw [stepOf, if_pos hstay]
    rcases hstay with rfl | rfl <;> rfl
  · by_cases hup : part = [dot, dot]
    · rw [stepOf, if_neg hstay, if_pos hup, hup]
      rfl
    · rw [stepOf, if_neg hstay, if_neg hup]
      rw [not_or] at hstay
      exact (decide_eq_true ⟨hstay.1, hstay.2, hup⟩).symm

/-- Where `NormalizePath` succeeds, the result is as it should be if and only if the path is not two
bare backslashes, and with one backslash as root marker leads through a name short enough for a
namespace, if it leads to anything but the root. -/
theorem normalizePath_normal_iff {path result : Text} (h : normalizePath path false = .ok result) :
    Normal path result ↔
      path ≠ [directorySeparatorChar, directorySeparatorChar] ∧
        (leadingSeparators path = 1 → ∀ first tail, walk (steps path) [] = some (first :: tail) →
          first.length < fsNameMaxLength) := by
  obtain ⟨hne, hleading, hcheck, haccepted, segments, hwalk, -, hresult⟩ :=
    normalizePath_eq_ok_iff.mp h
  constructor
  · intro hnormal
    constructor
    · rintro rfl
      obtain rfl : result = [] := Except.ok.inj h.symm
      obtain ⟨segments, -, hshape⟩ := hnormal.shape
      cases hshape
    · intro hone
      have hroot : rootedPath path = true := decide_eq_true hone
      obtain ⟨rest, rfl, -⟩ := rootedPath_iff.mp hroot
      exact (normalizePath_rooted_iff h hroot).mp (hnormal.stable rfl)
  · rintro ⟨hbare, hshort⟩
    refine ⟨⟨segments, fun s hs ↦ (segments_of_walk haccepted hwalk s hs).1, ?_⟩, ?_, ?_⟩
    · rw [hresult, rootOf_eq hleading hbare]
    · intro k
      have hcount := countP_up_le hwalk k
      rw [length_nil, Nat.zero_add, steps, ← map_take, countP_map,
        countP_map] at hcount
      have hup : isUp ∘ stepOf = fun part ↦ decide (part = [dot, dot]) :=
        funext isUp_stepOf
      have hdown : isDown ∘ stepOf =
          fun part ↦ decide (part ≠ [] ∧ part ≠ [dot] ∧ part ≠ [dot, dot]) :=
        funext isDown_stepOf
      rwa [hup, hdown] at hcount
    · intro hhead
      by_cases hone : leadingSeparators path = 1
      · exact (normalizePath_rooted_iff h (decide_eq_true hone)).mpr (hshort hone)
      · have htwo : leadingSeparators path = 2 := by
          have hzero : leadingSeparators path ≠ 0 := fun hzero ↦
            leadingSeparators_eq_zero_iff.mp hzero hhead
          omega
        apply normalizePath_server h
        obtain ⟨path, rfl, hrest⟩ := exists_eq_cons_of_leadingSeparators htwo
        obtain ⟨rest, rfl, hzero⟩ := exists_eq_cons_of_leadingSeparators hrest
        exact serverPath_iff.mpr ⟨rest, rfl, hzero, fun hnil ↦ hbare (by rw [hnil])⟩

/-- The path `\a`. -/
theorem normalizePath_normal_a :
    Normal [92, 97] [92, 97] ↔ [92, 97] ≠ [directorySeparatorChar, directorySeparatorChar] ∧
      (leadingSeparators [92, 97] = 1 →
        ∀ first tail, walk (steps [92, 97]) [] = some (first :: tail) →
          first.length < fsNameMaxLength) :=
  normalizePath_normal_iff (by decide)

/-- Two bare backslashes are lost; and `\.\longlong` becomes `\longlong`, which throws. -/
theorem normalizePath_not_normal :
    (normalizePath [92, 92] false = .ok [] ∧ ¬ Normal [92, 92] []) ∧
      normalizePath [92, 46, 92, 108, 111, 110, 103, 108, 111, 110, 103] false =
        .ok [92, 108, 111, 110, 103, 108, 111, 110, 103] ∧
      ¬ Normal [92, 46, 92, 108, 111, 110, 103, 108, 111, 110, 103]
        [92, 108, 111, 110, 103, 108, 111, 110, 103] := by
  refine ⟨⟨by decide, fun h ↦ ?_⟩, by decide, fun h ↦ ?_⟩
  · obtain ⟨segments, -, hshape⟩ := h.shape
    cases hshape
  · exact absurd (h.stable rfl) (by decide)

end MicroFramework.Paths
