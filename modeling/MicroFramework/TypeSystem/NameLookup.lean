import MicroFramework.TypeSystem.TypeNames

/-!
# Looking a type up by its name

The scan of a name splits it at the last dot in front of the first plus sign, or of the first pair
of brackets.  A name without a dot is not split at all: what stands behind the plus sign or in
brackets stays in it.
-/

namespace MicroFramework.TypeSystem

open List Option

/-! ### The scan -/

section scan

variable {arrays : Bool} {rest : List Char} {szPtr : ℕ} {lastDot : Option ℕ}

theorem scan_dot :
    scan arrays ('.' :: rest) szPtr lastDot = scan arrays rest (szPtr + 1) (some szPtr) := by
  rw [scan, if_pos rfl]

theorem scan_plus : scan arrays ('+' :: rest) szPtr lastDot = ⟨szPtr, lastDot, .subType⟩ := by
  rw [scan, if_neg (by decide), if_pos rfl]

theorem scan_brackets :
    scan true ('[' :: ']' :: rest) szPtr lastDot = ⟨szPtr, lastDot, .array⟩ := by
  rw [scan, if_neg (by decide), if_neg (by decide), if_pos ⟨rfl, rfl, rfl⟩]

theorem scan_pass {c : Char} (hdot : c ≠ '.') (hplus : c ≠ '+')
    (hbracket : ¬ (c = '[' ∧ rest.head? = some ']')) :
    scan arrays (c :: rest) szPtr lastDot = scan arrays rest (szPtr + 1) lastDot := by
  rw [scan, if_neg hdot, if_neg hplus, if_neg (fun h ↦ hbracket h.2)]

end scan

/-- A text the scan can pass. -/
structure Passable (text : List Char) : Prop where
  noPlus : '+' ∉ text
  noBrackets : ¬ ['[', ']'] <:+: text

namespace Passable

theorem nil : Passable [] := ⟨not_mem_nil, fun h ↦ absurd (eq_nil_of_infix_nil h) nofun⟩

variable {c : Char} {text : List Char}

theorem tail (h : Passable (c :: text)) : Passable text :=
  ⟨fun hmem ↦ h.noPlus (mem_cons_of_mem c hmem),
    fun hin ↦ h.noBrackets (hin.trans (suffix_cons c text).isInfix)⟩

theorem head_ne (h : Passable (c :: text)) : c ≠ '+' := fun hc ↦ h.noPlus (hc ▸ mem_cons_self)

theorem no_open {rest : List Char} (h : Passable (c :: text)) :
    ¬ (c = '[' ∧ (text ++ '.' :: rest).head? = some ']') := by
  rintro ⟨rfl, hhead⟩
  cases text with
  | nil => exact absurd hhead (by simp)
  | cons d text =>
    have hd : d = ']' := by simpa using hhead
    exact h.noBrackets ⟨[], text, by rw [hd]; rfl⟩

/-- One more character. -/
theorem cons (h : Passable text) (hc : c ≠ '+')
    (hopen : ¬ (c = '[' ∧ text.head? = some ']')) : Passable (c :: text) where
  noPlus hmem := by
    cases mem_cons.1 hmem with
    | inl heq => exact hc heq.symm
    | inr hin => exact h.noPlus hin
  noBrackets hin := by
    cases infix_cons_iff.1 hin with
    | inl hpre =>
      obtain ⟨more, hmore⟩ := hpre
      have hparts : '[' = c ∧ ']' :: more = text := List.cons.inj hmore
      exact hopen ⟨hparts.1.symm, by rw [← hparts.2]; rfl⟩
    | inr htext => exact h.noBrackets htext

end Passable

theorem scan_nameSpace (arrays : Bool) {nameSpace : List Char} (h : Passable nameSpace)
    (rest : List Char) (szPtr : ℕ) (lastDot : Option ℕ) :
    scan arrays (nameSpace ++ '.' :: rest) szPtr lastDot =
      scan arrays rest (szPtr + nameSpace.length + 1) (some (szPtr + nameSpace.length)) := by
  induction nameSpace generalizing szPtr lastDot with
  | nil => exact scan_dot
  | cons c nameSpace ih =>
    have hnext : szPtr + 1 + nameSpace.length = szPtr + (c :: nameSpace).length := by
      rw [length_cons]
      omega
    rw [← hnext, cons_append]
    by_cases hdot : c = '.'
    · rw [hdot, scan_dot]
      exact ih h.tail _ _
    · rw [scan_pass hdot h.head_ne h.no_open]
      exact ih h.tail _ _

/-- A name as the source has them: no dot, no plus sign, no bracket. -/
structure SimpleName (name : List Char) : Prop where
  noDot : '.' ∉ name
  noPlus : '+' ∉ name
  noBracket : '[' ∉ name

theorem scan_name (arrays : Bool) {name : List Char} (h : SimpleName name) (rest : List Char)
    (szPtr : ℕ) (lastDot : Option ℕ) :
    scan arrays (name ++ rest) szPtr lastDot = scan arrays rest (szPtr + name.length) lastDot := by
  induction name generalizing szPtr with
  | nil => rfl
  | cons c name ih =>
    have htail : SimpleName name :=
      ⟨fun hm ↦ h.noDot (mem_cons_of_mem c hm), fun hm ↦ h.noPlus (mem_cons_of_mem c hm),
        fun hm ↦ h.noBracket (mem_cons_of_mem c hm)⟩
    have hnext : szPtr + 1 + name.length = szPtr + (c :: name).length := by
      rw [length_cons]
      omega
    rw [cons_append, scan_pass (fun hc ↦ h.noDot (hc ▸ mem_cons_self))
      (fun hc ↦ h.noPlus (hc ▸ mem_cons_self))
      (fun hc ↦ h.noBracket (hc.1 ▸ mem_cons_self)), ih htail, hnext]

theorem passable_of_scan {text : List Char} {szPtr dot : ℕ} {lastDot : Option ℕ}
    (h : (scan true text szPtr lastDot).szPtrLastDot = some dot) :
    lastDot = some dot ∨
      szPtr ≤ dot ∧ text[dot - szPtr]? = some '.' ∧ Passable (text.take (dot - szPtr)) := by
  induction text generalizing szPtr lastDot with
  | nil => exact .inl h
  | cons c rest ih =>
    -- what the rest says of the dot, one place further to the left
    have hrest : ∀ {last : Option ℕ}, c ≠ '+' → ¬ (c = '[' ∧ rest.head? = some ']') →
        (scan true rest (szPtr + 1) last).szPtrLastDot = some dot →
        last = some dot ∨ szPtr ≤ dot ∧ (c :: rest)[dot - szPtr]? = some '.' ∧
          Passable ((c :: rest).take (dot - szPtr)) := by
      intro last hplus hopen hlast
      cases ih hlast with
      | inl hsame => exact .inl hsame
      | inr hfound =>
        obtain ⟨hle, hget, hpass⟩ := hfound
        have hsucc : dot - szPtr = (dot - (szPtr + 1)) + 1 := by omega
        rw [hsucc, getElem?_cons_succ, take_succ_cons]
        refine .inr ⟨by omega, hget, hpass.cons hplus fun hbr ↦ hopen ⟨hbr.1, ?_⟩⟩
        rw [head?_take] at hbr
        split at hbr
        · exact absurd hbr.2 nofun
        · exact hbr.2
    by_cases hdot : c = '.'
    · rw [hdot, scan_dot] at h
      cases hrest (hdot ▸ by decide) (fun hbr ↦ absurd (hdot.symm.trans hbr.1) (by decide)) h with
      | inl hsame =>
        have heq : szPtr = dot := some.inj hsame
        refine .inr ⟨heq.le, ?_⟩
        rw [heq, Nat.sub_self, hdot]
        exact ⟨rfl, Passable.nil⟩
      | inr hfound => exact .inr hfound
    · by_cases hplus : c = '+'
      · rw [hplus, scan_plus] at h
        exact .inl h
      · by_cases hopen : c = '[' ∧ rest.head? = some ']'
        · rw [scan, if_neg hdot, if_neg hplus, if_pos ⟨rfl, hopen⟩] at h
          exact .inl h
        · rw [scan_pass hdot hplus hopen] at h
          exact hrest hplus hopen h

/-! ### The type of a name and a namespace -/

variable {a : Assembly} {i : ℕ}

theorem Assembly.findTypeDef_spec {name nameSpace : List Char}
    (h : a.findTypeDef name nameSpace = some i) :
    ∃ td, a.types[i]? = some td ∧ td.enclosingType = none ∧ td.name = name ∧
      td.nameSpace = nameSpace := by
  have hfound := find?_some h
  obtain ⟨td, htd, hall⟩ := (any_eq_true _ _).1 hfound
  exact ⟨td, htd, of_decide_eq_true hall⟩

theorem Assembly.findTypeDef_isSome {td : TypeDef}
    (hi : a.types[i]? = some td) (htop : td.enclosingType = none) :
    (a.findTypeDef td.name td.nameSpace).isSome := by
  refine List.find?_isSome.2 ⟨i, mem_range.2 (List.getElem?_eq_some_iff.1 hi).1, ?_⟩
  rw [hi]
  exact decide_eq_true ⟨htop, rfl, rfl⟩

namespace LoadedAssemblies

variable {assemblies : LoadedAssemblies} {name nameSpace : List Char} {assm : Option Assembly}

variable {cls : TypeIndex}

theorem findByName_spec (h : findByName assemblies name nameSpace assm = some cls) :
    ∃ td, assemblies.typeDef cls = some td ∧ td.enclosingType = none ∧ td.name = name ∧
      td.nameSpace = nameSpace := by
  obtain ⟨k, -, hk⟩ := exists_of_findSome?_eq_some h
  obtain ⟨a, ha, hfound⟩ := bind_eq_some_iff.1 hk
  split at hfound
  · obtain ⟨i, hi, hcls⟩ := map_eq_some_iff.1 hfound
    obtain ⟨td, htd, hspec⟩ := Assembly.findTypeDef_spec hi
    refine ⟨td, ?_, hspec⟩
    rw [← hcls, typeDef, ha]
    exact htd
  · exact absurd hfound nofun

def Searched (assemblies : LoadedAssemblies) (cls : TypeIndex) (assm : Option Assembly) : Prop :=
  ∀ a ∈ assemblies[cls.assembly]?, assm.all a.isSameAssembly

variable {td : TypeDef}

theorem findByName_isSome (hcls : assemblies.typeDef cls = some td)
    (htop : td.enclosingType = none) (hassm : Searched assemblies cls assm) :
    (findByName assemblies td.name td.nameSpace assm).isSome := by
  obtain ⟨a, ha, hi⟩ := bind_eq_some_iff.1 hcls
  refine findSome?_isSome_iff.2 ⟨cls.assembly, mem_range.2 (List.getElem?_eq_some_iff.1 ha).1, ?_⟩
  rw [ha, bind_some, if_pos (hassm a ha), isSome_map]
  exact Assembly.findTypeDef_isSome hi htop

/-! ### Names that identify types -/

def fullName (assemblies : LoadedAssemblies) (cls : TypeIndex) : List Char :=
  (assemblies[cls.assembly]?.map (·.fullName cls.type)).getD []

structure DistinctlyNamed (assemblies : LoadedAssemblies) : Prop where
  distinct : ∀ cls cls', (assemblies.typeDef cls).isSome → (assemblies.typeDef cls').isSome →
    assemblies.fullName cls = assemblies.fullName cls' → cls = cls'
  simple : ∀ cls td, assemblies.typeDef cls = some td → SimpleName td.name

/-- The strings written for a type and for its array lead back to it, whatever buffer they were
written into. -/
def Identified (assemblies : LoadedAssemblies) (cls : TypeIndex) : Prop :=
  ∀ (size : ℕ) (assm : Option Assembly) (type array : TextBuffer),
    Searched assemblies cls assm →
    assemblies.buildTypeName cls ⟨[], size⟩ true false 0 = some type →
    assemblies.buildTypeName cls ⟨[], size⟩ true false 1 = some array →
    array.szBuffer.length < maxTypeNameLen →
    findTypeDef assemblies type.szBuffer assm = some cls ∧
      findReflection assemblies array.szBuffer assm = some (cls, 1)

theorem buildTypeName_eq (hcls : assemblies.typeDef cls = some td) (size levels : ℕ) :
    assemblies.buildTypeName cls ⟨[], size⟩ true false levels =
      queueStringToBuffer ⟨[], size⟩ (assemblies.fullName cls ++ brackets levels) := by
  obtain ⟨a, ha, hi⟩ := bind_eq_some_iff.1 hcls
  rw [buildTypeName, fullName, ha]
  exact Assembly.buildTypeName_eq levels ⟨[], size⟩ hi

theorem fullName_top (hcls : assemblies.typeDef cls = some td)
    (htop : td.enclosingType = none) : assemblies.fullName cls = td.qualifiedName := by
  obtain ⟨a, ha, hi⟩ := bind_eq_some_iff.1 hcls
  rw [fullName, ha]
  exact Assembly.fullName_top hi htop

theorem szBuffer_of_queue {size : ℕ} {szText : List Char} {buffer : TextBuffer}
    (h : queueStringToBuffer ⟨[], size⟩ szText = some buffer) : buffer.szBuffer = szText := by
  unfold queueStringToBuffer at h
  split at h
  · rw [← some.inj h]
    rfl
  · exact absurd h nofun

theorem findByName_eq (hnamed : DistinctlyNamed assemblies)
    (hcls : assemblies.typeDef cls = some td) (htop : td.enclosingType = none)
    (hassm : Searched assemblies cls assm) :
    findByName assemblies td.name td.nameSpace assm = some cls := by
  obtain ⟨found, hfound⟩ := isSome_iff_exists.1 (findByName_isSome hcls htop hassm)
  obtain ⟨td', htd', htop', hname, hnameSpace⟩ := findByName_spec hfound
  have hsame : assemblies.fullName found = assemblies.fullName cls := by
    rw [fullName_top htd' htop', fullName_top hcls htop, TypeDef.qualifiedName,
      TypeDef.qualifiedName, hname, hnameSpace]
  rw [hfound, hnamed.distinct found cls (htd' ▸ rfl) (hcls ▸ rfl) hsame]

theorem splitName_of_dot (nameSpace name tail : List Char) (scanEnd : ScanEnd) :
    splitName (nameSpace ++ '.' :: (name ++ tail))
        ⟨nameSpace.length + 1 + name.length, some nameSpace.length, scanEnd⟩ =
      (nameSpace, name) := by
  have hdrop : (nameSpace ++ '.' :: (name ++ tail)).drop (nameSpace.length + 1) = name ++ tail := by
    rw [← drop_drop, drop_left]
    rfl
  have hlength : nameSpace.length + 1 + name.length - (nameSpace.length + 1) = name.length := by
    omega
  calc _ = ((nameSpace ++ '.' :: (name ++ tail)).take nameSpace.length,
          ((nameSpace ++ '.' :: (name ++ tail)).drop (nameSpace.length + 1)).take
            (nameSpace.length + 1 + name.length - (nameSpace.length + 1))) := rfl
    _ = (nameSpace, name) := by rw [take_left, hdrop, hlength, take_left]

/-- A type outside all others with a namespace the scan can pass is found, and its array too. -/
theorem identified_of_passable (hnamed : DistinctlyNamed assemblies)
    (hcls : assemblies.typeDef cls = some td) (htop : td.enclosingType = none)
    (hns : td.nameSpace ≠ []) (hpass : Passable td.nameSpace) : Identified assemblies cls := by
  intro size assm type array hassm htype harray hfits
  have hfull : assemblies.fullName cls = td.nameSpace ++ '.' :: td.name := by
    rw [fullName_top hcls htop, TypeDef.qualifiedName, if_pos hns]
  rw [buildTypeName_eq hcls, hfull] at htype harray
  have hsimple := hnamed.simple cls td hcls
  have hplain : type.szBuffer = td.nameSpace ++ '.' :: (td.name ++ []) := by
    rw [szBuffer_of_queue htype, brackets, append_nil, append_nil]
  have hbrackets : array.szBuffer = td.nameSpace ++ '.' :: (td.name ++ ['[', ']']) := by
    rw [szBuffer_of_queue harray, append_assoc]
    rfl
  have hplainFits : type.szBuffer.length < maxTypeNameLen := by
    refine lt_of_le_of_lt ?_ hfits
    rw [hplain, hbrackets]
    simp
  constructor
  · have hscan : scan false type.szBuffer 0 none =
        ⟨td.nameSpace.length + 1 + td.name.length, some td.nameSpace.length, .finish⟩ := by
      rw [hplain, scan_nameSpace false hpass, scan_name false hsimple, Nat.zero_add]
      rfl
    rw [findTypeDef, if_pos hplainFits, hscan, findScanned, hplain, splitName_of_dot,
      findByName_eq hnamed hcls htop hassm]
    rfl
  · have hscan : scan true array.szBuffer 0 none =
        ⟨td.nameSpace.length + 1 + td.name.length, some td.nameSpace.length, .array⟩ := by
      rw [hbrackets, scan_nameSpace true hpass, scan_name true hsimple, Nat.zero_add,
        scan_brackets]
    unfold findReflection
    rw [if_pos hfits, hscan]
    simp only [findScanned]
    rw [hbrackets, splitName_of_dot, findByName_eq hnamed hcls htop hassm]
    rfl

theorem of_findReflection_array {szClass : List Char}
    (h : findReflection assemblies szClass assm = some (cls, 1)) :
    ∃ td, assemblies.typeDef cls = some td ∧ td.enclosingType = none ∧
      td.name = (splitName szClass (scan true szClass 0 none)).2 ∧
      td.nameSpace = (splitName szClass (scan true szClass 0 none)).1 := by
  unfold findReflection at h
  split at h
  · obtain ⟨found, hfound, heq⟩ := map_eq_some_iff.1 h
    have hcls : found = cls := (Prod.mk.inj heq).1
    have harray : (scan true szClass 0 none).scanEnd = .array := by
      by_contra hnot
      rw [if_neg hnot] at heq
      exact absurd (Prod.mk.inj heq).2 (by decide)
    unfold findScanned at hfound
    split at hfound
    · exact absurd hfound nofun
    · next res hres =>
      rw [if_neg (harray ▸ by decide)] at hfound
      rw [← hcls, ← some.inj hfound]
      exact findByName_spec hres
  · exact absurd h nofun

/-- The string of an array leads back to its type only through a namespace the scan can pass. -/
theorem passable_of_identified (hnamed : DistinctlyNamed assemblies)
    (hcls : assemblies.typeDef cls = some td)
    (hfits : (assemblies.fullName cls).length + 2 < maxTypeNameLen)
    (h : Identified assemblies cls) :
    td.enclosingType = none ∧ td.nameSpace ≠ [] ∧ Passable td.nameSpace := by
  -- a buffer that is large enough, and all assemblies searched
  let text := assemblies.fullName cls ++ brackets 1
  have htext : text.length < maxTypeNameLen := by
    rw [length_append]
    exact hfits
  have hname : (assemblies.fullName cls ++ brackets 0).length < maxTypeNameLen := by
    rw [brackets, append_nil]
    omega
  have hfound := (h maxTypeNameLen none ⟨_, _⟩ ⟨text, _⟩ (fun _ _ ↦ rfl)
    ((buildTypeName_eq hcls _ 0).trans (if_pos hname))
    ((buildTypeName_eq hcls _ 1).trans (if_pos htext)) htext).2
  obtain ⟨td', htd', htop, hsplit, hnameSpace⟩ := of_findReflection_array hfound
  obtain rfl : td' = td := some.inj (htd'.symm.trans hcls)
  have hsimple := hnamed.simple cls td' hcls
  have hqualified : text = td'.qualifiedName ++ ['[', ']'] := by
    rw [← fullName_top hcls htop]
    rfl
  refine ⟨htop, ?_⟩
  cases hdot : (scan true text 0 none).szPtrLastDot with
  | none =>
    -- without a dot the name is the whole text, brackets and all
    have hwhole : td'.name = text := by rw [hsplit, splitName, hdot]
    have hbracket : '[' ∈ td'.name := by
      rw [hwhole, hqualified]
      simp
    exact absurd hbracket hsimple.noBracket
  | some dot =>
    have htake : td'.nameSpace = text.take dot := by rw [hnameSpace, splitName, hdot]
    cases passable_of_scan hdot with
    | inl hnone => cases hnone
    | inr hpassed =>
      rw [Nat.sub_zero] at hpassed
      refine ⟨fun hempty ↦ ?_, htake ▸ hpassed.2.2⟩
      -- without a namespace there is no dot
      have hmem : '.' ∈ text := mem_of_getElem? hpassed.2.1
      rw [hqualified, TypeDef.qualifiedName, if_neg (fun hns ↦ hns hempty)] at hmem
      cases mem_append.1 hmem with
      | inl hin => exact hsimple.noDot hin
      | inr hin => exact absurd hin (by decide)

/-- A type and its array are found under the names written for them exactly when the type is outside
all others, in a namespace, and the namespace holds nothing that ends the scan. -/
theorem identified_iff (hnamed : DistinctlyNamed assemblies) {cls : TypeIndex}
    {td : TypeDef} (hcls : assemblies.typeDef cls = some td)
    (hfits : (assemblies.fullName cls).length + 2 < maxTypeNameLen) :
    Identified assemblies cls ↔
      td.enclosingType = none ∧ td.nameSpace ≠ [] ∧ Passable td.nameSpace :=
  ⟨passable_of_identified hnamed hcls hfits,
    fun h ↦ identified_of_passable hnamed hcls h.1 h.2.1 h.2.2⟩

/-! ### A single type -/

/-- One assembly with one type outside all others. -/
def singleType (td : TypeDef) (htop : td.enclosingType = none) : LoadedAssemblies :=
  [{ headerCRC := 0, assemblyCRC := 0, types := [td], nesting := fun _ ↦ 0,
     enclosed := fun i td' j hi hj ↦ by
       have htd' : td' = td := by
         cases i with
         | zero => exact (some.inj hi).symm
         | succ i => exact absurd hi nofun
       exact (some_ne_none j (hj.symm.trans ((congrArg _ htd').trans htop))).elim }]

variable {htop : td.enclosingType = none}

theorem typeDef_singleType {td' : TypeDef}
    (h : (singleType td htop).typeDef cls = some td') : cls = ⟨0, 0⟩ ∧ td' = td := by
  obtain ⟨a, ha, hi⟩ := bind_eq_some_iff.1 h
  obtain ⟨assembly, type⟩ := cls
  cases assembly with
  | succ k => exact absurd ha nofun
  | zero =>
    rw [← some.inj ha] at hi
    cases type with
    | succ i => exact absurd hi nofun
    | zero => exact ⟨rfl, (some.inj hi).symm⟩

theorem distinctlyNamed_singleType
    (hsimple : SimpleName td.name) : DistinctlyNamed (singleType td htop) where
  distinct cls cls' hcls hcls' _ := by
    obtain ⟨td', htd'⟩ := isSome_iff_exists.1 hcls
    obtain ⟨td'', htd''⟩ := isSome_iff_exists.1 hcls'
    rw [(typeDef_singleType htd').1, (typeDef_singleType htd'').1]
  simple cls td' hcls := (typeDef_singleType hcls).2 ▸ hsimple

def systemString : TypeDef :=
  ⟨['S', 't', 'r', 'i', 'n', 'g'], ['S', 'y', 's', 't', 'e', 'm'], none⟩

/-- The name of a type in a namespace leads back to it. -/
theorem identified_systemString : Identified (singleType systemString rfl) ⟨0, 0⟩ := by
  have hcls : (singleType systemString rfl).typeDef ⟨0, 0⟩ = some systemString := rfl
  refine (identified_iff (distinctlyNamed_singleType ⟨by decide, by decide, by decide⟩) hcls ?_).2
    ⟨rfl, by decide, by decide, by decide⟩
  rw [fullName_top hcls rfl]
  decide

def program : TypeDef :=
  ⟨['P', 'r', 'o', 'g', 'r', 'a', 'm'], [], none⟩

/-- The name of an array of a type without a namespace leads nowhere. -/
theorem not_identified_program :
    ¬ ∀ assemblies cls td, DistinctlyNamed assemblies → assemblies.typeDef cls = some td →
      (assemblies.fullName cls).length + 2 < maxTypeNameLen → Identified assemblies cls := by
  intro hall
  have hcls : (singleType program rfl).typeDef ⟨0, 0⟩ = some program := rfl
  have hname : (singleType program rfl).fullName ⟨0, 0⟩ = program.name := fullName_top hcls rfl
  have hidentified := hall (singleType program rfl) ⟨0, 0⟩ program
    (distinctlyNamed_singleType ⟨by decide, by decide, by decide⟩) hcls (by rw [hname]; decide)
  have hfound := (hidentified maxTypeNameLen none ⟨program.name, 249⟩
    ⟨program.name ++ ['[', ']'], 247⟩ (fun _ _ ↦ rfl)
    ((buildTypeName_eq hcls _ 0).trans (by rw [hname]; rfl))
    ((buildTypeName_eq hcls _ 1).trans (by rw [hname]; rfl)) (by decide)).2
  exact absurd hfound (by decide)

end LoadedAssemblies

end MicroFramework.TypeSystem
