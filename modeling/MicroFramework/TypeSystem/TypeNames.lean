import Mathlib.Data.List.Infix

/-!
# Names of types

`BuildTypeName` writes the full name of a type; the two forms of `FindTypeDef` take a name apart by
hand, the second one with a look for an array.  Strings are lists of characters without the zero at
their end.
-/

namespace MicroFramework.TypeSystem

open List Option

/-! ### Types and assemblies -/

/-- `CLR_RECORD_TYPEDEF`, as far as its name is concerned. -/
structure TypeDef where
  name : List Char
  nameSpace : List Char
  enclosingType : Option ℕ
  deriving DecidableEq

/-- `CLR_RT_Assembly`.  A type is inside another one, and so on up to a type that is not. -/
structure Assembly where
  headerCRC : ℕ
  assemblyCRC : ℕ
  types : List TypeDef
  nesting : ℕ → ℕ
  enclosed : ∀ i td j, types[i]? = some td → td.enclosingType = some j →
    nesting j < nesting i ∧ j < types.length

/-- `CLR_RT_TypeDef_Index` -/
structure TypeIndex where
  assembly : ℕ
  type : ℕ
  deriving DecidableEq

abbrev LoadedAssemblies := List Assembly

/-- `MAXTYPENAMELEN` -/
def maxTypeNameLen : ℕ := 256

/-! ### Writing a name -/

/-- A text buffer: what was written, and the room left for more and the zero. -/
structure TextBuffer where
  szBuffer : List Char
  iBuffer : ℕ

def queueStringToBuffer (buffer : TextBuffer) (szText : List Char) : Option TextBuffer :=
  if szText.length < buffer.iBuffer then
    some ⟨buffer.szBuffer ++ szText, buffer.iBuffer - szText.length⟩
  else none

/-- The brackets of an array. -/
def queueLevels (buffer : TextBuffer) : ℕ → Option TextBuffer
  | 0 => some buffer
  | levels + 1 => (queueStringToBuffer buffer ['[', ']']).bind (queueLevels · levels)

namespace Assembly

def nestedSeparator (dot : Bool) : List Char :=
  if dot then ['.'] else ['+']

/-- The namespace and the dot behind it, if there is one. -/
def queueNameSpace (full : Bool) (td : TypeDef) (buffer : TextBuffer) : Option TextBuffer :=
  if full ∧ td.nameSpace ≠ [] then
    (queueStringToBuffer buffer td.nameSpace).bind (queueStringToBuffer · ['.'])
  else some buffer

/-- `BuildTypeName` of a type of an assembly, with the flags for the full name and for a dot in
front of nested types. -/
def buildTypeName (a : Assembly) (full dot : Bool) (i levels : ℕ) (buffer : TextBuffer) :
    Option TextBuffer :=
  match _h : a.types[i]? with
  | none => none
  | some td =>
    let outer :=
      match _hencloses : td.enclosingType with
      | some j =>
        if full then
          (a.buildTypeName full dot j 0 buffer).bind (queueStringToBuffer · (nestedSeparator dot))
        else some buffer
      | none => some buffer
    ((outer.bind (queueNameSpace full td)).bind (queueStringToBuffer · td.name)).bind
      (queueLevels · levels)
termination_by a.nesting i
decreasing_by exact (a.enclosed i td j _h _hencloses).1

/-! ### Finding a type in an assembly -/

/-- `FindTypeDef` by name and namespace: the first type outside all others with both. -/
def findTypeDef (a : Assembly) (name nameSpace : List Char) : Option ℕ :=
  (List.range a.types.length).find? fun i ↦
    a.types[i]?.any fun target ↦
      target.enclosingType = none ∧ target.name = name ∧ target.nameSpace = nameSpace

/-- `FindTypeDef` by name and scope: the first type inside the scope with the name. -/
def findNestedTypeDef (a : Assembly) (name : List Char) (scope : ℕ) : Option ℕ :=
  (List.range a.types.length).find? fun i ↦
    a.types[i]?.any fun target ↦ target.enclosingType = some scope ∧ target.name = name

def isSameAssembly (a b : Assembly) : Bool :=
  a.headerCRC = b.headerCRC ∧ a.assemblyCRC = b.assemblyCRC

def findNestedParts (a : Assembly) (rest : List Char) (scope : ℕ) : Option ℕ :=
  match a.findNestedTypeDef (rest.takeWhile (· ≠ '+')) scope with
  | none => none
  | some i =>
    match _h : rest.dropWhile (· ≠ '+') with
    | [] => some i
    | _ :: rest' => a.findNestedParts rest' i
termination_by rest.length
decreasing_by
  have hle := (dropWhile_suffix (l := rest) (fun c ↦ decide (c ≠ '+'))).length_le
  rw [_h, length_cons] at hle
  exact hle

end Assembly

/-! ### Taking a name apart -/

inductive ScanEnd
  | finish
  | subType
  | array
  deriving DecidableEq

/-- Where the scan ends, and the last dot before. -/
structure Scan where
  szPtr : ℕ
  szPtrLastDot : Option ℕ
  scanEnd : ScanEnd
  deriving DecidableEq

/-- The scan of a name up to its first nested part; the form for reflection ends at brackets too. -/
def scan (arrays : Bool) : List Char → ℕ → Option ℕ → Scan
  | [], szPtr, lastDot => ⟨szPtr, lastDot, .finish⟩
  | c :: rest, szPtr, lastDot =>
    if c = '.' then scan arrays rest (szPtr + 1) (some szPtr)
    else if c = '+' then ⟨szPtr, lastDot, .subType⟩
    else if arrays = true ∧ c = '[' ∧ rest.head? = some ']' then ⟨szPtr, lastDot, .array⟩
    else scan arrays rest (szPtr + 1) lastDot

def splitName (szClass : List Char) (s : Scan) : List Char × List Char :=
  match s.szPtrLastDot with
  | some dot => (szClass.take dot, (szClass.drop (dot + 1)).take (s.szPtr - (dot + 1)))
  | none => ([], szClass)

namespace LoadedAssemblies

variable (assemblies : LoadedAssemblies)

/-- `FindTypeDef` by name and namespace, in all assemblies or those that are the same as one. -/
def findByName (name nameSpace : List Char) (assm : Option Assembly) : Option TypeIndex :=
  (List.range assemblies.length).findSome? fun k ↦
    assemblies[k]?.bind fun a ↦
      if assm.all a.isSameAssembly then (a.findTypeDef name nameSpace).map (⟨k, ·⟩) else none

/-- The type of the scanned name and of the nested parts behind it. -/
def findScanned (szClass : List Char) (s : Scan) (assm : Option Assembly) : Option TypeIndex :=
  match findByName assemblies (splitName szClass s).2 (splitName szClass s).1 assm with
  | none => none
  | some res =>
    if s.scanEnd = .subType then
      assemblies[res.assembly]?.bind fun a ↦
        (a.findNestedParts (szClass.drop (s.szPtr + 1)) res.type).map (⟨res.assembly, ·⟩)
    else some res

def findTypeDef (szClass : List Char) (assm : Option Assembly) : Option TypeIndex :=
  if szClass.length < maxTypeNameLen then
    findScanned assemblies szClass (scan false szClass 0 none) assm
  else none

/-- `FindTypeDef` of a full name for reflection: the type and the number of array levels. -/
def findReflection (szClass : List Char) (assm : Option Assembly) : Option (TypeIndex × ℕ) :=
  if szClass.length < maxTypeNameLen then
    let s := scan true szClass 0 none
    (findScanned assemblies szClass s assm).map fun res ↦ (res, if s.scanEnd = .array then 1 else 0)
  else none

def typeDef (cls : TypeIndex) : Option TypeDef :=
  assemblies[cls.assembly]?.bind (·.types[cls.type]?)

def buildTypeName (cls : TypeIndex) (buffer : TextBuffer) (full dot : Bool) (levels : ℕ) :
    Option TextBuffer :=
  assemblies[cls.assembly]?.bind fun a ↦ a.buildTypeName full dot cls.type levels buffer

end LoadedAssemblies

/-! ### What a full name is -/

namespace TypeDef

def qualifiedName (td : TypeDef) : List Char :=
  if td.nameSpace ≠ [] then td.nameSpace ++ '.' :: td.name else td.name

end TypeDef

def brackets : ℕ → List Char
  | 0 => []
  | levels + 1 => '[' :: ']' :: brackets levels

/-- The full name of a type: those of the types around it, a plus sign behind each. -/
def Assembly.fullName (a : Assembly) (i : ℕ) : List Char :=
  match _h : a.types[i]? with
  | none => []
  | some td =>
    match _hencloses : td.enclosingType with
    | some j => a.fullName j ++ '+' :: td.qualifiedName
    | none => td.qualifiedName
termination_by a.nesting i
decreasing_by exact (a.enclosed i td j _h _hencloses).1

theorem queueStringToBuffer_bind (buffer : TextBuffer) (x y : List Char) :
    (queueStringToBuffer buffer x).bind (queueStringToBuffer · y) =
      queueStringToBuffer buffer (x ++ y) := by
  unfold queueStringToBuffer
  by_cases hx : x.length < buffer.iBuffer
  · rw [if_pos hx, bind_some]
    by_cases hxy : (x ++ y).length < buffer.iBuffer
    · have hy : y.length < buffer.iBuffer - x.length := by
        rw [length_append] at hxy
        omega
      rw [if_pos hxy, if_pos hy, append_assoc, length_append, Nat.sub_sub]
    · have hy : ¬ y.length < buffer.iBuffer - x.length := by
        rw [length_append] at hxy
        omega
      rw [if_neg hxy, if_neg hy]
  · have hxy : ¬ (x ++ y).length < buffer.iBuffer := by
      rw [length_append]
      omega
    rw [if_neg hx, if_neg hxy, bind_none]

/-- The brackets behind a text. -/
theorem queueLevels_bind (buffer : TextBuffer) (x : List Char) (levels : ℕ) :
    (queueStringToBuffer buffer x).bind (queueLevels · levels) =
      queueStringToBuffer buffer (x ++ brackets levels) := by
  induction levels generalizing x with
  | zero =>
    rw [brackets, append_nil]
    exact bind_fun_some _
  | succ levels ih =>
    calc (queueStringToBuffer buffer x).bind (queueLevels · (levels + 1))
        = ((queueStringToBuffer buffer x).bind (queueStringToBuffer · ['[', ']'])).bind
            (queueLevels · levels) := (bind_assoc _ _ _).symm
      _ = (queueStringToBuffer buffer (x ++ ['[', ']'])).bind (queueLevels · levels) := by
          rw [queueStringToBuffer_bind]
      _ = queueStringToBuffer buffer (x ++ brackets (levels + 1)) := by
          rw [ih, append_assoc]
          rfl

theorem queueNameSpace_bind (td : TypeDef) (buffer : TextBuffer) :
    (Assembly.queueNameSpace true td buffer).bind (queueStringToBuffer · td.name) =
      queueStringToBuffer buffer td.qualifiedName := by
  unfold Assembly.queueNameSpace TypeDef.qualifiedName
  by_cases hns : td.nameSpace = []
  · rw [if_neg (fun h ↦ h.2 hns), if_neg (fun h ↦ h hns)]
    rfl
  · rw [if_pos ⟨rfl, hns⟩, if_pos hns, queueStringToBuffer_bind, queueStringToBuffer_bind,
      append_assoc]
    rfl

namespace Assembly

variable {a : Assembly} {i : ℕ} {td : TypeDef}

theorem fullName_top (hi : a.types[i]? = some td) (htop : td.enclosingType = none) :
    a.fullName i = td.qualifiedName := by
  rw [fullName]
  split
  · next h => exact absurd (h.symm.trans hi) nofun
  · next td' h =>
    obtain rfl : td' = td := some.inj (h.symm.trans hi)
    split
    · next j he => exact absurd (he.symm.trans htop) nofun
    · rfl

theorem fullName_nested {j : ℕ} (hi : a.types[i]? = some td) (hj : td.enclosingType = some j) :
    a.fullName i = a.fullName j ++ '+' :: td.qualifiedName := by
  rw [fullName]
  split
  · next h => exact absurd (h.symm.trans hi) nofun
  · next td' h =>
    obtain rfl : td' = td := some.inj (h.symm.trans hi)
    split
    · next j' he =>
      obtain rfl : j' = j := some.inj (he.symm.trans hj)
      rfl
    · next he => exact absurd (he.symm.trans hj) nofun

/-- Writing the full name of a type outside all others. -/
theorem buildTypeName_top (levels : ℕ) (buffer : TextBuffer) (hi : a.types[i]? = some td)
    (htop : td.enclosingType = none) :
    a.buildTypeName true false i levels buffer =
      queueStringToBuffer buffer (td.qualifiedName ++ brackets levels) := by
  rw [buildTypeName]
  split
  · next h => exact absurd (h.symm.trans hi) nofun
  · next td' h =>
    obtain rfl : td' = td := some.inj (h.symm.trans hi)
    split
    · next j he => exact absurd (he.symm.trans htop) nofun
    · simp only [bind_some, queueNameSpace_bind, queueLevels_bind]

/-- Writing the full name of a type inside another one. -/
theorem buildTypeName_nested {j : ℕ} (levels : ℕ) (buffer : TextBuffer)
    (hi : a.types[i]? = some td) (hj : td.enclosingType = some j) :
    a.buildTypeName true false i levels buffer =
      (a.buildTypeName true false j 0 buffer).bind
        (queueStringToBuffer · ('+' :: td.qualifiedName ++ brackets levels)) := by
  rw [buildTypeName]
  split
  · next h => exact absurd (h.symm.trans hi) nofun
  · next td' h =>
    obtain rfl : td' = td := some.inj (h.symm.trans hi)
    split
    · next j' he =>
      obtain rfl : j' = j := some.inj (he.symm.trans hj)
      rw [if_pos rfl, bind_assoc, bind_assoc, bind_assoc]
      refine congrArg _ (funext fun b ↦ ?_)
      calc _ = (((queueStringToBuffer b ['+']).bind
              fun b ↦ queueStringToBuffer b td'.qualifiedName).bind (queueLevels · levels)) := by
            simp only [bind_assoc, nestedSeparator, ← queueNameSpace_bind]
            rfl
        _ = _ := by
            rw [queueStringToBuffer_bind, queueLevels_bind]
            rfl
    · next he => exact absurd (he.symm.trans hj) nofun

/-- What is written is the full name. -/
theorem buildTypeName_eq (levels : ℕ) (buffer : TextBuffer) (hi : a.types[i]? = some td) :
    a.buildTypeName true false i levels buffer =
      queueStringToBuffer buffer (a.fullName i ++ brackets levels) := by
  induction hn : a.nesting i using Nat.strong_induction_on generalizing i td levels buffer with
  | _ n ih =>
    cases he : td.enclosingType with
    | none => rw [buildTypeName_top levels buffer hi he, fullName_top hi he]
    | some j =>
      have hlt := a.enclosed i td j hi he
      have hj : a.types[j]? = some a.types[j] := getElem?_eq_getElem hlt.2
      have houter := ih (a.nesting j) (hn ▸ hlt.1) 0 buffer hj rfl
      rw [buildTypeName_nested levels buffer hi he, houter, queueStringToBuffer_bind,
        fullName_nested hi he, brackets, append_nil, append_assoc, cons_append]

end Assembly

end MicroFramework.TypeSystem
