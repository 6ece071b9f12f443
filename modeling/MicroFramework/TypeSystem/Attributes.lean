import MicroFramework.Library.Listing
import Mathlib.Data.Nat.Bitwise

/-!
# Enumerating the attributes of a definition

An assembly has one table of attribute records.  A record names its owner by the number of a table
and an index in it, and an enumerator compares both with one key.  A record's constructor is a
method of the same assembly, or a method reference that was resolved when the assembly was loaded.
-/

namespace MicroFramework.TypeSystem.Attributes

open Library List Nat Option

/-! ### The tables -/

def tblTypeDef : UInt16 := 4
def tblFieldDef : UInt16 := 5
def tblMethodDef : UInt16 := 6

structure RecordAttribute where
  ownerType : UInt16
  ownerIdx : UInt16
  ctor : UInt16
  data : UInt16
deriving DecidableEq

/-- The two fields of the owner, read as one word. -/
def RecordAttribute.key (r : RecordAttribute) : UInt32 :=
  r.ownerType.toUInt32 ||| (r.ownerIdx.toUInt32 <<< 16)

/-- `Set` of an index: the assembly and the place in its table. -/
def set (idxAssm idx : UInt16) : UInt32 :=
  (idxAssm.toUInt32 <<< 16) ||| idx.toUInt32

def assemblyOf (index : UInt32) : UInt16 := (index >>> 16).toUInt16

def placeOf (index : UInt32) : UInt16 := index.toUInt16

/-- The methods of a type stand behind each other: virtual ones, instance ones, static ones. -/
structure RecordTypeDef where
  methodsFirst : ℕ
  vMethodsNum : ℕ
  iMethodsNum : ℕ
  sMethodsNum : ℕ
deriving DecidableEq

namespace RecordTypeDef

variable (td : RecordTypeDef)

def methodsNum : ℕ := td.vMethodsNum + td.iMethodsNum + td.sMethodsNum

def Declares (m : ℕ) : Prop := td.methodsFirst ≤ m ∧ m < td.methodsFirst + td.methodsNum

instance (m : ℕ) : Decidable (td.Declares m) := inferInstanceAs (Decidable (_ ∧ _))

end RecordTypeDef

/-- An assembly's tables.  Every method is declared by one type, and the constructor of an attribute
is in the table that its top bit chooses. -/
structure Assembly where
  idx : UInt16
  attributes : List RecordAttribute
  typeDefs : List RecordTypeDef
  methodDefs : ℕ
  /-- the method each reference was resolved to -/
  methodRefs : List UInt32
  typeDefs_le : typeDefs.length ≤ 2 ^ 16
  declared : ∀ m < methodDefs, ∃ t : Fin typeDefs.length,
    typeDefs[t].Declares m ∧ ∀ u : Fin typeDefs.length, typeDefs[u].Declares m → u = t
  ctor_lt : ∀ r ∈ attributes,
    if r.ctor &&& 0x8000 ≠ 0 then (r.ctor &&& 0x7fff).toNat < methodRefs.length
    else r.ctor.toNat < methodDefs

def linkMethods (idxType : UInt16) : ℕ → ℕ → List UInt16 → List UInt16
  | _, 0, owners => owners
  | md, num + 1, owners => linkMethods idxType (md + 1) num (owners.set md idxType)

def resolveLink : ℕ → List RecordTypeDef → List UInt16 → List UInt16
  | _, [], owners => owners
  | idxType, td :: rest, owners =>
    resolveLink (idxType + 1) rest
      (linkMethods (UInt16.ofNat idxType) td.methodsFirst td.methodsNum owners)

def Assembly.crossReferenceMethodDef (a : Assembly) : List UInt16 :=
  resolveLink 0 a.typeDefs (replicate a.methodDefs 0)

/-- The method a record's constructor stands for. -/
def Assembly.constructorOf (a : Assembly) (tk : UInt16) : Option UInt32 :=
  if tk &&& 0x8000 ≠ 0 then a.methodRefs[(tk &&& 0x7fff).toNat]? else some (set a.idx tk)

/-- The loaded assemblies.  An assembly knows its own number, and a resolved reference is a method
of a loaded assembly. -/
structure LoadedTypeSystem where
  assemblies : List (Option Assembly)
  numbered : ∀ i a, assemblies[i]? = some (some a) → a.idx.toNat = i + 1
  resolved : ∀ a, some a ∈ assemblies → ∀ target ∈ a.methodRefs, ∃ b, some b ∈ assemblies ∧
    assemblyOf target = b.idx ∧ (placeOf target).toNat < b.methodDefs

namespace LoadedTypeSystem

variable (ts : LoadedTypeSystem)

/-- `g_CLR_RT_TypeSystem.m_assemblies[idx - 1]`. -/
def assembly (idx : UInt16) : Option Assembly :=
  if idx = 0 then none else (ts.assemblies[idx.toNat - 1]?).join

/-- `InitializeFromIndex` of a method, then `InitializeFromMethod` of a type. -/
def declaringType (method : UInt32) : Option UInt32 :=
  if method = 0 then some 0
  else (ts.assembly (assemblyOf method)).bind fun assm ↦
    (assm.crossReferenceMethodDef[(placeOf method).toNat]?).map (set (assemblyOf method))

end LoadedTypeSystem

/-! ### Words of two halves -/

theorem toNat_halves (hi lo : UInt16) :
    ((hi.toUInt32 <<< 16) ||| lo.toUInt32).toNat = 65536 * hi.toNat + lo.toNat := by
  have hhi : hi.toNat < 65536 := hi.toNat_lt
  have hlo : lo.toNat < 2 ^ 16 := lo.toNat_lt
  calc ((hi.toUInt32 <<< 16) ||| lo.toUInt32).toNat
      = (hi.toNat <<< 16 % 2 ^ 32) ||| lo.toNat := by simp
    _ = (2 ^ 16 * hi.toNat) ||| lo.toNat := by
        rw [shiftLeft_eq, mod_eq_of_lt (by omega), Nat.mul_comm]
    _ = 65536 * hi.toNat + lo.toNat := (two_pow_add_eq_or_of_lt hlo _).symm

theorem toNat_assemblyOf (index : UInt32) : (assemblyOf index).toNat = index.toNat / 65536 := by
  have hindex : index.toNat < 2 ^ 32 := index.toNat_lt
  calc (assemblyOf index).toNat = index.toNat >>> 16 % 2 ^ 16 := by simp [assemblyOf]
    _ = index.toNat / 65536 := by
      rw [shiftRight_eq_div_pow]
      omega

theorem toNat_placeOf (index : UInt32) : (placeOf index).toNat = index.toNat % 65536 :=
  UInt32.toNat_toUInt16 index

@[simp] theorem assemblyOf_set (idxAssm idx : UInt16) : assemblyOf (set idxAssm idx) = idxAssm := by
  have hidx : idx.toNat < 65536 := idx.toNat_lt
  apply UInt16.toNat_inj.mp
  rw [toNat_assemblyOf, set, toNat_halves]
  omega

@[simp] theorem placeOf_set (idxAssm idx : UInt16) : placeOf (set idxAssm idx) = idx := by
  have hidx : idx.toNat < 65536 := idx.toNat_lt
  apply UInt16.toNat_inj.mp
  rw [toNat_placeOf, set, toNat_halves]
  omega

theorem set_assemblyOf_placeOf (index : UInt32) :
    set (assemblyOf index) (placeOf index) = index := by
  apply UInt32.toNat_inj.mp
  rw [set, toNat_halves, toNat_assemblyOf, toNat_placeOf, div_add_mod]

theorem set_inj {a a' i i' : UInt16} : set a i = set a' i' ↔ a = a' ∧ i = i' := by
  constructor
  · intro h
    exact ⟨by simpa using congrArg assemblyOf h, by simpa using congrArg placeOf h⟩
  · rintro ⟨rfl, rfl⟩
    rfl

variable {r : RecordAttribute}

/-- Two records have one key when they name one owner. -/
theorem key_eq_iff {r' : RecordAttribute} :
    r.key = r'.key ↔ r.ownerType = r'.ownerType ∧ r.ownerIdx = r'.ownerIdx := by
  have hset (r : RecordAttribute) : r.key = set r.ownerIdx r.ownerType := UInt32.or_comm _ _
  rw [hset, hset, set_inj, and_comm]

/-! ### Which type declares a method -/

section owners

variable {idxType : UInt16} {owners : List UInt16}

theorem linkMethods_getElem? (md num m : ℕ) :
    (linkMethods idxType md num owners)[m]? =
      if md ≤ m ∧ m < md + num then owners[m]?.map fun _ ↦ idxType else owners[m]? := by
  induction num generalizing md owners with
  | zero => rw [linkMethods, if_neg (by omega)]
  | succ num ih =>
    rw [linkMethods, ih]
    by_cases hm : m = md
    · subst hm
      rw [if_neg (by omega), if_pos (by omega), getElem?_set_self']
      rfl
    · rw [getElem?_set_ne (Ne.symm hm)]
      exact if_congr (by omega) rfl rfl

theorem linkMethods_type (td : RecordTypeDef) (m : ℕ) :
    (linkMethods idxType td.methodsFirst td.methodsNum owners)[m]? =
      if td.Declares m then owners[m]?.map fun _ ↦ idxType else owners[m]? :=
  linkMethods_getElem? td.methodsFirst td.methodsNum m

theorem length_linkMethods (idxType : UInt16) (md num : ℕ) (owners : List UInt16) :
    (linkMethods idxType md num owners).length = owners.length := by
  induction num generalizing md owners with
  | zero => rfl
  | succ num ih => rw [linkMethods, ih, length_set]

variable {m : ℕ} {typeDefs : List RecordTypeDef}

theorem resolveLink_other (n : ℕ) (h : ∀ td ∈ typeDefs, ¬ td.Declares m) :
    (resolveLink n typeDefs owners)[m]? = owners[m]? := by
  induction typeDefs generalizing n owners with
  | nil => rfl
  | cons td rest ih =>
    rw [resolveLink, ih (n + 1) fun td' htd' ↦ h td' (mem_cons_of_mem td htd'),
      linkMethods_type, if_neg (h td mem_cons_self)]

theorem resolveLink_declares {t : ℕ} (n : ℕ)
    {td : RecordTypeDef} (htd : typeDefs[t]? = some td) (hm : td.Declares m)
    (hother : ∀ u td', typeDefs[u]? = some td' → td'.Declares m → u = t) (hlt : m < owners.length) :
    (resolveLink n typeDefs owners)[m]? = some (UInt16.ofNat (n + t)) := by
  induction typeDefs generalizing n owners t with
  | nil => cases htd
  | cons head rest ih =>
    cases t with
    | zero =>
      cases htd
      have hrest (td') (hmem : td' ∈ rest) : ¬ td'.Declares m := by
        intro hdeclares
        obtain ⟨u, hu⟩ := mem_iff_getElem?.mp hmem
        exact absurd (hother (u + 1) td' hu hdeclares) (succ_ne_zero u)
      rw [resolveLink, resolveLink_other _ hrest, linkMethods_type, if_pos hm,
        getElem?_eq_getElem hlt]
      rfl
    | succ t =>
      have hstep := ih (n + 1) htd (fun u td' hu hdeclares ↦
        succ_injective (hother (u + 1) td' hu hdeclares))
        (hlt.trans_eq (length_linkMethods (UInt16.ofNat n) head.methodsFirst head.methodsNum
          owners).symm)
      rw [resolveLink, hstep, Nat.add_right_comm, Nat.add_assoc]

end owners

namespace LoadedTypeSystem

variable {ts : LoadedTypeSystem}

def Known (ts : LoadedTypeSystem) (method : UInt32) : Prop :=
  ∃ b, ts.assembly (assemblyOf method) = some b ∧ (placeOf method).toNat < b.methodDefs

/-- The method belongs to the type: it is of the type's assembly, and among the methods that the
type declares. -/
def BelongsTo (ts : LoadedTypeSystem) (method type : UInt32) : Bool :=
  assemblyOf method = assemblyOf type &&
    ((ts.assembly (assemblyOf type)).bind (·.typeDefs[(placeOf type).toNat]?)).any
      (·.Declares (placeOf method).toNat)

theorem assembly_idx {b : Assembly} (hb : some b ∈ ts.assemblies) : ts.assembly b.idx = some b := by
  obtain ⟨i, hi⟩ := mem_iff_getElem?.mp hb
  have hidx : b.idx.toNat = i + 1 := ts.numbered i b hi
  have hne : b.idx ≠ 0 := by
    intro hzero
    rw [hzero] at hidx
    exact absurd hidx (zero_ne_add_one i)
  rw [assembly, if_neg hne, hidx, Nat.add_sub_cancel, hi]
  rfl

theorem declaringType_belongsTo {method : UInt32} (hknown : ts.Known method) :
    ∃ owner, ts.declaringType method = some owner ∧
      ∀ type, owner = type ↔ ts.BelongsTo method type = true := by
  obtain ⟨b, hb, hplace⟩ := hknown
  obtain ⟨t, ht, hunique⟩ := b.declared _ hplace
  have hvalid : method ≠ 0 := by
    intro hzero
    rw [hzero] at hb
    exact absurd hb nofun
  have howner : b.crossReferenceMethodDef[(placeOf method).toNat]? = some (UInt16.ofNat t) := by
    rw [Assembly.crossReferenceMethodDef,
      resolveLink_declares 0 (getElem?_eq_getElem t.isLt) ht _
        (by rwa [length_replicate]), Nat.zero_add]
    intro u td' hu hdeclares
    obtain ⟨hlt, rfl⟩ := List.getElem?_eq_some_iff.mp hu
    exact congrArg Fin.val (hunique ⟨u, hlt⟩ hdeclares)
  refine ⟨set (assemblyOf method) (UInt16.ofNat t), ?_, fun type ↦ ?_⟩
  · rw [declaringType, if_neg hvalid, hb, bind_some, howner, map_some]
  have hsmall : t.val < 2 ^ 16 := t.isLt.trans_le b.typeDefs_le
  rw [BelongsTo, Bool.and_eq_true, decide_eq_true_iff]
  constructor
  · rintro rfl
    rw [assemblyOf_set, placeOf_set, hb, bind_some, UInt16.toNat_ofNat_of_lt' hsmall,
      getElem?_eq_getElem t.isLt, any_some]
    exact ⟨rfl, decide_eq_true ht⟩
  · rintro ⟨hassm, hany⟩
    rw [← hassm, hb, Option.bind_some, Option.any_eq_true] at hany
    obtain ⟨td, htd, hdeclares⟩ := hany
    obtain ⟨hlt, rfl⟩ := List.getElem?_eq_some_iff.mp htd
    have hsame : (placeOf type).toNat = t :=
      congrArg Fin.val (hunique ⟨_, hlt⟩ (of_decide_eq_true hdeclares))
    calc set (assemblyOf method) (UInt16.ofNat t) = set (assemblyOf type) (placeOf type) := by
          rw [hassm, ← hsame, UInt16.ofNat_toNat]
      _ = type := set_assemblyOf_placeOf type

theorem constructorOf_known {a : Assembly} (ha : some a ∈ ts.assemblies) {r : RecordAttribute}
    (hr : r ∈ a.attributes) : ∃ method, a.constructorOf r.ctor = some method ∧ ts.Known method := by
  have hlt := a.ctor_lt r hr
  by_cases htop : r.ctor &&& 0x8000 ≠ 0
  · rw [if_pos htop] at hlt
    obtain ⟨b, hb, hassm, hplace⟩ := ts.resolved a ha _ (getElem_mem hlt)
    refine ⟨_, by rw [Assembly.constructorOf, if_pos htop, getElem?_eq_getElem hlt], b, ?_,
      hplace⟩
    rw [hassm, assembly_idx hb]
  · rw [if_neg htop] at hlt
    refine ⟨_, by rw [Assembly.constructorOf, if_neg htop], a, ?_, by rwa [placeOf_set]⟩
    rw [assemblyOf_set, assembly_idx ha]

end LoadedTypeSystem

/-! ### The definitions that have attributes -/

inductive Definition
  | typeDef (idx : UInt16)
  | fieldDef (idx : UInt16)
  | methodDef (idx : UInt16)
deriving DecidableEq

namespace Definition

def table : Definition → UInt16
  | typeDef _ => tblTypeDef
  | fieldDef _ => tblFieldDef
  | methodDef _ => tblMethodDef

def idx : Definition → UInt16
  | typeDef i => i
  | fieldDef i => i
  | methodDef i => i

def Owns (d : Definition) (r : RecordAttribute) : Prop :=
  r.ownerType = d.table ∧ r.ownerIdx = d.idx

instance (d : Definition) (r : RecordAttribute) : Decidable (d.Owns r) :=
  inferInstanceAs (Decidable (_ ∧ _))

end Definition

/-! ### `CLR_RT_AttributeEnumerator` -/

/-- The pointer is counted in records from the start of the table: it is the number of records up to
the one it stands on. -/
structure Enumerator where
  ptr : Option ℕ
  num : ℕ
  data : RecordAttribute
  matched : UInt32
  blob : UInt16

namespace Enumerator

/-- `Initialize` of all three kinds, behind what they put in `m_data`. -/
def ofOwner (ownerType ownerIdx : UInt16) : Enumerator where
  ptr := none
  num := 0
  data := ⟨ownerType, ownerIdx, 0, 0⟩
  matched := 0
  blob := 0

def initializeFromType (idx : UInt16) : Enumerator := ofOwner tblTypeDef idx

def initializeFromField (idx : UInt16) : Enumerator := ofOwner tblFieldDef idx

/-- The table named here is the one of the fields. -/
def initializeFromMethod (idx : UInt16) : Enumerator := ofOwner tblFieldDef idx

def ofDefinition : Definition → Enumerator
  | .typeDef i => initializeFromType i
  | .fieldDef i => initializeFromField i
  | .methodDef i => initializeFromMethod i

end Enumerator

/-- The loop of `Advance`: where it stands at the end, how many records are left, and the record it
found.  There is no answer when it would leave the table. -/
def find (table : List RecordAttribute) (key : UInt32) :
    ℕ → ℕ → Option (ℕ × ℕ × Option RecordAttribute)
  | ptr, 0 => some (ptr, 0, none)
  | ptr, num + 1 => do
    let r ← table[ptr]?
    if r.key = key then some (ptr + 1, num, some r) else find table key (ptr + 1) num

/-- Where a scan goes on, and how many records it has before it. -/
def Enumerator.start (a : Assembly) (en : Enumerator) : ℕ × ℕ :=
  match en.ptr with
  | none => (0, a.attributes.length)
  | some ptr => (ptr, en.num)

def advance (a : Assembly) (en : Enumerator) : Option (Enumerator × Bool) := do
  let (ptr, num, found) ← find a.attributes en.data.key (en.start a).1 (en.start a).2
  match found with
  | none => some ({ en with ptr := some ptr, num := num }, false)
  | some r =>
    let target ← a.constructorOf r.ctor
    some ({ en with ptr := some ptr, num := num, matched := target, blob := r.data }, true)

/-- What `MatchNext` asks of a constructor. -/
def accepts (ts : LoadedTypeSystem) (instTD instMD : Option UInt32) (method : UInt32) :
    Option Bool :=
  if instMD.any (method ≠ ·) then some false
  else match instTD with
    | none => some true
    | some td => (ts.declaringType method).map (· = td)

theorem find_num {table : List RecordAttribute} {key : UInt32} {ptr num ptr' num' : ℕ}
    (h : find table key ptr num = some (ptr', num', some r)) :
    num' < num := by
  induction num generalizing ptr with
  | zero => cases h
  | succ num ih =>
    obtain ⟨r', -, hfound⟩ := bind_eq_some_iff.mp h
    split_ifs at hfound
    · cases hfound
      exact lt_succ_self _
    · exact lt_succ_of_lt (ih hfound)

/-- An advance that finds a record leaves fewer. -/
theorem advance_num {a : Assembly} {en en' : Enumerator} (h : advance a en = some (en', true)) :
    (en'.start a).2 < (en.start a).2 := by
  obtain ⟨⟨ptr, num, found⟩, hfind, hrest⟩ := bind_eq_some_iff.mp h
  cases found with
  | none => cases hrest
  | some r =>
    obtain ⟨target, -, hen⟩ := bind_eq_some_iff.mp hrest
    cases hen
    exact find_num hfind

def matchNext (ts : LoadedTypeSystem) (a : Assembly) (instTD instMD : Option UInt32)
    (en : Enumerator) : Option (Enumerator × Bool) :=
  match _h : advance a en with
  | none => none
  | some (en', false) => some (en', false)
  | some (en', true) =>
    match accepts ts instTD instMD en'.matched with
    | none => none
    | some true => some (en', true)
    | some false => matchNext ts a instTD instMD en'
termination_by (en.start a).2
decreasing_by exact advance_num _h

/-! ### What is still to be found -/

/-- An attribute as an enumeration shows it: where its record is, its constructor, and where its
values are. -/
structure Visit where
  position : ℕ
  ctor : Option UInt32
  blob : UInt16
deriving DecidableEq

def Enumerator.visit (en : Enumerator) : Visit :=
  ⟨en.ptr.getD 0 - 1, some en.matched, en.blob⟩

namespace Assembly

variable (a : Assembly)

def visitOf (i : ℕ) (r : RecordAttribute) : Visit := ⟨i, a.constructorOf r.ctor, r.data⟩

def attributesOf (d : Definition) : List Visit :=
  listing (fun i r ↦ if d.Owns r then [a.visitOf i r] else []) 0 a.attributes

def pending (key : UInt32) (n : ℕ) : List Visit :=
  listing (fun i r ↦ if r.key = key then [a.visitOf i r] else []) n (a.attributes.drop n)

variable {a} {key : UInt32} {n : ℕ}

theorem pending_end (h : a.attributes.length ≤ n) : a.pending key n = [] := by
  rw [pending, drop_eq_nil_of_le h, listing_nil]

theorem pending_step {r : RecordAttribute} (hr : a.attributes[n]? = some r) :
    a.pending key n = (if r.key = key then [a.visitOf n r] else []) ++ a.pending key (n + 1) := by
  obtain ⟨hn, rfl⟩ := List.getElem?_eq_some_iff.mp hr
  rw [pending, drop_eq_getElem_cons hn, listing_cons, pending]

/-- What the loop of `Advance` comes to when these are still to be found. -/
inductive Found (a : Assembly) (key : UInt32) :
    List Visit → Option (ℕ × ℕ × Option RecordAttribute) → Prop
  | none : Found a key [] (some (a.attributes.length, 0, .none))
  | some {p num : ℕ} {r : RecordAttribute} (hr : a.attributes[p]? = .some r)
      (hnum : p + 1 + num = a.attributes.length) :
      Found a key (a.visitOf p r :: a.pending key (p + 1)) (some (p + 1, num, .some r))

theorem find_found (key : UInt32) {ptr num : ℕ} (h : ptr + num = a.attributes.length) :
    Found a key (a.pending key ptr) (find a.attributes key ptr num) := by
  induction num generalizing ptr with
  | zero =>
    rw [Nat.add_zero] at h
    rw [find, pending_end h.ge, h]
    exact .none
  | succ num ih =>
    have hr := getElem?_eq_getElem (show ptr < a.attributes.length by omega)
    rw [pending_step hr, find, hr, bind_eq_bind, bind_some]
    by_cases hkey : a.attributes[ptr].key = key
    · rw [if_pos hkey, if_pos hkey]
      exact .some hr (by omega)
    · rw [if_neg hkey, if_neg hkey]
      exact ih (by omega)

end Assembly

/-! ### The runs of an enumerator -/

/-- An enumerator of the assembly between two calls, looking for a key: it stands in the table, and
counts the records behind it. -/
structure Enumerator.Scanning (a : Assembly) (key : UInt32) (en : Enumerator) : Prop where
  key_eq : en.data.key = key
  start_eq : (en.start a).1 + (en.start a).2 = a.attributes.length

def Enumerator.pending (a : Assembly) (key : UInt32) (en : Enumerator) : List Visit :=
  a.pending key (en.start a).1

theorem Enumerator.ofOwner_scanning (a : Assembly) (ownerType ownerIdx : UInt16) :
    Scanning a (ofOwner ownerType ownerIdx).data.key (ofOwner ownerType ownerIdx) where
  key_eq := rfl
  start_eq := Nat.zero_add _

section runs

variable {ts : LoadedTypeSystem} {a : Assembly} {key : UInt32} {en : Enumerator}

/-- What a call has done: it found nothing more, or the next one, whose constructor is known. -/
inductive Advanced (ts : LoadedTypeSystem) (a : Assembly) (key : UInt32) :
    List Visit → Option (Enumerator × Bool) → Prop
  | finished (en : Enumerator) : Advanced ts a key [] (some (en, false))
  | found {en : Enumerator} (hscan : en.Scanning a key) (hknown : ts.Known en.matched) :
      Advanced ts a key (en.visit :: en.pending a key) (some (en, true))

/-- One advance, from wherever the enumerator stands. -/
theorem advance_advanced (ha : some a ∈ ts.assemblies) (hscan : en.Scanning a key) :
    Advanced ts a key (en.pending a key) (advance a en) := by
  have hfound := Assembly.find_found key hscan.start_eq
  rw [advance, hscan.key_eq, Enumerator.pending]
  generalize find a.attributes key (en.start a).1 (en.start a).2 = result at hfound ⊢
  generalize a.pending key (en.start a).1 = attrs at hfound ⊢
  cases hfound with
  | none => exact .finished _
  | @some p num r hr hnum =>
    obtain ⟨target, htarget, hknown⟩ := LoadedTypeSystem.constructorOf_known ha (mem_of_getElem? hr)
    have hvisit : a.visitOf p r = ⟨p + 1 - 1, some target, r.data⟩ := by
      rw [Assembly.visitOf, htarget, Nat.add_sub_cancel]
    rw [hvisit]
    simp only [bind_eq_bind, bind_some, htarget]
    have hscan' : { en with ptr := some (p + 1), num, matched := target, blob := r.data }.Scanning a
        key := ⟨hscan.key_eq, hnum⟩
    exact .found hscan' hknown

theorem enumerates_advance (ha : some a ∈ ts.assemblies) (hscan : en.Scanning a key) :
    Enumerates (advance a) Enumerator.visit en (en.pending a key) := by
  have htakes (en : Enumerator) (hscan : en.Scanning a key) :
      Takes (advance a) Enumerator.visit (fun en ↦ en.Scanning a key)
        (fun en ↦ en.pending a key) en := by
    have hadvanced := advance_advanced ha hscan
    generalize hresult : advance a en = result at hadvanced
    generalize hattrs : en.pending a key = attrs at hadvanced
    cases hadvanced with
    | finished en' => exact .done hresult hattrs
    | found hscan' _ => exact .more hresult hscan' hattrs
  exact enumerates_pending htakes hscan

def Visit.Matches (ts : LoadedTypeSystem) (instTD : UInt32) (v : Visit) : Bool :=
  v.ctor.any (ts.BelongsTo · instTD)

theorem accepts_type {method : UInt32} (hknown : ts.Known method) (instTD : UInt32) :
    accepts ts (some instTD) none method = some (ts.BelongsTo method instTD) := by
  obtain ⟨owner, howner, hbelongs⟩ := LoadedTypeSystem.declaringType_belongsTo hknown
  rw [accepts, any_none, if_neg Bool.false_ne_true, howner, map_some]
  exact congrArg some (Bool.eq_iff_iff.mpr (by rw [decide_eq_true_iff]; exact hbelongs instTD))

variable {en' : Enumerator}

theorem matchNext_finished {instTD instMD : Option UInt32} (h : advance a en = some (en', false)) :
    matchNext ts a instTD instMD en = some (en', false) := by
  rw [matchNext]
  split <;> simp_all

theorem matchNext_found (ts : LoadedTypeSystem) (instTD instMD : Option UInt32)
    (h : advance a en = some (en', true)) :
    matchNext ts a instTD instMD en =
      (accepts ts instTD instMD en'.matched).bind fun fits ↦
        if fits then some (en', true) else matchNext ts a instTD instMD en' := by
  rw [matchNext]
  split
  · simp_all
  · simp_all
  · rename_i en'' h''
    cases h.symm.trans h''
    cases accepts ts instTD instMD en'.matched with
    | none => rfl
    | some fits => cases fits <;> rfl

/-- One `MatchNext` takes the next attribute that fits and leaves out those in front of it. -/
theorem matchNext_takes (ha : some a ∈ ts.assemblies) (instTD : UInt32)
    (hscan : en.Scanning a key) :
    Takes (matchNext ts a (some instTD) none) Enumerator.visit (fun en ↦ en.Scanning a key)
      (fun en ↦ (en.pending a key).filter (Visit.Matches ts instTD)) en := by
  induction hl : (en.start a).2 using Nat.strong_induction_on generalizing en with
  | _ left ih =>
    have hadvanced := advance_advanced ha hscan
    generalize hresult : advance a en = result at hadvanced
    generalize hattrs : en.pending a key = attrs at hadvanced
    cases hadvanced with
    | finished en' => exact .done (matchNext_finished hresult) (by rw [hattrs, filter_nil])
    | @found en' hscan' hknown =>
      have hmatches : Visit.Matches ts instTD en'.visit = ts.BelongsTo en'.matched instTD := rfl
      have hnext := matchNext_found ts (some instTD) none hresult
      rw [accepts_type hknown, bind_some] at hnext
      cases hfits : ts.BelongsTo en'.matched instTD with
      | true =>
        rw [hfits, if_pos rfl] at hnext
        exact .more hnext hscan' (by rw [hattrs, filter_cons, hmatches, hfits, if_pos rfl])
      | false =>
        rw [hfits, if_neg Bool.false_ne_true] at hnext
        have hskip : (en.pending a key).filter (Visit.Matches ts instTD) =
            (en'.pending a key).filter (Visit.Matches ts instTD) := by
          rw [hattrs, filter_cons, hmatches, hfits, if_neg Bool.false_ne_true]
        cases ih _ (hl ▸ advance_num hresult) hscan' rfl with
        | done h hpending => exact .done (hnext.trans h) (hskip.trans hpending)
        | more h hinv hpending => exact .more (hnext.trans h) hinv (hskip.trans hpending)

theorem enumerates_matchNext (ha : some a ∈ ts.assemblies) (instTD : UInt32)
    (hscan : en.Scanning a key) :
    Enumerates (matchNext ts a (some instTD) none) Enumerator.visit en
      ((en.pending a key).filter (Visit.Matches ts instTD)) :=
  enumerates_pending (fun _ hscan ↦ matchNext_takes ha instTD hscan) hscan

end runs

/-! ### What a definition's enumerator finds -/

namespace Definition

def scanned : Definition → Definition
  | methodDef i => fieldDef i
  | d => d

theorem ofDefinition_owns (d : Definition) (r : RecordAttribute) :
    r.key = (Enumerator.ofDefinition d).data.key ↔ d.scanned.Owns r := by
  cases d with
  | typeDef i | fieldDef i | methodDef i => exact key_eq_iff

theorem ofDefinition_scanning (d : Definition) (a : Assembly) :
    (Enumerator.ofDefinition d).Scanning a (Enumerator.ofDefinition d).data.key := by
  cases d with
  | typeDef i => exact Enumerator.ofOwner_scanning a tblTypeDef i
  | fieldDef i | methodDef i => exact Enumerator.ofOwner_scanning a tblFieldDef i

theorem ofDefinition_pending (d : Definition) (a : Assembly) :
    (Enumerator.ofDefinition d).pending a (Enumerator.ofDefinition d).data.key =
      a.attributesOf d.scanned := by
  have hstart : ((Enumerator.ofDefinition d).start a).1 = 0 := by cases d <;> rfl
  rw [Enumerator.pending, hstart, Assembly.pending, drop_zero, Assembly.attributesOf]
  congr 1
  funext i r
  exact if_congr (d.ofDefinition_owns r) rfl rfl

/-- Enumerating the definition finds its attributes, and enumerating it for a type finds those whose
constructors belong to the type. -/
def Exact (ts : LoadedTypeSystem) (a : Assembly) (d : Definition) : Prop :=
  Enumerates (advance a) Enumerator.visit (Enumerator.ofDefinition d) (a.attributesOf d) ∧
    ∀ instTD, Enumerates (matchNext ts a (some instTD) none) Enumerator.visit
      (Enumerator.ofDefinition d) ((a.attributesOf d).filter (Visit.Matches ts instTD))

/-- The definition is no method, or neither the method nor the field of its index has attributes. -/
def Separate (a : Assembly) : Definition → Prop
  | methodDef i => ∀ r ∈ a.attributes, r.ownerIdx = i →
      r.ownerType ≠ tblMethodDef ∧ r.ownerType ≠ tblFieldDef
  | _ => True

theorem enumerates_scanned {ts : LoadedTypeSystem} {a : Assembly} (ha : some a ∈ ts.assemblies)
    (d : Definition) :
    Enumerates (advance a) Enumerator.visit (Enumerator.ofDefinition d)
      (a.attributesOf d.scanned) := by
  rw [← d.ofDefinition_pending a]
  exact enumerates_advance ha (d.ofDefinition_scanning a)

theorem enumerates_scanned_type {ts : LoadedTypeSystem} {a : Assembly}
    (ha : some a ∈ ts.assemblies) (d : Definition) (instTD : UInt32) :
    Enumerates (matchNext ts a (some instTD) none) Enumerator.visit (Enumerator.ofDefinition d)
      ((a.attributesOf d.scanned).filter (Visit.Matches ts instTD)) := by
  rw [← d.ofDefinition_pending a]
  exact enumerates_matchNext ha instTD (d.ofDefinition_scanning a)

variable {d d' : Definition}

theorem mem_attributesOf {a : Assembly} {v : Visit} :
    v ∈ a.attributesOf d ↔
      ∃ i r, a.attributes[i]? = some r ∧ d.Owns r ∧ v = a.visitOf i r := by
  constructor
  · intro hmem
    obtain ⟨i, r, hr, hv⟩ := mem_listing hmem
    rw [Nat.zero_add] at hv
    by_cases howns : d.Owns r
    · rw [if_pos howns] at hv
      exact ⟨i, r, hr, howns, mem_singleton.mp hv⟩
    · rw [if_neg howns] at hv
      cases hv
  · rintro ⟨i, r, hr, howns, rfl⟩
    rw [Assembly.attributesOf, listing_split hr, if_pos howns]
    simp

variable {r : RecordAttribute}

/-- One record is not owned by two definitions. -/
theorem owns_unique (h : d.Owns r) (h' : d'.Owns r) :
    d.table = d'.table := h.1.symm.trans h'.1

/-- Definitions of two tables with the same attributes have none. -/
theorem attributesOf_disjoint {a : Assembly} (htable : d.table ≠ d'.table)
    (h : a.attributesOf d = a.attributesOf d') (hr : r ∈ a.attributes) :
    ¬ d.Owns r := by
  intro howns
  obtain ⟨i, hi⟩ := mem_iff_getElem?.mp hr
  obtain ⟨i', r', hi', howns', hvisit⟩ :=
    mem_attributesOf.mp (h ▸ mem_attributesOf.mpr ⟨i, r, hi, howns, rfl⟩)
  have hplace : i = i' := congrArg Visit.position hvisit
  rw [← hplace, hi] at hi'
  cases hi'
  exact htable (owns_unique howns howns')

theorem attributesOf_eq_nil {a : Assembly} (h : ∀ r ∈ a.attributes, ¬ d.Owns r) :
    a.attributesOf d = [] := by
  apply eq_nil_iff_forall_not_mem.mpr
  intro v hv
  obtain ⟨i, r, hr, howns, -⟩ := mem_attributesOf.mp hv
  exact h r (mem_of_getElem? hr) howns

theorem Separate.attributesOf_eq {a : Assembly} (h : d.Separate a) :
    a.attributesOf d = a.attributesOf d.scanned := by
  cases d with
  | typeDef i | fieldDef i => rfl
  | methodDef i =>
    have hmethod (r) (hr : r ∈ a.attributes) : ¬ (methodDef i).Owns r :=
      fun howns ↦ (h r hr howns.2).1 howns.1
    have hfield (r) (hr : r ∈ a.attributes) : ¬ (fieldDef i).Owns r :=
      fun howns ↦ (h r hr howns.2).2 howns.1
    rw [scanned, attributesOf_eq_nil hmethod, attributesOf_eq_nil hfield]

end Definition

/-- The enumeration of a definition is exact when the definition is a type or a field, and for a
method when neither it nor the field with its index has attributes: a method's enumerator looks for
those of the field. -/
theorem enumeration_exact (ts : LoadedTypeSystem) (a : Assembly) (ha : some a ∈ ts.assemblies)
    (d : Definition) : d.Exact ts a ↔ d.Separate a := by
  constructor
  · intro hexact
    have hsame : a.attributesOf d = a.attributesOf d.scanned :=
      hexact.1.unique (d.enumerates_scanned ha)
    cases d with
    | typeDef i | fieldDef i => trivial
    | methodDef i =>
      intro r hr hidx
      have htables : (Definition.methodDef i).table ≠ (Definition.methodDef i).scanned.table :=
        show tblMethodDef ≠ tblFieldDef by decide
      exact ⟨fun htype ↦ Definition.attributesOf_disjoint htables hsame hr ⟨htype, hidx⟩,
        fun htype ↦ Definition.attributesOf_disjoint htables.symm hsame.symm hr ⟨htype, hidx⟩⟩
  · intro hseparate
    rw [Definition.Exact, hseparate.attributesOf_eq]
    exact ⟨d.enumerates_scanned ha, d.enumerates_scanned_type ha⟩

/-- A type with one method, which is the constructor of the attributes. -/
def marked (attributes : List RecordAttribute) (hctor : ∀ r ∈ attributes, r.ctor = 0) :
    Assembly where
  idx := 1
  attributes := attributes
  typeDefs := [⟨0, 0, 0, 1⟩]
  methodDefs := 1
  methodRefs := []
  typeDefs_le := by decide
  declared := by decide
  ctor_lt r hr := by
    rw [hctor r hr]
    decide

def markedSystem (a : Assembly) (hidx : a.idx = 1) (hrefs : a.methodRefs = []) :
    LoadedTypeSystem where
  assemblies := [some a]
  numbered i a' h := by
    cases i with
    | zero =>
      cases h
      rw [hidx]
      rfl
    | succ i => cases h
  resolved a' ha target htarget := by
    cases mem_singleton.mp ha
    rw [hrefs] at htarget
    cases htarget

/-- Between two attributes of the type, the table has one of its method. -/
def markedType : Assembly :=
  marked [⟨tblTypeDef, 0, 0, 0⟩, ⟨tblMethodDef, 0, 0, 5⟩, ⟨tblTypeDef, 0, 0, 9⟩] (by decide)

theorem enumeration_exact_type :
    markedType.attributesOf (.typeDef 0) = [⟨0, some 0x10000, 0⟩, ⟨2, some 0x10000, 9⟩] ∧
      (Definition.typeDef 0).Exact (markedSystem markedType rfl rfl) markedType := by
  have hmem : some markedType ∈ (markedSystem markedType rfl rfl).assemblies :=
    mem_singleton.mpr rfl
  exact ⟨by decide, (enumeration_exact _ markedType hmem (.typeDef 0)).mpr trivial⟩

def markedMethod : Assembly := marked [⟨tblMethodDef, 0, 0, 0⟩] (by decide)

/-- The attribute of the method is not found. -/
theorem method_attribute_missed :
    markedMethod.attributesOf (.methodDef 0) = [⟨0, some 0x10000, 0⟩] ∧
      (advance markedMethod (Enumerator.initializeFromMethod 0)).map Prod.snd = some false ∧
      ¬ (Definition.methodDef 0).Exact (markedSystem markedMethod rfl rfl) markedMethod := by
  refine ⟨by decide, by decide, fun hexact ↦ ?_⟩
  have hnone : advance markedMethod (Enumerator.initializeFromMethod 0) =
      some ({ Enumerator.initializeFromMethod 0 with ptr := some 1 }, false) := rfl
  have hlist := hexact.1.unique (.done hnone)
  exact absurd hlist (by decide)

end MicroFramework.TypeSystem.Attributes
