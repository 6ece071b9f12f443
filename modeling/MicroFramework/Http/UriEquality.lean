import MicroFramework.Http.UriParsing

/-!
# Which URIs compare equal

Two absolute URIs are compared by their lower-cased paths alone, while the hash code is taken of all
their fields, the text they were parsed from included.  So they are equal only to URIs of the same
components and the same hash code where the paths decide it.
-/

namespace MicroFramework.Http

open Support

namespace Uri

variable {lhs rhs uri : Uri}

/-- Scheme, host, port and path agree. -/
def Agrees (lhs rhs : Uri) : Prop :=
  lhs.scheme = rhs.scheme ∧ lhs.host = rhs.host ∧ lhs.port = rhs.port ∧
    lhs.absolutePath = rhs.absolutePath

/-- Equal URIs agree, and so do their hash codes. -/
def ComparesComponents (lhs rhs : Uri) : Prop :=
  lhs.opEquality rhs = .ok true → lhs.Agrees rhs ∧ lhs.getHashCode = rhs.getHashCode

def SamePath (lhs rhs : Uri) : Prop :=
  ∃ left right, lhs.absolutePath = some left ∧ rhs.absolutePath = some right ∧
    toLower left = toLower right

def fieldsHash (uri : Uri) : UInt32 :=
  hashString uri.absolutePath (hashBytes 4 uri.flags
    (hashBytes 4 (uri.port % 2 ^ 32).toNat (hashBytes 4 uri.hostNameType.value 0)))

/-- The checksums of the original texts agree, from the hash of the fields on. -/
def SameText (lhs rhs : Uri) : Prop :=
  hashString lhs.originalUriString lhs.fieldsHash = hashString rhs.originalUriString lhs.fieldsHash

/-- The paths differ, or all the components and the checksums of the texts agree. -/
def Distinguished (lhs rhs : Uri) : Prop :=
  ¬ lhs.SamePath rhs ∨ lhs.Agrees rhs ∧ lhs.SameText rhs

/-! ## The fields that follow from the others -/

/-- What the constructor leaves in the fields besides the components. -/
structure Derived (uri : Uri) : Prop where
  hostNameType : uri.hostNameType = if uri.host = [] then .unknown else hostNameTypeOf uri.host
  flags : uri.flags = flagsOf uri.host
  isUnc : uri.isUnc = false
  scheme : uri.isAbsoluteUri = true → uri.scheme ≠ none

theorem derived_of_unset (hhost : uri.host = []) (htype : uri.hostNameType = .unknown)
    (hflags : uri.flags = 0) (hunc : uri.isUnc = false)
    (hscheme : uri.isAbsoluteUri = true → uri.scheme ≠ none) : uri.Derived := by
  refine ⟨?_, ?_, hunc, hscheme⟩
  · rw [hhost, if_pos rfl, htype]
  · rw [hhost, hflags]
    rfl

theorem derived_urn (s : List UInt16) (h : validateUrn s = .ok uri) : uri.Derived := by
  have hurn : ∀ path, ({ unset with
      isAbsoluteUri := true, scheme := some (units "urn"), absolutePath := path } : Uri).Derived :=
    fun path ↦ derived_of_unset rfl rfl rfl rfl (fun _ ↦ Option.some_ne_none _)
  rw [validateUrn] at h
  split at h
  · split at h
    · rw [← Except.ok.inj h]
      exact hurn _
    · cases h
  · simp only at h
    split at h
    · cases h
    · split at h
      · split at h
        · rw [← Except.ok.inj h]
          exact hurn none
        · split at h
          · rw [← Except.ok.inj h]
            exact hurn _
          · cases h
      · cases h

theorem derived_relative (s : List UInt16) (h : validateRelativePath s = .ok uri) :
    uri.Derived := by
  rw [validateRelativePath] at h
  split at h
  · cases h
  · split at h
    · cases h
    · split at h
      · rw [← Except.ok.inj h]
        exact derived_of_unset rfl rfl rfl rfl (fun hnot ↦ absurd hnot Bool.false_ne_true)
      · cases h

variable {result : Uri × List UInt16}

theorem derived_scheme (s : List UInt16) (h : parseScheme s = .ok result) : result.1.Derived := by
  rw [parseScheme] at h
  split at h
  · cases h
  · split at h
    · cases h
    · simp only at h
      split at h
      · cases h
      · split at h
        · cases h
        · split at h
          · split at h
            · split at h
              · cases h
              · split at h
                · cases h
                · rename_i hne
                  rw [← Except.ok.inj h]
                  exact ⟨(if_neg hne).symm, rfl, rfl, fun _ ↦ Option.some_ne_none _⟩
            · cases h
          · split at h
            · cases h
            · rw [← Except.ok.inj h]
              exact derived_of_unset rfl rfl rfl rfl (fun _ ↦ Option.some_ne_none _)

theorem derived_parse (s : List UInt16) (h : parseUriString s = .ok result) : result.1.Derived := by
  rw [parseUriString] at h
  split at h
  · cases h
  · split at h
    · cases h
    · split at h
      · cases hurn : validateUrn s with
        | error e =>
          rw [hurn] at h
          cases h
        | ok uri =>
          rw [hurn] at h
          rw [← Except.ok.inj h]
          exact derived_urn s hurn
      · split at h
        · cases hrelative : validateRelativePath s with
          | error e =>
            rw [hrelative] at h
            cases h
          | ok uri =>
            rw [hrelative] at h
            rw [← Except.ok.inj h]
            exact derived_relative s hrelative
        · exact derived_scheme s h

theorem derived_new {s : List UInt16} (h : Uri.new s = .ok uri) : uri.Derived := by
  rw [Uri.new] at h
  cases hparse : parseUriString s with
  | error e =>
    rw [hparse] at h
    cases h
  | ok result =>
    obtain ⟨parsed, text⟩ := result
    have hderived := derived_parse s hparse
    rw [hparse] at h
    rw [← Except.ok.inj h]
    exact ⟨hderived.hostNameType, hderived.flags, hderived.isUnc, hderived.scheme⟩

/-! ## The comparison -/

/-- The paths alone decide. -/
theorem opEquality_iff (hlhs : lhs.isAbsoluteUri = true) (hrhs : rhs.isAbsoluteUri = true) :
    lhs.opEquality rhs = .ok true ↔ lhs.SamePath rhs := by
  rw [opEquality, hlhs, hrhs]
  simp only [Bool.and_self, if_true]
  constructor
  · intro heq
    split at heq
    · rename_i left right hleft hright
      exact ⟨left, right, hleft, hright, of_decide_eq_true (Except.ok.inj heq)⟩
    · cases heq
  · rintro ⟨left, right, hleft, hright, hlower⟩
    rw [hleft, hright]
    exact congrArg Except.ok (decide_eq_true hlower)

variable {crc crc' : UInt32}

theorem hashString_inj {text : List UInt16}
    (h : hashString (some text) crc = hashString (some text) crc') : crc = crc' :=
  computeCRC_inj h

theorem hashBytes_inj {width value : ℕ}
    (h : hashBytes width value crc = hashBytes width value crc') : crc = crc' :=
  computeCRC_inj h

/-- URIs that agree have the same hash code if the checksums of their texts are the same. -/
theorem getHashCode_iff (hlhs : lhs.Derived) (hrhs : rhs.Derived)
    (hlabsolute : lhs.isAbsoluteUri = true) (hrabsolute : rhs.isAbsoluteUri = true)
    (hagrees : lhs.Agrees rhs) : lhs.getHashCode = rhs.getHashCode ↔ lhs.SameText rhs := by
  obtain ⟨hscheme, hhost, hport, hpath⟩ := hagrees
  obtain ⟨text, hsome⟩ := Option.ne_none_iff_exists'.mp (hrhs.scheme hrabsolute)
  have hfields : rhs.fieldsHash = lhs.fieldsHash := by
    rw [fieldsHash, fieldsHash, hlhs.hostNameType, hrhs.hostNameType, hlhs.flags, hrhs.flags, hhost,
      hport, hpath]
  have hleft : lhs.getHashCode = hashBytes 1 false.toNat (hashBytes 1 true.toNat
      (hashString (some rhs.host) (hashString (some text)
        (hashString lhs.originalUriString lhs.fieldsHash)))) := by
    rw [← hsome, ← hhost, ← hscheme, ← hlabsolute, ← hlhs.isUnc]
    rfl
  have hright : rhs.getHashCode = hashBytes 1 false.toNat (hashBytes 1 true.toNat
      (hashString (some rhs.host) (hashString (some text)
        (hashString rhs.originalUriString lhs.fieldsHash)))) := by
    rw [← hsome, ← hfields, ← hrabsolute, ← hrhs.isUnc]
    rfl
  rw [hleft, hright, SameText]
  constructor
  · intro heq
    exact hashString_inj (hashString_inj (hashBytes_inj (hashBytes_inj heq)))
  · intro heq
    rw [heq]

theorem comparesComponents_iff (hlhs : lhs.Derived) (hrhs : rhs.Derived)
    (hlabsolute : lhs.isAbsoluteUri = true) (hrabsolute : rhs.isAbsoluteUri = true) :
    lhs.ComparesComponents rhs ↔ lhs.Distinguished rhs := by
  rw [ComparesComponents, Distinguished, opEquality_iff hlabsolute hrabsolute]
  constructor
  · intro hcompares
    by_cases hpath : lhs.SamePath rhs
    · obtain ⟨hagrees, hhash⟩ := hcompares hpath
      right
      exact ⟨hagrees,
        (getHashCode_iff hlhs hrhs hlabsolute hrabsolute hagrees).mp hhash⟩
    · exact Or.inl hpath
  · rintro (hpath | ⟨hagrees, htext⟩) hsame
    · exact absurd hsame hpath
    · exact ⟨hagrees, (getHashCode_iff hlhs hrhs hlabsolute hrabsolute hagrees).mpr htext⟩

end Uri

/-! ## Parsing and comparing -/

/-- A URI is parsed into its components exactly if a bracketed host has a port, a path behind a host
without port has no colon, and the port is a number of 31 bits.  Two absolute URIs keep to the
components and the hash code in comparing exactly if their paths differ in lower case, or the
components and the checksums of the texts agree. -/
theorem uri_parsed_and_compared (c : Components) (leftString rightString : List UInt16) :
    (c.Valid → (c.IsParsed ↔ c.Parsable)) ∧
      ∀ lhs rhs : Uri, Uri.new leftString = .ok lhs → Uri.new rightString = .ok rhs →
        lhs.isAbsoluteUri = true → rhs.isAbsoluteUri = true →
          (lhs.ComparesComponents rhs ↔ lhs.Distinguished rhs) := by
  constructor
  · intro h
    exact isParsed_iff_parsable h
  · intro lhs rhs hleft hright hlabsolute hrabsolute
    exact Uri.comparesComponents_iff (Uri.derived_new hleft) (Uri.derived_new hright) hlabsolute
      hrabsolute

/-- A name with a port, and a path with a colon. -/
def plainComponents : Components :=
  ⟨units "http", units "a", some (units "8"), units "/b:1"⟩

theorem plainComponents_valid : plainComponents.Valid := by
  refine ⟨Or.inl rfl, Or.inl ⟨by decide, Utf.forall_mem_of_all (by decide)⟩, ?_, Or.inr rfl⟩
  rintro digits ⟨⟩
  exact ⟨by decide, Utf.forall_mem_of_all (by decide)⟩

theorem uri_parsed_and_compared_plain :
    (plainComponents.IsParsed ↔ plainComponents.Parsable) ∧
      ∀ lhs rhs, Uri.new (units "http://a/x") = .ok lhs → Uri.new (units "http://b/x") = .ok rhs →
        (lhs.ComparesComponents rhs ↔ lhs.Distinguished rhs) := by
  have hiff := uri_parsed_and_compared plainComponents (units "http://a/x") (units "http://b/x")
  constructor
  · exact hiff.1 plainComponents_valid
  · intro lhs rhs hlhs hrhs
    have hl : (Uri.new (units "http://a/x")).map (·.isAbsoluteUri) = .ok true := by rfl
    have hr : (Uri.new (units "http://b/x")).map (·.isAbsoluteUri) = .ok true := by rfl
    rw [hlhs] at hl
    rw [hrhs] at hr
    exact hiff.2 lhs rhs hlhs hrhs (Except.ok.inj hl) (Except.ok.inj hr)

/-- A path with a colon behind a host without port. -/
def colonComponents : Components := ⟨units "http", units "a", none, units "/b:1"⟩

/-- Behind a host without port, a colon of the path is taken for the one of the port; and URIs of
different hosts compare equal. -/
theorem colon_taken_for_port :
    colonComponents.Valid ∧ ¬ colonComponents.IsParsed ∧
      ∃ lhs rhs, Uri.new (units "http://a/x") = .ok lhs ∧ Uri.new (units "http://b/x") = .ok rhs ∧
        lhs.isAbsoluteUri = true ∧ rhs.isAbsoluteUri = true ∧ ¬ lhs.ComparesComponents rhs := by
  refine ⟨⟨Or.inl rfl, Or.inl ⟨by decide, Utf.forall_mem_of_all (by decide)⟩, ?_, Or.inr rfl⟩, ?_, ?_⟩
  · rintro digits ⟨⟩
  · rintro ⟨uri, hnew, -, hhost, -⟩
    have hfound : (Uri.new colonComponents.text).map (·.host) = .ok (units "a/b") := by rfl
    rw [hnew] at hfound
    change Except.ok uri.host = _ at hfound
    rw [hhost] at hfound
    exact absurd hfound (by decide)
  · refine ⟨_, _, rfl, rfl, rfl, rfl, ?_⟩
    intro hcompares
    obtain ⟨⟨-, hhost, -⟩, -⟩ := hcompares (by rfl)
    exact absurd hhost (by decide)

end MicroFramework.Http
