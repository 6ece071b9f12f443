import MicroFramework.Http.Uri
import MicroFramework.Text.ParsingExactness

/-!
# Which URIs are parsed into their components

The text of a URI is put together from a scheme, a host, a port and a path.  It is parsed into these
exactly if a bracketed host has a port, a path behind a host without port has no colon, and the port
is a number of 31 bits: the parser looks for the colon of the port in all that is left, and takes for
granted that a port follows a bracketed host.
-/

namespace MicroFramework.Http

open Text List

/-! ## Searching -/

section Searching

variable {s pre rest : List UInt16} {c : UInt16} {start : ℕ}

theorem indexOf_eq_some (hdrop : s.drop start = pre ++ c :: rest) (hpre : c ∉ pre) :
    indexOf s c start = some (start + pre.length) := by
  have hnone : pre.findIdx? (· == c) = none := by
    rw [findIdx?_eq_none_iff]
    intro x hx
    apply beq_eq_false_iff_ne.mpr
    rintro rfl
    exact hpre hx
  rw [indexOf, hdrop, findIdx?_append, hnone, findIdx?_cons, if_pos (beq_self_eq_true c)]
  simp

theorem indexOf_eq_none : indexOf s c start = none ↔ c ∉ s.drop start := by
  rw [indexOf, Option.map_eq_none_iff, findIdx?_eq_none_iff]
  constructor
  · intro h hmem
    exact beq_eq_false_iff_ne.mp (h c hmem) rfl
  · intro h x hx
    apply beq_eq_false_iff_ne.mpr
    rintro rfl
    exact h hx

theorem getElem?_of_drop (hdrop : s.drop start = c :: rest) : s[start]? = some c := by
  rw [← Nat.add_zero start, ← getElem?_drop, hdrop]
  rfl

section

variable (hdrop : s.drop start = pre ++ rest)

include hdrop

theorem length_of_drop (hne : pre ≠ []) : s.length = start + pre.length + rest.length := by
  have hlength := congrArg List.length hdrop
  have hpos := length_pos_iff.mpr hne
  rw [length_drop, length_append] at hlength
  omega

theorem drop_of_drop : s.drop (start + pre.length) = rest := by
  rw [← drop_drop, hdrop, drop_left]

theorem substring_of_drop (hstart : start ≤ s.length) : substring s start pre.length = .ok pre := by
  have hlength := congrArg List.length hdrop
  rw [length_drop, length_append] at hlength
  rw [substring, if_neg (by omega), hdrop, Int.toNat_natCast, take_left]

end

end Searching

/-! ## The components -/

structure Components where
  scheme : List UInt16
  host : List UInt16
  port : Option (List UInt16)
  path : List UInt16

namespace Components

variable (c : Components)

def Bracketed : Prop := ∃ inner : List UInt16, c.host = 91 :: inner ++ [93] ∧ 93 ∉ inner

def Named : Prop := c.host ≠ [] ∧ ∀ u ∈ c.host, u ≠ 58 ∧ u ≠ 47 ∧ u ≠ 91 ∧ u ≠ 93

/-- A scheme of HTTP, a host, decimal digits for a port, and a path that begins with a slash. -/
structure Valid : Prop where
  scheme : toLower c.scheme = units "http" ∨ toLower c.scheme = units "https"
  host : c.Named ∨ c.Bracketed
  port : ∀ digits ∈ c.port, digits ≠ [] ∧ ∀ u ∈ digits, Text.IsDigit u
  path : c.path = [] ∨ c.path.head? = some 47

def portText : List UInt16 :=
  match c.port with
  | none => []
  | some digits => 58 :: digits

def authority : List UInt16 := c.host ++ c.portText

def text : List UInt16 := c.scheme ++ (units "://" ++ (c.authority ++ c.path))

def portNumber : ℤ :=
  match c.port with
  | some digits => number digits
  | none => if toLower c.scheme = units "http" then httpDefaultPort else httpsDefaultPort

def absolutePath : List UInt16 := if c.path = [] then [47] else c.path

def IsParsed : Prop :=
  ∃ uri, Uri.new c.text = .ok uri ∧ uri.scheme = some c.scheme ∧ uri.host = c.host ∧
    uri.port = c.portNumber ∧ uri.absolutePath = some c.absolutePath ∧ uri.isAbsoluteUri = true

/-- A bracketed host has a port, a path without port before it no colon, and the port fits in
31 bits. -/
structure Parsable : Prop where
  bracketed : c.Bracketed → c.port ≠ none
  colon : c.port = none → 58 ∉ c.path
  port : ∀ digits ∈ c.port, number digits < 2 ^ 31

end Components

/-! ## The scheme -/

section Scheme

variable {scheme : List UInt16}

theorem isAlpha_of_toLower (h : ∀ u ∈ toLower scheme, 97 ≤ u ∧ u ≤ 122) :
    ∀ u ∈ scheme, isAlpha u = true := by
  intro u hu
  have hlower := h _ (mem_map_of_mem hu)
  rw [isAlpha]
  split at hlower
  · rename_i hupper
    simp [hupper]
  · simp [hlower]

theorem scheme_letters (h : toLower scheme = units "http" ∨ toLower scheme = units "https") :
    (∀ u ∈ scheme, isAlpha u = true) ∧ scheme ≠ [] ∧ (toLower scheme).head? = some 104 := by
  refine ⟨?_, ?_, ?_⟩
  · apply isAlpha_of_toLower
    rcases h with h | h <;> rw [h] <;> exact Utf.forall_mem_of_all (by decide)
  · rintro rfl
    rcases h with h | h <;> exact absurd h (by decide)
  · rcases h with h | h <;> rw [h] <;> rfl

theorem isAlpha_ne {u v : UInt16} (h : isAlpha u = true) (hv : isAlpha v = false) : u ≠ v := by
  rintro rfl
  rw [h] at hv
  cases hv

end Scheme

/-! ## The authority -/

/-- The slash that is added to a URI without path. -/
def closing (path : List UInt16) : List UInt16 := if path = [] then [47] else []

section Authority

variable {s host digits path rest schemeLower : List UInt16} {start st : ℕ}

theorem hostSentinel_bracketed {inner : List UInt16}
    (hdrop : s.drop start = (91 :: inner ++ [93]) ++ rest) (hinner : 93 ∉ inner) :
    hostSentinel s start =
      .ok (91 :: inner ++ [93], start + (91 :: inner ++ [93] : List UInt16).length) := by
  have hregroup : s.drop start = (91 :: inner) ++ 93 :: rest := by
    rw [hdrop, append_assoc]
    rfl
  have hpre : (93 : UInt16) ∉ 91 :: inner := by
    intro hmem
    rcases mem_cons.mp hmem with heq | hmem
    · exact absurd heq (by decide)
    · exact hinner hmem
  have hcount : start + (91 :: inner).length + 1 - start =
      (91 :: inner ++ [93] : List UInt16).length := by
    rw [length_append, length_singleton]
    omega
  rw [hostSentinel, getElem?_of_drop hregroup]
  simp only
  rw [if_pos trivial, indexOf_eq_some hregroup hpre]
  simp only
  rw [hcount, hdrop, take_left, length_append, length_singleton, Nat.add_assoc]

theorem hostSentinel_colon (hdrop : s.drop start = host ++ 58 :: rest) (hcolon : 58 ∉ host)
    (hne : host ≠ []) (hhead : host.head? ≠ some 91) :
    hostSentinel s start = .ok (host, start + host.length) := by
  obtain ⟨u, tail, rfl⟩ := exists_cons_of_ne_nil hne
  have hu : ¬ u = 91 := fun heq ↦ hhead (congrArg some heq)
  rw [hostSentinel, getElem?_of_drop hdrop]
  simp only
  rw [if_neg hu, indexOf_eq_some hdrop hcolon]
  simp only
  rw [Nat.add_sub_cancel_left, hdrop, take_left]

theorem hostSentinel_none (hne : s.drop start ≠ []) (hcolon : 58 ∉ s.drop start)
    (hhead : (s.drop start).head? ≠ some 91) : hostSentinel s start = .ok ([], start) := by
  obtain ⟨u, tail, hdrop⟩ := exists_cons_of_ne_nil hne
  have hu : ¬ u = 91 := by
    rintro rfl
    rw [hdrop] at hhead
    exact hhead rfl
  rw [hostSentinel, getElem?_of_drop hdrop]
  simp only
  rw [if_neg hu, indexOf_eq_none.mpr hcolon]

/-- The path is found, or begun, behind what has no slash. -/
theorem pathSentinel_eq (hdrop : s.drop start = rest ++ path) (hstart : start ≤ s.length)
    (hslash : 47 ∉ rest) (hpath : path = [] ∨ path.head? = some 47) :
    pathSentinel s start = (s ++ closing path, start + rest.length) := by
  rw [pathSentinel]
  rcases hpath with rfl | hhead
  · rw [append_nil] at hdrop
    have hnone : indexOf s 47 start = none := by
      rw [indexOf_eq_none, hdrop]
      exact hslash
    have hlength := congrArg List.length hdrop
    rw [length_drop] at hlength
    rw [hnone]
    show (s ++ [47], s.length) = (s ++ [47], start + rest.length)
    rw [← hlength, Nat.add_sub_cancel' hstart]
  · obtain ⟨tail, rfl⟩ : ∃ tail, path = 47 :: tail := by
      cases path with
      | nil => cases hhead
      | cons u tail => exact ⟨tail, congrArg (· :: tail) (Option.some.inj hhead)⟩
    rw [indexOf_eq_some hdrop hslash, closing, if_neg (cons_ne_nil _ _), append_nil]

theorem parseAuthority_port (hsentinel : hostSentinel s start = .ok (host, st)) (hne : host ≠ [])
    (hdrop : s.drop st = (58 :: digits) ++ path) (hst : st ≤ s.length) (hslash : 47 ∉ digits)
    (hpath : path = [] ∨ path.head? = some 47) :
    parseAuthority schemeLower s start =
      match Text.toInt32 (some digits) with
      | .error failure => .error (.parse failure)
      | .ok port => .ok (host, port, st + (58 :: digits).length, s ++ closing path) := by
  have hslash' : (47 : UInt16) ∉ 58 :: digits := by
    intro hmem
    rcases mem_cons.mp hmem with heq | hmem
    · exact absurd heq (by decide)
    · exact hslash hmem
  have hlength := length_of_drop hdrop (cons_ne_nil _ _)
  have hdigits : (s ++ closing path).drop (st + 1) = digits ++ (path ++ closing path) := by
    have hcolon : s.drop st = [58] ++ (digits ++ path) := hdrop
    have hnext := drop_of_drop hcolon
    rw [length_singleton] at hnext
    rw [drop_append_of_le_length (by rw [length_cons] at hlength; omega), hnext,
      append_assoc]
  have hcount : ((st + (58 :: digits).length : ℕ) : ℤ) - (st + 1 : ℕ) = digits.length := by
    rw [length_cons]
    omega
  rw [parseAuthority, hsentinel]
  simp only
  rw [pathSentinel_eq hdrop hst hslash' hpath]
  simp only
  rw [hcount, substring_of_drop hdigits
    (by rw [length_append]; rw [length_cons] at hlength; omega)]
  exact if_pos hne

/-- Where a port was expected, but the path begins or the string ends, the length is `-1`. -/
theorem parseAuthority_bare (hsentinel : hostSentinel s start = .ok (host, st)) (hne : host ≠ [])
    (hdrop : s.drop st = path) (hst : st ≤ s.length) (hpath : path = [] ∨ path.head? = some 47) :
    parseAuthority schemeLower s start = .error .argumentOutOfRange := by
  rw [parseAuthority, hsentinel]
  simp only
  have hempty : s.drop st = [] ++ path := hdrop
  rw [pathSentinel_eq hempty hst not_mem_nil hpath]
  simp only
  rw [if_pos hne, substring, if_pos]
  left
  rw [length_nil]
  omega

/-- Without colon, the host ends where the path begins. -/
theorem parseAuthority_default (hsentinel : hostSentinel s start = .ok ([], start))
    (hdrop : s.drop start = host ++ path) (hstart : start ≤ s.length) (hslash : 47 ∉ host)
    (hpath : path = [] ∨ path.head? = some 47) :
    parseAuthority schemeLower s start =
      .ok (host, if schemeLower = units "http" then httpDefaultPort else httpsDefaultPort,
        start + host.length, s ++ closing path) := by
  have hhost : (s ++ closing path).drop start = host ++ (path ++ closing path) := by
    rw [drop_append_of_le_length hstart, hdrop, append_assoc]
  have hcount : ((start + host.length : ℕ) : ℤ) - start = host.length := by omega
  rw [parseAuthority, hsentinel]
  simp only
  rw [pathSentinel_eq hdrop hstart hslash hpath]
  simp only
  rw [if_neg (fun hnot ↦ hnot rfl), hcount, substring_of_drop hhost (by rw [length_append]; omega)]

/-- A host that was found before a sentinel is the host. -/
theorem host_of_parseAuthority {result : List UInt16 × ℤ × ℕ × List UInt16}
    (hsentinel : hostSentinel s start = .ok (host, st)) (hne : host ≠ [])
    (hparse : parseAuthority schemeLower s start = .ok result) : result.1 = host := by
  rw [parseAuthority, hsentinel] at hparse
  simp only at hparse
  rw [if_pos hne] at hparse
  split at hparse
  · cases hparse
  · split at hparse
    · cases hparse
    · rw [← Except.ok.inj hparse]

end Authority

/-! ## The parser -/

section Parser

variable {c : Components}

/-- The index behind the scheme and the slashes. -/
def Components.start (c : Components) : ℕ := c.scheme.length + 3

theorem text_eq (c : Components) : c.text = c.scheme ++ 58 :: 47 :: 47 :: (c.authority ++ c.path) :=
  rfl

theorem drop_start (c : Components) : c.text.drop c.start = c.authority ++ c.path := by
  rw [text_eq, Components.start, ← drop_drop, drop_left]
  rfl

theorem start_le (c : Components) : c.start ≤ c.text.length := by
  rw [text_eq, Components.start, length_append]
  simp only [length_cons]
  omega

theorem parseScheme_eq (h : c.Valid) :
    parseScheme c.text =
      match parseAuthority (toLower c.scheme) c.text c.start with
      | .error e => .error e
      | .ok (host, port, startIndex, uriString) =>
        if host = [] then .error .indexOutOfRange
        else
          .ok ({ Uri.unset with
            hostNameType := hostNameTypeOf host
            port := port
            flags := flagsOf host
            absolutePath := some (uriString.drop startIndex)
            scheme := some c.scheme
            host := host
            isAbsoluteUri := true }, uriString) := by
  obtain ⟨hletters, hne, -⟩ := scheme_letters h.scheme
  have hcolon : (58 : UInt16) ∉ c.scheme := by
    intro hmem
    exact isAlpha_ne (hletters 58 hmem) (by decide : isAlpha 58 = false) rfl
  have hindex : indexOf c.text 58 0 = some c.scheme.length := by
    rw [indexOf_eq_some (by rw [drop_zero]; exact text_eq c) hcolon, Nat.zero_add]
  have htake : c.text.take c.scheme.length = c.scheme := by rw [text_eq, take_left]
  have hslashes : units "//" <+: c.text.drop (c.scheme.length + 1) := by
    rw [text_eq, ← drop_drop, drop_left]
    exact ⟨_, rfl⟩
  rw [parseScheme, hindex]
  simp only
  rw [htake]
  cases hscheme : c.scheme with
  | nil => exact absurd hscheme hne
  | cons u tail =>
    rw [hscheme] at hletters hslashes
    have hhead : ¬ isAlpha u = false := by
      rw [hletters u mem_cons_self]
      decide
    have htail : ¬ (tail.all fun c ↦ isAlphaNumeric c || c = 43 || c = 45 || c = 46) = false := by
      rw [Bool.not_eq_false, all_eq_true]
      intro v hv
      simp [isAlphaNumeric, hletters v (mem_cons_of_mem _ hv)]
    have hhttp : toLower (u :: tail) = units "http" ∨ toLower (u :: tail) = units "https" := by
      rw [← hscheme]
      exact h.scheme
    have hstart : (u :: tail).length + 3 = c.start := by rw [Components.start, hscheme]
    simp only
    rw [if_neg hhead, if_neg htail, if_pos hhttp, hstart]
    exact if_pos hslashes

theorem new_eq (h : c.Valid) :
    Uri.new c.text = (parseScheme c.text).map fun (uri, uriString) ↦
      { uri with originalUriString := some uriString } := by
  obtain ⟨hletters, hne, hhead⟩ := scheme_letters h.scheme
  obtain ⟨u, tail, hscheme⟩ := exists_cons_of_ne_nil hne
  have htext : c.text ≠ [] := by
    rw [text_eq, hscheme]
    exact cons_ne_nil _ _
  have hcolon : ¬ indexOf c.text 58 0 = none := by
    rw [indexOf_eq_none, drop_zero, not_not, text_eq]
    exact mem_append_right _ mem_cons_self
  have hlower : ¬ units "urn:" <+: toLower c.text := by
    rintro ⟨rest, hrest⟩
    have hfirst : (toLower c.text).head? = some 104 := by
      rw [text_eq, toLower, map_append, head?_append]
      rw [toLower] at hhead
      rw [hhead]
      rfl
    rw [← hrest] at hfirst
    have heq : (117 : UInt16) = 104 := Option.some.inj hfirst
    exact absurd heq (by decide)
  have hslash : ¬ c.text.head? = some 47 := by
    rw [text_eq, hscheme]
    intro hhead
    have hu : u = 47 := Option.some.inj hhead
    have halpha := hletters u (by rw [hscheme]; exact mem_cons_self)
    rw [hu] at halpha
    exact absurd halpha (by decide)
  rw [Uri.new, parseUriString, if_neg htext, if_neg hcolon, if_neg hlower, if_neg hslash]

theorem isParsed_iff (h : c.Valid) :
    c.IsParsed ↔ ∃ startIndex uriString,
      parseAuthority (toLower c.scheme) c.text c.start =
          .ok (c.host, c.portNumber, startIndex, uriString) ∧
        c.host ≠ [] ∧ uriString.drop startIndex = c.absolutePath := by
  rw [Components.IsParsed, new_eq h, parseScheme_eq h]
  constructor
  · rintro ⟨uri, hnew, hscheme, hhost, hport, hpath, -⟩
    cases hparse : parseAuthority (toLower c.scheme) c.text c.start with
    | error e =>
      rw [hparse] at hnew
      cases hnew
    | ok result =>
      obtain ⟨host, port, startIndex, uriString⟩ := result
      rw [hparse] at hnew
      simp only at hnew
      by_cases hempty : host = []
      · rw [if_pos hempty] at hnew
        cases hnew
      · rw [if_neg hempty] at hnew
        rw [← Except.ok.inj hnew] at hhost hport hpath
        change host = c.host at hhost
        change port = c.portNumber at hport
        subst hhost hport
        exact ⟨startIndex, uriString, rfl, hempty, Option.some.inj hpath⟩
  · rintro ⟨startIndex, uriString, hparse, hne, hpath⟩
    rw [hparse]
    simp only
    rw [if_neg hne]
    exact ⟨_, rfl, rfl, rfl, rfl, congrArg some hpath, rfl⟩

theorem digit_ne {u v : UInt16} (hu : Text.IsDigit u) (hv : ¬ Text.IsDigit v) : u ≠ v := by
  rintro rfl
  exact hv hu

theorem trim_digits {digits : List UInt16} (hdigits : ∀ u ∈ digits, Text.IsDigit u) :
    Text.trim digits = digits := by
  have hspace : ∀ u ∈ digits, (u == 32) = false := by
    intro u hu
    exact beq_eq_false_iff_ne.mpr (digit_ne (hdigits u hu) (by decide))
  have hfront : digits.dropWhile (fun u ↦ u == 32) = digits := by
    cases digits with
    | nil => rfl
    | cons u tail =>
      rw [dropWhile_cons, if_neg]
      rw [hspace u mem_cons_self]
      decide
  rw [Text.trim, hfront, rdropWhile_eq_self_iff]
  intro hne
  rw [hspace _ (getLast_mem hne)]
  decide

theorem splitSign_digits {digits : List UInt16} (hdigits : ∀ u ∈ digits, Text.IsDigit u) :
    splitSign digits = (false, digits) := by
  cases digits with
  | nil => rfl
  | cons u tail =>
    have hu := hdigits u mem_cons_self
    rw [splitSign]
    · rintro num hminus
      exact digit_ne hu (by decide) (List.cons.inj hminus).1
    · rintro num hplus
      exact digit_ne hu (by decide) (List.cons.inj hplus).1

/-- The digits of a port are converted if they denote a number of 31 bits. -/
theorem toInt32_port {digits : List UInt16} (hne : digits ≠ [])
    (hdigits : ∀ u ∈ digits, Text.IsDigit u) (n : ℤ) :
    Text.toInt32 (some digits) = .ok n ↔ n = number digits ∧ number digits < 2 ^ 31 := by
  have hrange : ∀ m : ℕ, Text.IntegerType.InRange .int32 (m : ℤ) ↔ m < 2 ^ 31 := by
    intro m
    show -2 ^ 31 ≤ (m : ℤ) ∧ (m : ℤ) < 2 ^ 31 ↔ _
    omega
  have hconvert := convert_ok_iff .int32 digits n
  rw [trim_digits hdigits, splitSign_digits hdigits] at hconvert
  change Text.toInt32 (some digits) = .ok n ↔ digits ≠ [] ∧ (∀ u ∈ digits, Text.IsDigit u) ∧
    Text.PassesGuard true digits ∧ signedRemainder false digits = n ∧
      Text.IntegerType.InRange .int32 n at hconvert
  rw [hconvert]
  constructor
  · rintro ⟨-, -, hguard, hn, hin⟩
    have hle := number_le_of_passesGuard hdigits hguard
    rw [signedRemainder_of_lt (by omega)] at hn
    change (number digits : ℤ) = n at hn
    rw [← hn] at hin
    exact ⟨hn.symm, (hrange _).mp hin⟩
  · rintro ⟨hn, hlt⟩
    have hguard : Text.PassesGuard true digits := by
      apply passesGuard_of_lt
      rw [overflowGuard, if_pos rfl]
      omega
    refine ⟨hne, hdigits, hguard, ?_, ?_⟩
    · rw [signedRemainder_of_lt (by omega)]
      exact hn.symm
    · rw [hn]
      exact (hrange _).mpr hlt

theorem drop_authority (c : Components) :
    c.text.drop c.start = c.host ++ (c.portText ++ c.path) := by
  rw [drop_start, Components.authority, append_assoc]

theorem drop_absolutePath {s path : List UInt16} {start : ℕ} (hdrop : s.drop start = path)
    (hstart : start ≤ s.length) :
    (s ++ closing path).drop start = if path = [] then [47] else path := by
  rw [drop_append_of_le_length hstart, hdrop, closing]
  split
  · rename_i hnil
    rw [hnil]
    rfl
  · exact append_nil _

theorem isParsed_sentinel (h : c.Valid) (hne : c.host ≠ [])
    (hsentinel : hostSentinel c.text c.start = .ok (c.host, c.start + c.host.length)) :
    c.IsParsed ↔ ∃ digits ∈ c.port, number digits < 2 ^ 31 := by
  have hlength := length_of_drop (drop_authority c) hne
  have hdrop := drop_of_drop (drop_authority c)
  rw [isParsed_iff h]
  cases hport : c.port with
  | none =>
    rw [Components.portText, hport, nil_append] at hdrop
    rw [parseAuthority_bare hsentinel hne hdrop (by omega) h.path]
    constructor
    · rintro ⟨startIndex, uriString, hparse, -⟩
      cases hparse
    · rintro ⟨digits, hdigits, -⟩
      cases hdigits
  | some digits =>
    obtain ⟨hdigitsne, hdigits⟩ := h.port digits hport
    have hnumber : c.portNumber = number digits := by rw [Components.portNumber, hport]
    have hslash : 47 ∉ digits := fun hmem ↦ absurd (hdigits 47 hmem) (by decide)
    have hportText : c.portText = 58 :: digits := by rw [Components.portText, hport]
    rw [hportText] at hdrop hlength
    rw [parseAuthority_port hsentinel hne hdrop (by omega) hslash h.path, hnumber]
    have hconvert := fun n ↦ toInt32_port hdigitsne hdigits n
    constructor
    · rintro ⟨startIndex, uriString, hparse, -⟩
      cases hresult : Text.toInt32 (some digits) with
      | error failure =>
        rw [hresult] at hparse
        cases hparse
      | ok n => exact ⟨digits, rfl, ((hconvert n).mp hresult).2⟩
    · rintro ⟨digits', hdigits', hlt⟩
      obtain rfl := Option.mem_some_iff.mp hdigits'
      rw [(hconvert _).mpr ⟨rfl, hlt⟩]
      have hpath := drop_of_drop hdrop
      have hlength' := length_of_drop hdrop (cons_ne_nil _ _)
      rw [length_append] at hlength
      exact ⟨_, _, rfl, hne, drop_absolutePath hpath (by omega)⟩

/-! ## The hosts -/

theorem named_ne (h : c.Named) :
    c.host ≠ [] ∧ 58 ∉ c.host ∧ 47 ∉ c.host ∧ c.host.head? ≠ some 91 := by
  obtain ⟨hne, hall⟩ := h
  refine ⟨hne, fun hmem ↦ (hall _ hmem).1 rfl, fun hmem ↦ (hall _ hmem).2.1 rfl, ?_⟩
  intro hhead
  exact (hall 91 (mem_of_mem_head? hhead)).2.2.1 rfl

theorem not_bracketed (h : c.Named) : ¬ c.Bracketed := by
  rintro ⟨inner, hhost, -⟩
  apply (named_ne h).2.2.2
  rw [hhost]
  rfl

theorem isParsed_bracketed (h : c.Valid) (hbracketed : c.Bracketed) :
    c.IsParsed ↔ ∃ digits ∈ c.port, number digits < 2 ^ 31 := by
  obtain ⟨inner, hhost, hinner⟩ := hbracketed
  apply isParsed_sentinel h
  · rw [hhost]
    exact cons_ne_nil _ _
  · have hdrop := drop_authority c
    rw [hhost] at hdrop ⊢
    exact hostSentinel_bracketed hdrop hinner

/-- A name is found by the colon of its port. -/
theorem isParsed_named (h : c.Valid) (hnamed : c.Named) {digits : List UInt16}
    (hport : c.port = some digits) : c.IsParsed ↔ number digits < 2 ^ 31 := by
  obtain ⟨hne, hcolon, -, hhead⟩ := named_ne hnamed
  have hdrop := drop_authority c
  have htext : c.portText ++ c.path = 58 :: (digits ++ c.path) := by
    rw [Components.portText, hport]
    rfl
  rw [htext] at hdrop
  rw [isParsed_sentinel h hne (hostSentinel_colon hdrop hcolon hne hhead), hport]
  constructor
  · rintro ⟨digits', hdigits', hlt⟩
    obtain rfl := Option.mem_some_iff.mp hdigits'
    exact hlt
  · intro hlt
    exact ⟨digits, rfl, hlt⟩

/-- A name without port is parsed if no colon follows: otherwise the name is taken up to it. -/
theorem isParsed_default (h : c.Valid) (hnamed : c.Named) (hport : c.port = none) :
    c.IsParsed ↔ 58 ∉ c.path := by
  obtain ⟨hne, hcolon, hslash, hhead⟩ := named_ne hnamed
  have hdrop := drop_authority c
  rw [Components.portText, hport, nil_append] at hdrop
  rw [isParsed_iff h]
  constructor
  · rintro ⟨startIndex, uriString, hparse, -⟩ hmem
    -- up to the first colon of the path
    obtain ⟨left, right, hpath, hleft⟩ := eq_append_cons_of_mem hmem
    have hlong : c.text.drop c.start = (c.host ++ left) ++ 58 :: right := by
      rw [hdrop, hpath, append_assoc]
    have hnot : 58 ∉ c.host ++ left := by
      rw [mem_append, not_or]
      exact ⟨hcolon, hleft⟩
    have hlongne : c.host ++ left ≠ [] := append_ne_nil_of_left_ne_nil hne _
    have hlonghead : (c.host ++ left).head? ≠ some 91 := by
      rw [head?_append_of_ne_nil _ hne]
      exact hhead
    have hfound := host_of_parseAuthority (hostSentinel_colon hlong hnot hlongne hlonghead) hlongne
      hparse
    have hnil : left = [] := self_eq_append_right.mp hfound
    rw [hnil, nil_append] at hpath
    rcases h.path with hempty | hfirst
    · rw [hempty] at hpath
      cases hpath
    · rw [hpath] at hfirst
      exact absurd (Option.some.inj hfirst) (by decide)
  · intro hpathcolon
    have hstart := start_le c
    have hsentinel : hostSentinel c.text c.start = .ok ([], c.start) := by
      apply hostSentinel_none
      · rw [hdrop]
        exact append_ne_nil_of_left_ne_nil hne _
      · rw [hdrop, mem_append, not_or]
        exact ⟨hcolon, hpathcolon⟩
      · rw [hdrop, head?_append_of_ne_nil _ hne]
        exact hhead
    have hlength := length_of_drop hdrop hne
    have hpath := drop_of_drop hdrop
    refine ⟨c.start + c.host.length, c.text ++ closing c.path, ?_, hne,
      drop_absolutePath hpath (by omega)⟩
    rw [parseAuthority_default hsentinel hdrop hstart hslash h.path, Components.portNumber, hport]

/-- Which URIs are parsed into their components. -/
theorem isParsed_iff_parsable (h : c.Valid) : c.IsParsed ↔ c.Parsable := by
  rcases h.host with hnamed | hbracketed
  · cases hport : c.port with
    | none =>
      rw [isParsed_default h hnamed hport]
      constructor
      · intro hcolon
        refine ⟨fun hbracketed ↦ absurd hbracketed (not_bracketed hnamed), fun _ ↦ hcolon, ?_⟩
        rw [hport]
        rintro digits ⟨⟩
      · intro hparsable
        exact hparsable.colon hport
    | some digits =>
      rw [isParsed_named h hnamed hport]
      constructor
      · intro hlt
        refine ⟨fun _ ↦ hport ▸ Option.some_ne_none _, fun hnone ↦ ?_, ?_⟩
        · rw [hport] at hnone
          cases hnone
        · rw [hport]
          rintro digits' ⟨⟩
          exact hlt
      · intro hparsable
        exact hparsable.port digits hport
  · rw [isParsed_bracketed h hbracketed]
    constructor
    · rintro ⟨digits, hport, hlt⟩
      have hsome : c.port = some digits := hport
      refine ⟨fun _ ↦ hsome ▸ Option.some_ne_none _, fun hnone ↦ ?_, ?_⟩
      · rw [hsome] at hnone
        cases hnone
      · rw [hsome]
        rintro digits' ⟨⟩
        exact hlt
    · intro hparsable
      obtain ⟨digits, hport⟩ := Option.ne_none_iff_exists'.mp (hparsable.bracketed hbracketed)
      exact ⟨digits, hport, hparsable.port digits hport⟩

end Parser

end MicroFramework.Http
