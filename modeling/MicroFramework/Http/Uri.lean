import MicroFramework.Library.Utf16
import MicroFramework.Support.Crc
import MicroFramework.Support.LittleEndian
import MicroFramework.Text.IntegerParsing

/-!
# URIs

`System.Uri`: the parser of its constructor, the comparison and the hash code.  A string is the list of
its UTF-16 code units; searches in it and parts of it are what the documentation of `System.String`
says.
-/

namespace MicroFramework.Http

open Support

/-! ## Strings -/

/-- What the constructor throws. -/
inductive UriException where
  | argumentNull
  | argument
  | indexOutOfRange
  | argumentOutOfRange
  | nullReference
  | parse (failure : Text.ParseFailure)
deriving DecidableEq

def units (s : String) : List UInt16 := s.toList.map fun c ↦ UInt16.ofNat c.toNat

/-- `ToLower`, which knows the letters of ASCII. -/
def toLower (s : List UInt16) : List UInt16 :=
  s.map fun c ↦ if 65 ≤ c ∧ c ≤ 90 then c + 32 else c

/-- `IndexOf(char, int)` -/
def indexOf (s : List UInt16) (c : UInt16) (startIndex : ℕ) : Option ℕ :=
  ((s.drop startIndex).findIdx? (· == c)).map (startIndex + ·)

/-- `Substring(int, int)` -/
def substring (s : List UInt16) (startIndex : ℕ) (length : ℤ) :
    Except UriException (List UInt16) :=
  if length < 0 ∨ (startIndex : ℤ) + length > s.length then .error .argumentOutOfRange
  else .ok ((s.drop startIndex).take length.toNat)

def isAlpha (c : UInt16) : Bool := (65 ≤ c && c ≤ 90) || (97 ≤ c && c ≤ 122)

def isAlphaNumeric (c : UInt16) : Bool := isAlpha c || (48 ≤ c && c ≤ 57)

def isHex (c : UInt16) : Bool :=
  (65 ≤ c && c ≤ 70) || (97 ≤ c && c ≤ 102) || (48 ≤ c && c ≤ 57)

/-! ## The object -/

inductive UriHostNameType where
  | unknown
  | basic
  | dns
  | ipv4
  | ipv6
deriving DecidableEq

def UriHostNameType.value : UriHostNameType → ℕ
  | unknown => 0
  | basic => 1
  | dns => 2
  | ipv4 => 3
  | ipv6 => 4

def httpDefaultPort : ℤ := 80
def httpsDefaultPort : ℤ := 443
def unknownPort : ℤ := -1
def loopbackHost : ℕ := 0x00400000

/-- `Uri`, with `none` for a null reference. -/
structure Uri where
  hostNameType : UriHostNameType
  port : ℤ
  flags : ℕ
  absolutePath : Option (List UInt16)
  originalUriString : Option (List UInt16)
  scheme : Option (List UInt16)
  host : List UInt16
  isAbsoluteUri : Bool
  isUnc : Bool
deriving DecidableEq

/-- The fields before the constructor sets them. -/
def Uri.unset : Uri := ⟨.unknown, unknownPort, 0, none, none, none, [], false, false⟩

/-! ## Parsing -/

def isIPv4Loop : ℕ → ℕ → Bool → List UInt16 → Bool
  | dots, _, haveNumber, [] => dots = 3 && haveNumber
  | dots, number, haveNumber, ch :: host =>
    if 48 ≤ ch ∧ ch ≤ 57 then
      let number := number * 10 + (ch.toNat - 48)
      if number > 255 then false else isIPv4Loop dots number true host
    else if ch = 46 then
      if haveNumber then isIPv4Loop (dots + 1) 0 false host else false
    else false

def isIPv4 (host : List UInt16) : Bool := isIPv4Loop 0 0 false host

def validateUriPartLoop (uriString : List UInt16) (pathLength : ℕ) :
    ℕ → ℕ → Except UriException Unit
  | 0, _ => .ok ()
  | turns + 1, i =>
    if i < pathLength then
      match uriString[i]? with
      | none => .error .indexOutOfRange
      | some value =>
        if value < 32 then .error .argument
        else if value = 37 then
          if pathLength - i < 3 then .error .argument
          else if ((uriString.drop (i + 1)).take 2).all isHex then
            validateUriPartLoop uriString pathLength turns (i + 3)
          else .error .argument
        else validateUriPartLoop uriString pathLength turns (i + 1)
    else .ok ()

def validateUriPart (uriString : List UInt16) (startIndex : ℕ) : Except UriException Unit :=
  validateUriPartLoop uriString (uriString.length - startIndex) uriString.length startIndex

/-- The loop of `ValidateUrn` over a UUID. -/
def uuidLoop : ℕ → ℕ → List UInt16 → Bool
  | _, _, [] => true
  | i, uuidSegmentCount, c :: uuid =>
    if isHex c then uuidLoop (i + 1) uuidSegmentCount uuid
    else if c = 45 then
      if [8, 13, 18, 23][uuidSegmentCount]? = some i then
        uuidLoop (i + 1) (uuidSegmentCount + 1) uuid
      else false
    else false

def validateUrn (uri : List UInt16) : Except UriException Uri :=
  let urn : Uri := { Uri.unset with isAbsoluteUri := true, scheme := some (units "urn") }
  if units "urn:uuid:" <+: toLower uri then
    if uuidLoop 0 0 (toLower (uri.drop 9)) then
      .ok { urn with absolutePath := some (uri.drop 4) }
    else .error .argumentNull
  else
    let lowerUrn := toLower (uri.drop 4)
    match indexOf lowerUrn 58 0 with
    | none => .error .argument
    | some index =>
      let tempUrn := lowerUrn.drop (index + 1)
      if (lowerUrn.take index).all fun c ↦ isAlphaNumeric c || c = 45 then
        if tempUrn = [] then .ok urn
        else if tempUrn.all fun c ↦ isAlphaNumeric c || isHex c || c = 37 ||
            (units "()+,-.:=@;$_!*'").contains c then
          .ok { urn with absolutePath := some (uri.drop 4) }
        else .error .argumentNull
      else .error .argumentNull

def validateRelativePath (uri : List UInt16) : Except UriException Uri :=
  match uri[1]? with
  | none => .error .indexOutOfRange
  | some c =>
    if c = 47 then .error .argument
    else if (uri.drop 1).all fun c ↦ isAlphaNumeric c || (units "()+,-.:=@;$_!*'").contains c then
      .ok { Uri.unset with absolutePath := some (uri.drop 1) }
    else .error .argument

/-- The host up to the sentinel of the port, and the index behind it: a bracketed host, what stands
before a colon, or nothing. -/
def hostSentinel (uriString : List UInt16) (startIndex : ℕ) :
    Except UriException (List UInt16 × ℕ) :=
  match uriString[startIndex]? with
  | none => .error .indexOutOfRange
  | some c =>
    if c = 91 then
      match indexOf uriString 93 startIndex with
      | none => .error .argument
      | some endIndex =>
        .ok ((uriString.drop startIndex).take (endIndex + 1 - startIndex), endIndex + 1)
    else
      match indexOf uriString 58 startIndex with
      | none => .ok ([], startIndex)
      | some endIndex => .ok ((uriString.drop startIndex).take (endIndex - startIndex), endIndex)

/-- The index of the path, with a slash at the end of the string where there is none. -/
def pathSentinel (uriString : List UInt16) (startIndex : ℕ) : List UInt16 × ℕ :=
  match indexOf uriString 47 startIndex with
  | none => (uriString ++ [47], uriString.length)
  | some endIndex => (uriString, endIndex)

/-- The host, the port, the index of the path, and the string. -/
def parseAuthority (schemeLower uriString : List UInt16) (startIndex : ℕ) :
    Except UriException (List UInt16 × ℤ × ℕ × List UInt16) :=
  match hostSentinel uriString startIndex with
  | .error e => .error e
  | .ok (host, startIndex) =>
    let (uriString, endIndex) := pathSentinel uriString startIndex
    if host ≠ [] then
      match substring uriString (startIndex + 1) ((endIndex : ℤ) - (startIndex + 1 : ℕ)) with
      | .error e => .error e
      | .ok digits =>
        match Text.toInt32 (some digits) with
        | .error failure => .error (.parse failure)
        | .ok port => .ok (host, port, endIndex, uriString)
    else
      match substring uriString startIndex ((endIndex : ℤ) - startIndex) with
      | .error e => .error e
      | .ok host =>
        .ok (host, if schemeLower = units "http" then httpDefaultPort else httpsDefaultPort,
          startIndex + host.length, uriString)

def hostNameTypeOf (host : List UInt16) : UriHostNameType :=
  if host.head? = some 91 then .ipv6 else if isIPv4 host then .ipv4 else .dns

def flagsOf (host : List UInt16) : ℕ :=
  if toLower host = units "localhost" ∨ toLower host = units "loopback" then loopbackHost else 0

/-- The part of `ParseUriString` from the scheme on, with the string that it leaves. -/
def parseScheme (uriString : List UInt16) : Except UriException (Uri × List UInt16) :=
  match indexOf uriString 58 0 with
  | none => .error .argument
  | some endIndex =>
    match uriString.take endIndex with
    | [] => .error .indexOutOfRange
    | c :: tail =>
      let scheme := c :: tail
      if isAlpha c = false then .error .argument
      else if (tail.all fun c ↦ isAlphaNumeric c || c = 43 || c = 45 || c = 46) = false then
        .error .argument
      else
        let schemeLower := toLower scheme
        if schemeLower = units "http" ∨ schemeLower = units "https" then
          if units "//" <+: uriString.drop (endIndex + 1) then
            match parseAuthority schemeLower uriString (endIndex + 3) with
            | .error e => .error e
            | .ok (host, port, startIndex, uriString) =>
              if host = [] then .error .indexOutOfRange
              else
                .ok ({ Uri.unset with
                  hostNameType := hostNameTypeOf host
                  port := port
                  flags := flagsOf host
                  absolutePath := some (uriString.drop startIndex)
                  scheme := some scheme
                  host := host
                  isAbsoluteUri := true }, uriString)
          else .error .argument
        else
          match validateUriPart uriString (endIndex + 1) with
          | .error e => .error e
          | .ok () =>
            .ok ({ Uri.unset with
              absolutePath := some (uriString.drop (endIndex + 1))
              scheme := some scheme
              isAbsoluteUri := true }, uriString)

def parseUriString (uriString : List UInt16) : Except UriException (Uri × List UInt16) :=
  if uriString = [] then .error .argumentNull
  else if indexOf uriString 58 0 = none then .error .argument
  else if units "urn:" <+: toLower uriString then
    (validateUrn uriString).map fun uri ↦ (uri, uriString)
  else if uriString.head? = some 47 then
    (validateRelativePath uriString).map fun uri ↦ (uri, uriString)
  else parseScheme uriString

def Uri.new (uriString : List UInt16) : Except UriException Uri :=
  (parseUriString uriString).map fun (uri, uriString) ↦
    { uri with originalUriString := some uriString }

/-! ## Comparing and hashing -/

namespace Uri

/-- `operator ==`, on two references that are not null. -/
def opEquality (lhs rhs : Uri) : Except UriException Bool :=
  let compared (uri : Uri) : Option (List UInt16) :=
    if lhs.isAbsoluteUri && rhs.isAbsoluteUri then uri.absolutePath else uri.originalUriString
  match compared lhs, compared rhs with
  | some left, some right => .ok (decide (toLower left = toLower right))
  | _, _ => .error .nullReference

/-- The hash of a field: of the bytes of a number, of the text of a string; a null reference starts
the hash again. -/
def hashString (field : Option (List UInt16)) (crc : UInt32) : UInt32 :=
  match field with
  | none => 0
  | some text =>
    let szText := Utf.utf8 (Utf.scalars text)
    computeCRC szText szText.length crc

def hashBytes (width : ℕ) (value : ℕ) (crc : UInt32) : UInt32 :=
  computeCRC (leBytes width value) width crc

/-- `GetHashCode`, which is the one of `Object`: the hash of the fields, one after the other. -/
def getHashCode (uri : Uri) : UInt32 :=
  let crc := hashBytes 4 uri.hostNameType.value 0
  let crc := hashBytes 4 (uri.port % 2 ^ 32).toNat crc
  let crc := hashBytes 4 uri.flags crc
  let crc := hashString uri.absolutePath crc
  let crc := hashString uri.originalUriString crc
  let crc := hashString uri.scheme crc
  let crc := hashString (some uri.host) crc
  let crc := hashBytes 1 uri.isAbsoluteUri.toNat crc
  hashBytes 1 uri.isUnc.toNat crc

end Uri

end MicroFramework.Http
