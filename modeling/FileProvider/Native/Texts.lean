import FileProvider.Library.Utf8
import FileProvider.Native.Times

/-!
# Texts and addresses of the native library

The normal form of the texts that author metadata holds, and the syntax of the addresses it names.
`Utf8proc` is the Unicode library that composes texts.

The classes of characters are the ranges of their general categories, and a text that is no UTF-8 is
refused before it is composed. An address is checked part by part, in the order of the source.
-/

namespace FileProvider

open Bytes Fallible

/-- The part of a Unicode library that is not written out: the composed forms of a text and the
lower case of a scalar. A composed text is composed in all its parts, and ASCII is composed. -/
structure Utf8proc where
  compose : List Char → List Char
  compatible : List Char → List Char
  lower : Char → Char
  compose_idem : ∀ s, compose (compose s) = compose s
  compose_part : ∀ s t u, compose (s ++ t ++ u) = s ++ t ++ u → compose t = t
  compose_ascii : ∀ s : List Char, (∀ c ∈ s, c.toNat < 128) → compose s = s

namespace Native

variable (U : Utf8proc)

/-! ## Texts -/

/-- The general category Cc. -/
def control (c : Char) : Bool := c.toNat < 32 || 127 ≤ c.toNat && c.toNat ≤ 159

/-- The general category Zs. -/
def spaceSeparator (c : Char) : Bool :=
  c.toNat ∈ [0x20, 0xA0, 0x1680, 0x202F, 0x205F, 0x3000] || 0x2000 ≤ c.toNat && c.toNat ≤ 0x200A

/-- The general categories Zl and Zp. -/
def lineSeparator (c : Char) : Bool := c.toNat = 0x2028 || c.toNat = 0x2029

def whitespace (c : Char) : Bool :=
  9 ≤ c.toNat && c.toNat ≤ 13 || c.toNat = 0x85 || spaceSeparator c || lineSeparator c

/-- The scalars of a text. -/
def scalars (value : Bytes) : Fallible (List Char) :=
  orFail "Invalid persisted author metadata" (Utf8.scalars value)

/-- A scalar in lower case: a capital I with a dot keeps the dot. -/
def lowered (point : Char) : List Char :=
  if point.toNat = 0x130 then ['i', Char.ofNat 0x307] else [U.lower point]

def normalize (input : Bytes) (compatibility fold : Bool) : Fallible Bytes := do
  let points ← scalars input
  let output := if compatibility then U.compatible points else U.compose points
  pure (Utf8.encode (if fold then output.flatMap (lowered U) else output))

/-- Scalars without whitespace at their ends. -/
def trim (points : List Char) : List Char :=
  ((points.dropWhile whitespace).reverse.dropWhile whitespace).reverse

/-- A scalar that a text can hold. -/
def printable (multiline : Bool) (point : Char) : Bool :=
  multiline && point.toNat = 10 || !control point && !lineSeparator point

def clean (value : Bytes) (maximum : Nat) (required multiline : Bool) : Fallible Bytes := do
  let points ← scalars (← normalize U value false false)
  let points := trim points
  require (points.length ≤ maximum ∧ (required = false ∨ points ≠ []))
  require (points.all (printable multiline) = true)
  pure (Utf8.encode points)

/-- The keys an object can have. -/
def keys (value : Json) (allowed : List Bytes) : Fallible Unit := do
  require (value.isObject = true)
  let members ← value.getMembers
  require (members.all (fun m => m.1 ∈ allowed) = true)

/-- The text of a member, which may be missing unless it is required. -/
def text (value : Json) (name : Bytes) (maximum : Nat) (required multiline : Bool) :
    Fallible Bytes :=
  match value.member? name with
  | none => do
      require (required = false)
      pure []
  | some (.str s) => clean U s maximum required multiline
  | some _ => .error "Invalid persisted author metadata"

/-- The time of a member, which may be missing or null unless it is required. -/
def optionalDate (value : Json) (name : Bytes) (required : Bool) : Fallible Bytes :=
  match value.member? name with
  | none | some .null => do
      require (required = false)
      pure []
  | some (.str s) => timestamp s
  | some _ => .error "Invalid persisted author metadata"

/-- `dateValue`. -/
def dateValue (value : Bytes) : Json := if value = [] then .null else .str value

/-! ## Addresses -/

/-- `std::isalpha`. -/
def isAlpha (c : UInt8) : Bool := 65 ≤ c && c ≤ 90 || 97 ≤ c && c ≤ 122

def isAlnum (c : UInt8) : Bool := isAlpha c || isDigit c

/-- `std::isxdigit`. -/
def isXDigit (c : UInt8) : Bool := isDigit c || 65 ≤ c && c ≤ 70 || 97 ≤ c && c ≤ 102

/-- A byte that ends the part of an address before its path. -/
def endsAuthority (c : UInt8) : Bool := c ∈ ascii "/?#"

/-- The scheme of an address, when it has one. -/
def scheme? (value : Bytes) : Option Bytes :=
  let front := value.takeWhile (fun c => !endsAuthority c)
  if 58 ∈ front then some (front.takeWhile (· ≠ 58)) else none

def schemeShape : Bytes → Bool
  | [] => false
  | c :: s => isAlpha c && s.all (fun c => isAlnum c || c ∈ ascii "+-.")

/-- Every percent sign has its two hexadecimal digits. -/
def escapesShape : Bytes → Bool
  | [] => true
  | 37 :: a :: b :: s => isXDigit a && isXDigit b && escapesShape s
  | c :: s => c ≠ 37 && escapesShape s

/-- A port is empty, or the digits of a number of 16 bits. -/
def portShape (port : Bytes) : Bool := port = [] || port.all isDigit && number port ≤ 65535

/-- A host and its port. -/
def hostShape (host : Bytes) : Bool :=
  match host with
  | [] => false
  | 91 :: rest =>
      let inside := rest.takeWhile (· ≠ 93)
      93 ∈ rest && 58 ∈ inside &&
        match rest.drop (inside.length + 1) with
        | [] => true
        | c :: port => c = 58 && portShape port
  | host =>
      !host.any (fun c => c ∈ [91, 93, 92]) &&
        (58 ∉ host || (host.takeWhile (· ≠ 58) ≠ [] && portShape ((host.dropWhile (· ≠ 58)).tail)))

/-- The text behind the last sign of a kind, or all of it. -/
def behindLast (c : UInt8) (s : Bytes) : Bytes := (s.reverse.takeWhile (· ≠ c)).reverse

/-- The part of an address behind its scheme: an authority behind two slashes, and the path. -/
def restShape (scheme : Option Bytes) (rest : Bytes) : Bool :=
  if (ascii "//").isPrefixOf rest then
    let authority := (rest.drop 2).takeWhile (fun c => !endsAuthority c)
    if authority = [] then scheme = some (ascii "file")
    else hostShape (behindLast 64 authority)
  else true

/-- The bytes of a scalar where an address escapes it. -/
def encodedBytes (c : Char) : Nat :=
  if 0x80 ≤ c.toNat then if c.toNat < 0x800 then 6 else if c.toNat < 0x10000 then 9 else 12 else 1

def validUri (value : Bytes) (absolute : Bool) : Bool :=
  if value = [] || 8192 < value.length then false
  else match Utf8.scalars value with
    | none => false
    | some points =>
      if points.any (fun c => c.toNat ≤ 32 || control c || lineSeparator c) then false
      else if 8192 < (points.map encodedBytes).sum then false
      else match scheme? value with
        | none => !absolute && escapesShape value && restShape none value
        | some scheme =>
            schemeShape scheme && escapesShape value
              && restShape (some scheme) (value.drop (scheme.length + 1))

/-- The text behind the first place where another text stands. -/
def behind? (marker : Bytes) : Bytes → Option Bytes
  | [] => if marker = [] then some [] else none
  | c :: s =>
      if marker.isPrefixOf (c :: s) then some ((c :: s).drop marker.length) else behind? marker s

def withoutUserInfo (url : Bytes) : Bool :=
  match behind? (ascii "://") url with
  | none => false
  | some rest =>
      let authority := rest.takeWhile (fun c => !endsAuthority c)
      authority ≠ [] && 64 ∉ authority

/-- `std::tolower`. -/
def toLower (c : UInt8) : UInt8 := if 65 ≤ c && c ≤ 90 then c + 32 else c

/-- The origin of a service, in lower case and without the usual port. -/
def origin (value : Bytes) : Fallible Bytes := do
  require (validUri value true = true ∧ (ascii "https://").isPrefixOf value = true
    ∧ (value.drop 8).all (fun c => c ∉ ascii "@?#") = true)
  let host := (value.drop 8).takeWhile (· ≠ 47)
  require ((value.drop 8).drop host.length ∈ [[], [47]])
  let value := ascii "https://" ++ host
  require (8 < value.length ∧ value.length ≤ 2048)
  let value := value.take 8 ++ (value.drop 8).map toLower
  pure (if (ascii ":443").isSuffixOf value then value.take (value.length - 4) else value)

/-- A name of a time zone, or an offset; `known` are the zones of the system. -/
def validTimeZone (known : Bytes → Bool) (value : Bytes) : Bool :=
  value = [] || known value || value ∈ [ascii "UTC", ascii "GMT"]
    || match value with
      | [85, 84, 67, sign, h, h', 58, m, m'] =>
          (sign = 43 || sign = 45) && [h, h', m, m'].all isDigit && number [h, h'] ≤ 14
            && number [m, m'] < 60
      | _ => false

end Native

end FileProvider
