import FileProvider.Identity.Links

/-!
# The JSON contract of authors and credentials

What the readers of authors and of credentials share: the values of a JSON object of Qt, and the
texts, addresses and times that are read from it. What is refused is the name of a field.

The library of Qt is a parameter: its addresses, its times and the size of a compact text. A text of
Qt is a list of UTF-16 units, which need not be the text of any scalars; what is read of one is its
scalars, or nothing.
-/

namespace FileProvider

open Bytes Fallible

/-! ## Values -/

/-- `QJsonValue`. -/
inductive QJsonValue where
  | null
  | bool (b : Bool)
  | double (x : Double)
  | string (s : QString)
  | array (elements : List QJsonValue)
  | object (members : List (QString × QJsonValue))

/-- `QJsonObject`, whose keys are distinct. -/
abbrev QJsonObject := List (QString × QJsonValue)

/-- The parts of a Qt library that know addresses, times, time zones and the length of a compact
JSON document. Addresses are compared by an equivalence. -/
structure QtLibraries extends QtAddresses where
  noUrl : Url
  equal : Url → Url → Bool
  scheme : Url → QString
  host : Url → QString
  userInfo : Url → QString
  path : Url → QString
  encodedPath : Url → QString
  hasQuery : Url → Bool
  hasFragment : Url → Bool
  isRelative : Url → Bool
  withoutPath : Url → Url
  resolved : Url → Url → Url
  setPath : Url → QString → Url
  port : Url → Int
  setPort : Url → Int → Url
  DateTime : Type
  noDate : DateTime
  dateValid : DateTime → Bool
  toUTC : DateTime → DateTime
  fromIso : QString → DateTime
  toIso : DateTime → QString
  before : DateTime → DateTime → Bool
  zoneValid : QString → Bool
  compactSize : QJsonObject → Nat
  equal_refl : ∀ u, equal u u = true
  equal_symm : ∀ {u v}, equal u v = true → equal v u = true
  equal_trans : ∀ {u v w}, equal u v = true → equal v w = true → equal u w = true

namespace Identity

/-- A text of ASCII. -/
def units (s : String) : QString := s.toList.map fun c => c.toNat.toUInt16

/-- `QJsonObject::value`, which is undefined for a key that is not there. -/
def value (json : QJsonObject) (key : String) : Option QJsonValue :=
  (json.find? fun m => m.1 = units key).map (·.2)

/-- The members of an object that is made of its fields. -/
def fields (members : List (String × QJsonValue)) : QJsonObject :=
  members.map fun m => (units m.1, m.2)

variable (U : Utf8proc) (Q : QtLibraries)

/-! ## Texts -/

/-- `text`, whose scalars are clean. -/
def points (json : QJsonObject) (key : String) (maximum : Nat) (required multiline : Bool) :
    Fallible (List Char) :=
  match value json key with
  | none => if required then .error key else pure []
  | some (.string s) => cleanText U s key maximum required multiline
  | some _ => .error key

def text (json : QJsonObject) (key : String) (maximum : Nat) (required multiline : Bool) :
    Fallible QString :=
  Utf16.encode <$> points U json key maximum required multiline

/-- `email` of a text of Qt. -/
def emailText (s : QString) (field : String) : Fallible QString := do
  let points ← orFail field (Utf16.scalars s)
  Utf16.encode <$> email U points field

def object (parent : QJsonObject) (key : String) (required : Bool) : Fallible QJsonObject :=
  match value parent key with
  | none => if required then .error key else pure []
  | some (.object members) => pure members
  | some _ => .error key

def knownKeys (json : QJsonObject) (keys : List String) (field : String) : Fallible Unit :=
  failIf (∃ m ∈ json, m.1 ∉ keys.map units) field

/-! ## Patterns -/

def digit (u : UInt16) : Bool := 48 ≤ u && u ≤ 57

def lowerHex (u : UInt16) : Bool := digit u || 97 ≤ u && u ≤ 102

def lowerLetter (u : UInt16) : Bool := 97 ≤ u && u ≤ 122

def upperLetter (u : UInt16) : Bool := 65 ≤ u && u ≤ 90

def letter (u : UInt16) : Bool := lowerLetter u || upperLetter u

/-- `[A-Za-z0-9_-]`. -/
def token (u : UInt16) : Bool := letter u || digit u || u = 95 || u = 45

/-- A pattern of one class, repeated. -/
def repeated (p : UInt16 → Bool) (least most : Nat) (s : QString) : Bool :=
  least ≤ s.length && s.length ≤ most && s.all p

/-- What follows a text in a pattern that starts with the text. -/
def after (start : String) (p : QString → Bool) (s : QString) : Bool :=
  (units start).isPrefixOf s && p (s.drop start.length)

/-- `@[a-z0-9_]{3,30}`. -/
def userIdPattern : QString → Bool :=
  after "@" (repeated (fun u => lowerLetter u || digit u || u = 95) 3 30)

/-- `/media/avatars/[a-f0-9]{64}\.webp`. -/
def avatarPattern : QString → Bool :=
  after "/media/avatars/" fun s =>
    repeated lowerHex 64 64 (s.take 64) && s.drop 64 = units ".webp"

/-- `[A-Za-z]{2,8}(?:-[A-Za-z0-9]{1,8})*`. -/
def localePattern (s : QString) : Bool :=
  match s.splitOn 45 with
  | [] => false
  | language :: parts =>
      repeated letter 2 8 language && parts.all (repeated (fun u => letter u || digit u) 1 8)

/-- A text of classes, one for each unit, and what follows it. -/
def follows (classes : List (UInt16 → Bool)) (s : QString) : Option QString :=
  if classes.length ≤ s.length ∧ (classes.zip s).all (fun m => m.1 m.2) then
    some (s.drop classes.length)
  else none

/-- A digit for `d`, and any other sign for itself. -/
def classes (shape : String) : List (UInt16 → Bool) :=
  shape.toList.map fun c => if c = 'd' then digit else fun u => u = c.toNat.toUInt16

/-- `(?:Z|[+-][0-9]{2}:[0-9]{2})`. -/
def zonePattern (s : QString) : Bool :=
  s = units "Z" || (follows ((fun u => u = 43 || u = 45) :: classes "dd:dd") s).any (·.isEmpty)

/-- `(?:\.[0-9]{1,3})?` and a zone. -/
def fractionPattern (s : QString) : Bool :=
  if s.head? = some 46 then
    let fraction := s.tail.takeWhile digit
    1 ≤ fraction.length && fraction.length ≤ 3 && zonePattern (s.drop (fraction.length + 1))
  else zonePattern s

/-- The pattern of `timestamp`. -/
def timestampPattern (s : QString) : Bool :=
  (follows (classes "dddd-dd-ddTdd:dd:dd") s).any fractionPattern

example : timestampPattern (units "2024-02-29T12:00:00.5+09:00") = true := by decide

/-! ## Times and addresses -/

def timestamp (json : QJsonObject) (key : String) (required : Bool) : Fallible Q.DateTime :=
  let read (raw : QString) : Fallible Q.DateTime := do
    failIf (timestampPattern raw = false) key
    let parsed := Q.fromIso raw
    failIf (Q.dateValid parsed = false) key
    pure (Q.toUTC parsed)
  match value json key with
  | none => if required then .error key else pure Q.noDate
  | some .null => if required then .error key else pure Q.noDate
  | some (.string raw) => read raw
  | some _ => .error key

def dateJson (date : Q.DateTime) : QJsonValue :=
  if Q.dateValid date then .string (Q.toIso (Q.toUTC date)) else .null

def httpsUrl (raw : QString) (field : String) (required : Bool) : Fallible Q.Url :=
  if raw = [] ∧ required = false then pure Q.noUrl
  else do
    let url := Q.strict raw
    failIf (¬ (raw.length ≤ 2048 ∧ Q.isValid url = true ∧ Q.scheme url = units "https" ∧
      Q.host url ≠ [] ∧ Q.userInfo url = [])) field
    pure url

def serviceOrigin (given : Q.Url) : Fallible Q.Url := do
  let url ← httpsUrl Q (Q.fullyEncoded given) "serviceOrigin" true
  failIf (¬ ((Q.path url = [] ∨ Q.path url = units "/") ∧ Q.hasQuery url = false ∧
    Q.hasFragment url = false)) "serviceOrigin"
  let url := Q.setPath url []
  pure (if Q.port url = 443 then Q.setPort url (-1) else url)

end Identity

end FileProvider
