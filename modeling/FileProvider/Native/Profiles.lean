import FileProvider.Native.Texts

/-!
# Profiles of authors

`profile` checks the JSON snapshot of an author and brings it into its canonical form: every member
is there, texts are composed, times are in UTC. A `FileAuthor` holds the canonical text and what the
program reads of it.

A profile is accepted member by member, with a check of the keys of each object, and what is written
is made from what was read: every member has its place in the canonical text, also one that was
missing.
-/

namespace FileProvider

open Bytes Fallible

/-- The libraries the native library is built with. `zone` are the time zones of the system, and
`sha256` is written in lower-case hexadecimal digits. -/
structure NativeLibraries where
  unicode : Utf8proc
  json : JsonLibrary
  zone : Bytes → Bool
  sha256 : Bytes → Bytes
  sha256_digits : ∀ s, (sha256 s).length = 64 ∧ ∀ c ∈ sha256 s, c ∈ ascii "0123456789abcdef"

/-- What the program reads of an account. -/
structure IisaccAccount where
  sub : Bytes
  email : Bytes
  displayName : Bytes
  userId : Bytes
  societyCloudMembership : Bytes
  avatarUrl : Bytes
deriving DecidableEq

structure AuthorMetadata where
  account : IisaccAccount
  serviceOrigin : Bytes
  capturedAt : Bytes
deriving DecidableEq

/-- An author: the canonical text of a profile, and what is read of it. -/
structure FileAuthor where
  metadata : AuthorMetadata
  profile : Bytes
deriving DecidableEq

/-- A link of a file. -/
structure FileLink where
  name : Bytes
  url : Bytes
deriving DecidableEq

namespace Native

variable (E : NativeLibraries)

/-! ## Patterns -/

/-- `[A-Za-z0-9_-]{1,128}`. -/
def subjectPattern (s : Bytes) : Bool :=
  1 ≤ s.length && s.length ≤ 128 && s.all (fun c => isAlnum c || c = 95 || c = 45)

/-- `std::isspace`. -/
def isSpace (c : UInt8) : Bool := c = 32 || 9 ≤ c && c ≤ 13

/-- `[^\s@]+@[^\s@]+\.[^\s@]+`. -/
def emailPattern (s : Bytes) : Bool :=
  let mailbox := s.takeWhile (· ≠ 64)
  let domain := s.drop (mailbox.length + 1)
  64 ∈ s && mailbox ≠ [] && (mailbox ++ domain).all (fun c => !isSpace c && c ≠ 64)
    && 46 ∈ (domain.drop 1).dropLast

/-- `@[a-z0-9_]{3,30}`. -/
def userPattern (s : Bytes) : Bool :=
  match s with
  | 64 :: s =>
      3 ≤ s.length && s.length ≤ 30 && s.all (fun c => 97 ≤ c && c ≤ 122 || isDigit c || c = 95)
  | _ => false

/-- `[a-f0-9]{64}`. -/
def devicePattern (s : Bytes) : Bool :=
  s.length = 64 && s.all (fun c => 97 ≤ c && c ≤ 102 || isDigit c)

/-- `/media/avatars/[a-f0-9]{64}\.webp`. -/
def avatarPattern (s : Bytes) : Bool :=
  (ascii "/media/avatars/").isPrefixOf s && (ascii ".webp").isSuffixOf s && s.length = 84
    && devicePattern (substr s 15 64)

/-- `[A-Z]{2}`. -/
def countryPattern (s : Bytes) : Bool := s.length = 2 && s.all (fun c => 65 ≤ c && c ≤ 90)

/-- `[A-Za-z]{2,8}(-[A-Za-z0-9]{1,8})*`. -/
def localePattern (s : Bytes) : Bool :=
  match s.splitOn 45 with
  | [] => false
  | language :: parts =>
      2 ≤ language.length && language.length ≤ 8 && language.all isAlpha
        && parts.all (fun p => 1 ≤ p.length && p.length ≤ 8 && p.all isAlnum)

/-! ## The parts of a profile -/

/-- `json::value` of a member, or a default where it is missing. -/
def valueOr (j : Json) (name : Bytes) (default : Json) : Json := (j.member? name).getD default

/-- The account of a profile; a relative address of an avatar is one of the service. -/
def accountOf (service : Bytes) (account : Json) : Fallible Json := do
  keys account [ascii "sub", ascii "email", ascii "displayName", ascii "userId",
    ascii "societyCloudMembership", ascii "avatarUrl"]
  let sub ← text E.unicode account (ascii "sub") 128 true false
  require (subjectPattern sub = true)
  let mail ← normalize E.unicode (← text E.unicode account (ascii "email") 254 true false) true true
  require (emailPattern mail = true ∧ (mail.takeWhile (· ≠ 64)).length ≤ 64)
  let user ← text E.unicode account (ascii "userId") 31 false false
  require (user = [] ∨ userPattern user = true)
  let membership ←
    (valueOr account (ascii "societyCloudMembership") (.str (ascii "Free"))).getStr
  require (membership ∈ [ascii "Free", ascii "Plus", ascii "Pro", ascii "Enterprise"])
  let avatar ←
    match valueOr account (ascii "avatarUrl") .null with
    | .null => pure Json.null
    | .str url => do
        let url := if url.head? = some 47 then service ++ url else url
        require ((service ++ ascii "/media/avatars/").isPrefixOf url = true
          ∧ avatarPattern (url.drop service.length) = true)
        pure (Json.str url)
    | _ => .error "Invalid persisted author metadata"
  let name ← text E.unicode account (ascii "displayName") 80 false false
  pure (.object
    [(ascii "sub", .str sub), (ascii "email", .str mail), (ascii "displayName", .str name),
      (ascii "userId", .str user), (ascii "societyCloudMembership", .str membership),
      (ascii "avatarUrl", avatar)])

/-- `detailLimits`. -/
def detailLimits : List (Bytes × Nat) :=
  [(ascii "additionalName", 80), (ascii "biography", 4096), (ascii "city", 160),
    (ascii "contactEmail", 254), (ascii "countryCode", 2), (ascii "department", 160),
    (ascii "familyName", 80), (ascii "fullName", 160), (ascii "givenName", 80),
    (ascii "jobTitle", 160), (ascii "locale", 64), (ascii "organization", 160),
    (ascii "organizationId", 128), (ascii "phoneNumber", 64), (ascii "pseudonym", 80),
    (ascii "region", 160), (ascii "team", 160), (ascii "timeZone", 128)]

/-- A link of a profile. -/
def linkOf (entry : Json) : Fallible Json := do
  keys entry [ascii "relation", ascii "label", ascii "url"]
  let relation ← text E.unicode entry (ascii "relation") 40 true false
  let label ← text E.unicode entry (ascii "label") 160 false false
  let url ← text E.unicode entry (ascii "url") 2048 true false
  require (validUri url true = true ∧ (ascii "https://").isPrefixOf url = true
    ∧ withoutUserInfo url = true)
  pure (.object
    [(ascii "relation", .str relation), (ascii "label", .str label), (ascii "url", .str url)])

/-- An identifier of a profile. -/
def identifierOf (entry : Json) : Fallible Json := do
  keys entry [ascii "scheme", ascii "value"]
  let scheme ← text E.unicode entry (ascii "scheme") 40 true false
  let value ← text E.unicode entry (ascii "value") 256 true false
  pure (.object [(ascii "scheme", .str scheme), (ascii "value", .str value)])

/-- The entries of a list of at most so many. -/
def entriesOf (j : Json) (name : Bytes) (maximum : Nat) : Fallible (List Json) := do
  let entries ← orFail "Invalid persisted author metadata"
    (match valueOr j name (.arr []) with
      | .arr entries => some entries
      | _ => none)
  require (entries.length ≤ maximum)
  pure entries

/-- The text of a detail, where the texts of the details are. -/
def detail (texts : List (Bytes × Bytes)) (name : Bytes) : Bytes :=
  ((texts.find? (·.1 = name)).map (·.2)).getD []

/-- The details of a profile. -/
def detailsOf (details : Json) : Fallible Json := do
  require (details.isObject = true)
  require ((← E.json.dump details).length ≤ 65536)
  keys details (detailLimits.map (·.1) ++ [ascii "links", ascii "identifiers"])
  let texts ← detailLimits.mapM fun limit => do
    let value ← text E.unicode details limit.1 limit.2 false (limit.1 = ascii "biography")
    pure (limit.1, value)
  let country := detail texts (ascii "countryCode")
  require (country = [] ∨ countryPattern country = true)
  let locale := detail texts (ascii "locale")
  require (locale = [] ∨ localePattern locale = true)
  require (validTimeZone E.zone (detail texts (ascii "timeZone")) = true)
  let email := detail texts (ascii "contactEmail")
  let email ← if email = [] then pure [] else do
    let email ← normalize E.unicode email true true
    require (emailPattern email = true)
    pure email
  let links ← (← entriesOf details (ascii "links") 32).mapM (linkOf E)
  let identifiers ← (← entriesOf details (ascii "identifiers") 32).mapM (identifierOf E)
  let member (t : Bytes × Bytes) : Bytes × Json :=
    (t.1, .str (if t.1 = ascii "contactEmail" then email else t.2))
  pure (.object
    (texts.map member ++ [(ascii "links", .arr links), (ascii "identifiers", .arr identifiers)]))

/-- The texts of an attribution and their limits. -/
def attributionLimits : List (Bytes × Nat) :=
  [(ascii "credit", 1024), (ascii "copyrightNotice", 1024), (ascii "licenseIdentifier", 128),
    (ascii "licenseUrl", 2048), (ascii "documentId", 128), (ascii "projectId", 128),
    (ascii "workspaceId", 128)]

/-- The attribution of a profile. -/
def attributionOf (attribution : Json) : Fallible Json := do
  keys attribution (attributionLimits.map (·.1)
    ++ [ascii "roles", ascii "createdAt", ascii "modifiedAt"])
  let roles ← (← entriesOf attribution (ascii "roles") 16).mapM fun role => do
    clean E.unicode (← role.getStr) 40 true false
  require roles.Nodup
  let texts ← attributionLimits.mapM fun limit => do
    let value ← text E.unicode attribution limit.1 limit.2 false false
    pure (limit.1, value)
  let license := detail texts (ascii "licenseUrl")
  require (license = [] ∨ (validUri license true = true
    ∧ (ascii "https://").isPrefixOf license = true ∧ withoutUserInfo license = true))
  let created ← optionalDate attribution (ascii "createdAt") false
  let modified ← optionalDate attribution (ascii "modifiedAt") false
  require (created = [] ∨ modified = [] ∨ order created ≤ order modified)
  pure (.object
    (texts.map (fun t => (t.1, .str t.2)) ++ [(ascii "roles", .arr (roles.map .str)),
      (ascii "createdAt", dateValue created), (ascii "modifiedAt", dateValue modified)]))

/-- The texts of a device and their limits. -/
def deviceLimits : List (Bytes × Nat) :=
  [(ascii "appId", 128), (ascii "appVersion", 40), (ascii "id", 64), (ascii "name", 80),
    (ascii "osVersion", 80), (ascii "platform", 40), (ascii "type", 6)]

/-- The device of a profile, where it has one. -/
def deviceOf (device : Json) : Fallible Json :=
  if device = .null then pure .null else do
    keys device (deviceLimits.map (·.1))
    let texts ← deviceLimits.mapM fun limit => do
      let value ← text E.unicode device limit.1 limit.2 true false
      pure (limit.1, value)
    require (devicePattern (detail texts (ascii "id")) = true
      ∧ detail texts (ascii "type") ∈ [ascii "pc", ascii "tablet"])
    pure (.object (texts.map fun t => (t.1, .str t.2)))

/-! ## Profiles -/

def profile (value : Json) : Fallible Json := do
  require ((← E.json.dump value).length ≤ 131072)
  keys value [ascii "schemaVersion", ascii "account", ascii "details", ascii "attribution",
    ascii "serviceOrigin", ascii "capturedAt", ascii "device"]
  let schemaVersion ← value.member (ascii "schemaVersion")
  require (schemaVersion.equal (.int 1) = true)
  let service ← origin (← text E.unicode value (ascii "serviceOrigin") 2048 true false)
  let capturedAt ← optionalDate value (ascii "capturedAt") true
  let account ← accountOf E service (← value.member (ascii "account"))
  let details ← detailsOf E (valueOr value (ascii "details") (.object []))
  let attribution ← attributionOf E (valueOr value (ascii "attribution") (.object []))
  let device ← deviceOf E (valueOr value (ascii "device") .null)
  let result := Json.object
    [(ascii "schemaVersion", schemaVersion), (ascii "serviceOrigin", .str service),
      (ascii "capturedAt", .str capturedAt), (ascii "account", account), (ascii "details", details),
      (ascii "attribution", attribution), (ascii "device", device)]
  require ((← E.json.dump result).length ≤ 131072)
  pure result

/-- What is read of a canonical profile. -/
def metadataOf (data : Json) : Fallible AuthorMetadata := do
  let a ← data.member (ascii "account")
  let avatar ← a.member (ascii "avatarUrl")
  pure {
    account := {
      sub := ← (← a.member (ascii "sub")).getStr
      email := ← (← a.member (ascii "email")).getStr
      displayName := ← (← a.member (ascii "displayName")).getStr
      userId := ← (← a.member (ascii "userId")).getStr
      societyCloudMembership := ← (← a.member (ascii "societyCloudMembership")).getStr
      avatarUrl := ← if avatar = .null then pure [] else avatar.getStr }
    serviceOrigin := ← (← data.member (ascii "serviceOrigin")).getStr
    capturedAt := ← (← data.member (ascii "capturedAt")).getStr }

end Native

/-! ## Authors and links -/

open Native

namespace FileAuthor

variable (E : NativeLibraries)

/-- The body of `fromJsonText`, which returns nothing where it throws. -/
def ofJsonText (snapshot : Bytes) : Fallible FileAuthor := do
  require (snapshot.length ≤ 131072)
  let data ← Native.profile E (← E.json.parseText snapshot)
  let text ← E.json.dump data
  pure ⟨← metadataOf data, text⟩

def fromJsonText (snapshot : Bytes) : Option FileAuthor := (ofJsonText E snapshot).toOption

/-- An account as JSON: the keys of a `std::map` and their values. -/
def accountJson (account : List (Bytes × Bytes)) : Json :=
  .object (account.map fun e => (e.1, .str e.2))

def fromIisaccAccount (account : List (Bytes × Bytes)) (service capturedAt : Bytes) :
    Option FileAuthor :=
  match E.json.dump (.object
    [(ascii "schemaVersion", .int 1), (ascii "account", accountJson account),
      (ascii "serviceOrigin", .str service), (ascii "capturedAt", .str capturedAt)]) with
  | .ok text => fromJsonText E text
  | .error _ => none

end FileAuthor

namespace FileLink

variable (E : NativeLibraries)

/-- The body of `create`, which returns nothing where it throws. -/
def checked (name url : Bytes) : Fallible FileLink := do
  let name ← clean E.unicode name 160 true false
  require (124 ∉ name ∧ validUri url false = true)
  pure ⟨name, url⟩

def create (name url : Bytes) : Option FileLink := (checked E name url).toOption

/-- The name and the address of an entry, between brackets and with a bar between them. -/
def fromString (entry : Bytes) : Option FileLink :=
  let sep := (entry.takeWhile (· ≠ 124)).length
  if entry.head? ≠ some 91 ∨ entry.getLast? ≠ some 93 ∨ 124 ∉ entry ∨ sep ≤ 1
      ∨ entry.length - 2 ≤ sep then none
  else create E (substr entry 1 (sep - 1)) (substr entry (sep + 1) (entry.length - sep - 2))

end FileLink

end FileProvider
