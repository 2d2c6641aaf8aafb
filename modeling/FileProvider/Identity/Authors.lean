import FileProvider.Identity.Contract

/-!
# Metadata of authors

The account, the details, the attribution and the device of an author, as they are written to a JSON
object and read from one. Reading cleans every text, resolves the address of an avatar and takes the
default port and path from the origin of a service, so what is read need not be what was given.

The order of the checks is that of the source, since it decides which field an error names. A reader
gives the name of the first field that is wrong, and a value that it gives is clean: it is written
and read again without a change.
-/

namespace FileProvider

open Bytes Fallible

namespace Identity

/-! ## Data -/

section

variable (Q : QtLibraries)

/-- `IisaccAccount`. The membership is its number, which need not be one of the enumeration. -/
structure IisaccAccount where
  sub : QString
  email : QString
  displayName : QString
  userId : QString
  societyCloudMembership : Int
  avatarUrl : Q.Url

structure AuthorLink where
  relation : QString
  label : QString
  url : Q.Url

end

structure AuthorIdentifier where
  scheme : QString
  value : QString

/-- The members of `AuthorDetails` that are texts. -/
inductive DetailField where
  | fullName | givenName | additionalName | familyName | pseudonym | biography | organization
  | organizationId | department | team | jobTitle | contactEmail | phoneNumber | locale | timeZone
  | countryCode | region | city
deriving DecidableEq

namespace DetailField

def key : DetailField → String
  | fullName => "fullName" | givenName => "givenName" | additionalName => "additionalName"
  | familyName => "familyName" | pseudonym => "pseudonym" | biography => "biography"
  | organization => "organization" | organizationId => "organizationId"
  | department => "department" | team => "team" | jobTitle => "jobTitle"
  | contactEmail => "contactEmail" | phoneNumber => "phoneNumber" | locale => "locale"
  | timeZone => "timeZone" | countryCode => "countryCode" | region => "region" | city => "city"

def maximum : DetailField → Nat
  | fullName => 160 | givenName => 80 | additionalName => 80 | familyName => 80 | pseudonym => 80
  | biography => 4096 | organization => 160 | organizationId => 128 | department => 160
  | team => 160 | jobTitle => 160 | contactEmail => 254 | phoneNumber => 64 | locale => 64
  | timeZone => 128 | countryCode => 2 | region => 160 | city => 160

end DetailField

/-- `detailFields`. -/
def detailFields : List DetailField :=
  [.fullName, .givenName, .additionalName, .familyName, .pseudonym, .biography, .organization,
    .organizationId, .department, .team, .jobTitle, .contactEmail, .phoneNumber, .locale, .timeZone,
    .countryCode, .region, .city]

structure AuthorDevice where
  id : QString
  type : QString
  name : QString
  platform : QString
  osVersion : QString
  appId : QString
  appVersion : QString
deriving DecidableEq

section

variable (Q : QtLibraries)

structure AuthorDetails where
  texts : DetailField → QString
  links : List (AuthorLink Q)
  identifiers : List AuthorIdentifier

structure FileAttribution where
  roles : List QString
  credit : QString
  copyrightNotice : QString
  licenseIdentifier : QString
  licenseUrl : Q.Url
  documentId : QString
  projectId : QString
  workspaceId : QString
  createdAt : Q.DateTime
  modifiedAt : Q.DateTime

structure AuthorMetadata where
  account : IisaccAccount Q
  details : AuthorDetails Q
  attribution : FileAttribution Q
  serviceOrigin : Q.Url
  capturedAt : Q.DateTime
  device : Option AuthorDevice

end

variable (U : Utf8proc) (Q : QtLibraries)

/-! ## Accounts -/

def membershipNames : List String := ["Free", "Plus", "Pro", "Enterprise"]

def membershipName (membership : Int) : Fallible QString :=
  match membership with
  | .ofNat index => orFail "societyCloudMembership" (membershipNames[index]?.map units)
  | .negSucc _ => .error "societyCloudMembership"

/-- The address of an avatar: stored metadata has the resolved one, an account a relative one. -/
def readAvatar (raw : QString) (origin : Q.Url) (strict : Bool) : Fallible Q.Url := do
  let candidate := Q.strict raw
  let candidate ←
    if strict = true ∧ Q.isRelative candidate = false then do
      failIf (¬ (Q.isValid candidate = true ∧ Q.equal (Q.withoutPath candidate) origin = true))
        "avatarUrl"
      pure candidate
    else do
      failIf (¬ (raw.head? = some 47 ∧ raw.tail.head? ≠ some 47)) "avatarUrl"
      pure (Q.resolved origin candidate)
  failIf (¬ (Q.isValid candidate = true ∧ Q.hasQuery candidate = false ∧
    Q.hasFragment candidate = false ∧ Q.userInfo candidate = [] ∧
    avatarPattern (Q.encodedPath candidate) = true)) "avatarUrl"
  pure candidate

def readAccount (json : QJsonObject) (origin : Q.Url) (strict : Bool) :
    Fallible (IisaccAccount Q) := do
  if strict then
    knownKeys json ["sub", "email", "displayName", "userId", "societyCloudMembership", "avatarUrl"]
      "account.fields"
  let sub ←
    match value json "sub" with
    | some (.string s) => pure s
    | _ => .error "sub"
  failIf (repeated token 1 128 sub = false) "sub"
  let email ← text U json "email" 254 true false
  let email ← emailText U email "email"
  let displayName ← text U json "displayName" 80 false false
  let userId ← text U json "userId" 31 false false
  failIf (¬ (userId = [] ∨ userIdPattern userId = true)) "userId"
  let name ←
    match value json "societyCloudMembership" with
    | none => pure (units "Free")
    | some _ => text U json "societyCloudMembership" 16 true false
  let index ← orFail "societyCloudMembership" ((membershipNames.map units).idxOf? name)
  let avatarUrl ←
    match value json "avatarUrl" with
    | none => pure Q.noUrl
    | some .null => pure Q.noUrl
    | some (.string raw) => readAvatar Q raw origin strict
    | some _ => .error "avatarUrl"
  pure ⟨sub, email, displayName, userId, index, avatarUrl⟩

def accountJson (account : IisaccAccount Q) : Fallible QJsonObject := do
  let membership ← membershipName account.societyCloudMembership
  pure (fields [("sub", .string account.sub), ("email", .string account.email),
    ("displayName", .string account.displayName), ("userId", .string account.userId),
    ("societyCloudMembership", .string membership),
    ("avatarUrl", if Q.isEmpty account.avatarUrl then .null
      else .string (Q.fullyEncoded account.avatarUrl))])

/-! ## Details -/

def detailsJson (details : AuthorDetails Q) : QJsonObject :=
  fields (detailFields.map (fun field => (field.key, .string (details.texts field))) ++
    [("links", .array (details.links.map fun link => .object (fields
        [("relation", .string link.relation), ("label", .string link.label),
          ("url", .string (Q.fullyEncoded link.url))]))),
      ("identifiers", .array (details.identifiers.map fun identifier => .object (fields
        [("scheme", .string identifier.scheme), ("value", .string identifier.value)])))])

def readLink (item : QJsonObject) : Fallible (AuthorLink Q) := do
  knownKeys item ["relation", "label", "url"] "links.fields"
  let raw ← text U item "url" 2048 true false
  let url ← httpsUrl Q raw "links.url" true
  failIf (2048 < (Q.fullyEncoded url).length) "links.url"
  let relation ← text U item "relation" 40 true false
  let label ← text U item "label" 160 false false
  pure ⟨relation, label, url⟩

def readIdentifier (item : QJsonObject) : Fallible AuthorIdentifier := do
  knownKeys item ["scheme", "value"] "identifiers.fields"
  let scheme ← text U item "scheme" 40 true false
  let value ← text U item "value" 256 true false
  pure ⟨scheme, value⟩

/-- The entries of an array of details. -/
def readEntries {α : Type} (read : QJsonObject → Fallible α) (json : QJsonObject) (key : String) :
    Fallible (List α) :=
  match value json key with
  | none => pure []
  | some (.array elements) => do
      failIf (32 < elements.length) key
      elements.mapM fun entry =>
        match entry with
        | .object item => read item
        | _ => .error key
  | some _ => .error key

def readDetails (json : QJsonObject) : Fallible (AuthorDetails Q) := do
  failIf (65536 < Q.compactSize json) "details.size"
  let texts ← detailFields.foldlM (fun texts field => do
      let s ← text U json field.key field.maximum false (field = .biography)
      pure (Function.update texts field s)) (fun _ => [])
  knownKeys json (["links", "identifiers"] ++ detailFields.map DetailField.key) "details.fields"
  let email ←
    if texts .contactEmail = [] then pure []
    else emailText U (texts .contactEmail) "contactEmail"
  let texts := Function.update texts .contactEmail email
  failIf (¬ (texts .locale = [] ∨ localePattern (texts .locale) = true)) "locale"
  failIf (¬ (texts .countryCode = [] ∨ repeated upperLetter 2 2 (texts .countryCode) = true))
    "countryCode"
  failIf (¬ (texts .timeZone = [] ∨ Q.zoneValid (texts .timeZone) = true)) "timeZone"
  let links ← readEntries (readLink U Q) json "links"
  let identifiers ← readEntries (readIdentifier U) json "identifiers"
  let details : AuthorDetails Q := ⟨texts, links, identifiers⟩
  failIf (65536 < Q.compactSize (detailsJson Q details)) "details.size"
  pure details

/-! ## Attribution -/

/-- The loop over the roles, after some that are read. -/
def readRoles : List QString → List QJsonValue → Fallible (List QString)
  | roles, [] => pure roles
  | roles, .string role :: rest => do
      let points ← cleanText U role "roles" 40 true false
      let name := Utf16.encode points
      failIf (name ∈ roles) "roles"
      readRoles (roles ++ [name]) rest
  | _, _ :: _ => .error "roles"

def readAttribution (json : QJsonObject) : Fallible (FileAttribution Q) := do
  knownKeys json ["roles", "credit", "copyrightNotice", "licenseIdentifier", "licenseUrl",
    "documentId", "projectId", "workspaceId", "createdAt", "modifiedAt"] "attribution.fields"
  let roles ←
    match value json "roles" with
    | none => pure []
    | some (.array elements) => do
        failIf (16 < elements.length) "roles"
        readRoles U [] elements
    | some _ => .error "roles"
  let credit ← text U json "credit" 1024 false false
  let copyrightNotice ← text U json "copyrightNotice" 1024 false false
  let licenseIdentifier ← text U json "licenseIdentifier" 128 false false
  let license ← text U json "licenseUrl" 2048 false false
  let licenseUrl ← httpsUrl Q license "licenseUrl" false
  let documentId ← text U json "documentId" 128 false false
  let projectId ← text U json "projectId" 128 false false
  let workspaceId ← text U json "workspaceId" 128 false false
  let createdAt ← timestamp Q json "createdAt" false
  let modifiedAt ← timestamp Q json "modifiedAt" false
  failIf (Q.dateValid createdAt = true ∧ Q.dateValid modifiedAt = true ∧
    Q.before modifiedAt createdAt = true) "attribution.timestamps"
  pure ⟨roles, credit, copyrightNotice, licenseIdentifier, licenseUrl, documentId, projectId,
    workspaceId, createdAt, modifiedAt⟩

def attributionJson (attribution : FileAttribution Q) : QJsonObject :=
  fields [("roles", .array (attribution.roles.map .string)), ("credit", .string attribution.credit),
    ("copyrightNotice", .string attribution.copyrightNotice),
    ("licenseIdentifier", .string attribution.licenseIdentifier),
    ("licenseUrl", .string (Q.fullyEncoded attribution.licenseUrl)),
    ("documentId", .string attribution.documentId), ("projectId", .string attribution.projectId),
    ("workspaceId", .string attribution.workspaceId),
    ("createdAt", dateJson Q attribution.createdAt),
    ("modifiedAt", dateJson Q attribution.modifiedAt)]

/-! ## Devices -/

def readDevice (json : QJsonObject) (strict : Bool) : Fallible AuthorDevice := do
  if strict then
    knownKeys json ["id", "type", "name", "platform", "osVersion", "appId", "appVersion"]
      "device.fields"
  let id ← text U json "id" 64 true false
  let type ← text U json "type" 6 true false
  failIf (repeated lowerHex 64 64 id = false) "device.id"
  failIf (¬ (type = units "pc" ∨ type = units "tablet")) "device.type"
  let name ← text U json "name" 80 true false
  let platform ← text U json "platform" 40 true false
  let osVersion ← text U json "osVersion" 80 true false
  let appId ← text U json "appId" 128 true false
  let appVersion ← text U json "appVersion" 40 true false
  pure ⟨id, type, name, platform, osVersion, appId, appVersion⟩

def deviceJson (device : AuthorDevice) : QJsonObject :=
  fields [("id", .string device.id), ("type", .string device.type), ("name", .string device.name),
    ("platform", .string device.platform), ("osVersion", .string device.osVersion),
    ("appId", .string device.appId), ("appVersion", .string device.appVersion)]

/-! ## Metadata -/

/-- `FileAuthor::SchemaVersion`. -/
def schemaVersion : Double := ⟨0x3FF0000000000000⟩

def metadataJson (data : AuthorMetadata Q) : Fallible QJsonObject := do
  let account ← accountJson Q data.account
  pure (fields [("schemaVersion", .double schemaVersion), ("account", .object account),
    ("details", .object (detailsJson Q data.details)),
    ("attribution", .object (attributionJson Q data.attribution)),
    ("serviceOrigin", .string (Q.fullyEncoded data.serviceOrigin)),
    ("capturedAt", dateJson Q data.capturedAt),
    ("device", data.device.elim .null fun device => .object (deviceJson device))])

def readMetadata (json : QJsonObject) : Fallible (AuthorMetadata Q) := do
  failIf (131072 < Q.compactSize json) "metadata.size"
  knownKeys json ["schemaVersion", "account", "details", "attribution", "serviceOrigin",
    "capturedAt", "device"] "metadata.fields"
  match value json "schemaVersion" with
  | some (.double x) => failIf (x.equal schemaVersion = false) "schemaVersion"
  | _ => .error "schemaVersion"
  let raw ← text U json "serviceOrigin" 2048 true false
  let origin ← serviceOrigin Q (Q.strict raw)
  let capturedAt ← timestamp Q json "capturedAt" true
  let accountObject ← object json "account" true
  let account ← readAccount U Q accountObject origin true
  let detailsObject ← object json "details" false
  let details ← readDetails U Q detailsObject
  let attributionObject ← object json "attribution" false
  let attribution ← readAttribution U Q attributionObject
  let device ←
    match value json "device" with
    | none => pure none
    | some .null => pure none
    | some _ => do
        let device ← object json "device" true
        some <$> readDevice U device true
  pure ⟨account, details, attribution, origin, capturedAt, device⟩

end Identity

end FileProvider
