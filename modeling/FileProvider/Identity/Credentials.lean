import FileProvider.Identity.Authors
import FileProvider.Identity.Reference
import FileProvider.Native.Reference

/-!
# Credentials of authors

A `FileAuthor` has metadata, the login session it was obtained from, if any, and a token, if one was
attached. `Bound` says that session and token belong to the account, the origin and the device of
the metadata; `credentials_bound` that this stays so under every sequence of calls.

A constructor or a setter either throws and leaves the author as it was, or gives one for which all
the checks passed. So `Bound` is kept by every call by itself, and a whole life is an induction over
its calls. The run at the end is that of a login whose token is attached.
-/

namespace FileProvider

open Bytes Fallible

namespace Identity

/-! ## Tokens -/

/-- `AuthenticationTokenInfo`. The kind is its number, which need not be one of the enumeration. -/
structure AuthenticationTokenInfo (Q : QtLibraries) where
  kind : Int
  subject : QString
  serviceOrigin : Q.Url
  sessionId : QString
  issuer : QString
  audience : QString
  scopes : List QString
  issuedAt : Q.DateTime
  notBefore : Q.DateTime
  expiresAt : Q.DateTime

section

variable (U : Utf8proc) (Q : QtLibraries)

def kindName (kind : Int) : Fallible String :=
  if kind = 0 then pure "iisaccSession"
  else if kind = 1 then pure "cognitoId"
  else if kind = 2 then pure "cognitoAccess"
  else if kind = 3 then pure "cognitoRefresh"
  else .error "token.kind"

/-- The loop over the scopes, after some that are read. -/
def readScopes : List QString → List QString → Fallible (List QString)
  | scopes, [] => pure scopes
  | scopes, scope :: rest => do
      let points ← cleanText U scope "token.scopes" 128 true false
      let name := Utf16.encode points
      failIf (points.any patternSpace = true ∨ name ∈ scopes) "token.scopes"
      readScopes (scopes ++ [name]) rest

/-- The body of `create`, whose failures are the names of fields. -/
def checkToken (info : AuthenticationTokenInfo Q) (secret : Bytes) :
    Fallible (AuthenticationTokenInfo Q) := do
  let _ ← kindName info.kind
  failIf (repeated token 1 128 info.subject = false) "token.subject"
  let origin ← serviceOrigin Q info.serviceOrigin
  failIf (secret = [] ∨ 16384 < secret.length) "token.secret"
  failIf (secret.all (fun byte => 33 ≤ byte && byte ≤ 126) = false) "token.secret"
  if info.kind = 0 then do
    failIf (repeated token 43 43 (secret.map fun byte => byte.toUInt16) = false) "token.secret"
    failIf (info.sessionId = []) "token.sessionId"
  failIf (¬ (info.sessionId = [] ∨ repeated lowerHex 32 32 info.sessionId = true)) "token.sessionId"
  let issuer ← cleanText U info.issuer "token.issuer" 2048 false false
  let audience ← cleanText U info.audience "token.audience" 256 false false
  failIf (64 < info.scopes.length) "token.scopes"
  let scopes ← readScopes U [] info.scopes
  failIf (¬ (Q.dateValid info.issuedAt = true ∧ Q.dateValid info.expiresAt = true ∧
    Q.before info.issuedAt info.expiresAt = true)) "token.validity"
  failIf (Q.dateValid info.notBefore = true ∧ ¬ (Q.before info.notBefore info.issuedAt = false ∧
    Q.before info.notBefore info.expiresAt = true)) "token.notBefore"
  pure ⟨info.kind, info.subject, origin, info.sessionId, Utf16.encode issuer, Utf16.encode audience,
    scopes, Q.toUTC info.issuedAt,
    if Q.dateValid info.notBefore then Q.toUTC info.notBefore else info.notBefore,
    Q.toUTC info.expiresAt⟩

/-- A token, which only `create` makes. -/
structure AuthenticationToken where
  info : AuthenticationTokenInfo Q
  secret : Bytes
  checked : ∃ given, checkToken U Q given secret = .ok info

def AuthenticationToken.create (info : AuthenticationTokenInfo Q) (secret : Bytes) :
    Fallible (AuthenticationToken U Q) :=
  match h : checkToken U Q info secret with
  | .ok checked => .ok ⟨checked, secret, info, h⟩
  | .error field => .error ("Invalid " ++ field ++ ".")

/-! ## Authors -/

structure AuthorLoginSession where
  id : QString
  client : QString
  device : AuthorDevice
  createdAt : Q.DateTime
  lastSeenAt : Q.DateTime
  expiresAt : Q.DateTime

structure FileAuthor where
  metadata : AuthorMetadata Q
  session : Option (AuthorLoginSession Q)
  token : Option (AuthenticationToken U Q)

namespace FileAuthor

/-- The attribution of an author that comes from an account. -/
def noAttribution : FileAttribution Q :=
  ⟨[], [], [], [], Q.noUrl, [], [], [], Q.noDate, Q.noDate⟩

/-- The body of `fromIisaccAccount`. -/
def readIisaccAccount (account : QJsonObject) (origin : Q.Url) (capturedAt : Q.DateTime) :
    Fallible (FileAuthor U Q) := do
  failIf (131072 < Q.compactSize account) "account.size"
  let origin ← serviceOrigin Q origin
  failIf (Q.dateValid capturedAt = false) "capturedAt"
  let data ← readAccount U Q account origin false
  let detailsObject ← object account "authorDetails" false
  let details ← readDetails U Q detailsObject
  pure ⟨⟨data, details, noAttribution Q, origin, Q.toUTC capturedAt, none⟩, none, none⟩

def fromIisaccAccount (account : QJsonObject) (origin : Q.Url) (capturedAt : Q.DateTime) :
    Fallible (FileAuthor U Q) :=
  finishError (readIisaccAccount U Q account origin capturedAt)

/-- A session's `current`. -/
def readCurrent (json : QJsonObject) : Bool :=
  match value json "current" with
  | some (.bool b) => b
  | _ => false

/-- The part of `fromIisaccAppSession` that reads the session. -/
def readSession (json : QJsonObject) (capturedAt : Q.DateTime) :
    Fallible (AuthorLoginSession Q) := do
  let id ← text U json "id" 32 true false
  failIf (repeated lowerHex 32 32 id = false) "session.id"
  let client ← text U json "client" 3 true false
  failIf (¬ (client = units "app" ∧ readCurrent json = true)) "session.current"
  let deviceObject ← object json "device" true
  let device ← readDevice U deviceObject false
  let createdAt ← timestamp Q json "createdAt" true
  let lastSeenAt ← timestamp Q json "lastSeenAt" true
  let expiresAt ← timestamp Q json "expiresAt" true
  failIf (¬ (Q.before lastSeenAt createdAt = false ∧ Q.before capturedAt lastSeenAt = false ∧
    Q.before capturedAt expiresAt = true)) "session.timestamps"
  pure ⟨id, client, device, createdAt, lastSeenAt, expiresAt⟩

/-- A value that is missing or null. -/
def absent (json : QJsonObject) (key : String) : Bool :=
  match value json key with
  | none => true
  | some .null => true
  | some _ => false

/-- The checks of a response before its account is read. -/
def readResponse (response : QJsonObject) : Fallible QJsonObject := do
  failIf (196608 < Q.compactSize response) "response.size"
  failIf (¬ (absent response "error" = true ∧ absent response "challenge" = true)) "response.state"
  object response "account" true

def fromIisaccAppSession (response : QJsonObject) (origin : Q.Url) (capturedAt : Q.DateTime) :
    Fallible (FileAuthor U Q) := do
  let account ← finishError (readResponse Q response)
  let author ← fromIisaccAccount U Q account origin capturedAt
  let json ← finishError (object response "session" true)
  let session ← finishError (readSession U Q json capturedAt)
  pure { author with
    metadata := { author.metadata with device := some session.device }
    session := some session }

def fromJson (json : QJsonObject) : Fallible (FileAuthor U Q) := do
  let metadata ← finishError (readMetadata U Q json)
  pure ⟨metadata, none, none⟩

variable {U Q}

/-- The account, the origin or the device of new metadata is another one. -/
def changedBinding (author : FileAuthor U Q) (replacement : AuthorMetadata Q) : Prop :=
  replacement.account.sub ≠ author.metadata.account.sub ∨
    Q.equal replacement.serviceOrigin author.metadata.serviceOrigin = false ∨
    replacement.device ≠ author.metadata.device

instance (author : FileAuthor U Q) (replacement : AuthorMetadata Q) :
    Decidable (author.changedBinding replacement) :=
  inferInstanceAs (Decidable (_ ∨ _ ∨ _))

def setMetadata (author : FileAuthor U Q) (metadata : AuthorMetadata Q) :
    FileAuthor U Q × Fallible Unit :=
  match finishError (metadataJson Q metadata >>= readMetadata U Q) with
  | .error message => (author, .error message)
  | .ok replacement =>
      if author.changedBinding replacement then (⟨replacement, none, none⟩, .ok ())
      else ({ author with metadata := replacement }, .ok ())

def setAuthenticationToken (author : FileAuthor U Q) (token : AuthenticationToken U Q) :
    FileAuthor U Q × Fallible Unit :=
  if token.info.subject ≠ author.metadata.account.sub ∨
      Q.equal token.info.serviceOrigin author.metadata.serviceOrigin = false ∨
      author.session.any (fun session => token.info.sessionId ≠ session.id) = true then
    (author, .error "Invalid token.binding.")
  else ({ author with token := some token }, .ok ())

def clearAuthenticationToken (author : FileAuthor U Q) : FileAuthor U Q :=
  { author with token := none }

/-! ## Calls -/

/-- A call of an author. -/
inductive Call (U : Utf8proc) (Q : QtLibraries) where
  | setMetadata (metadata : AuthorMetadata Q)
  | setAuthenticationToken (token : AuthenticationToken U Q)
  | clearAuthenticationToken

def call (author : FileAuthor U Q) : Call U Q → FileAuthor U Q × Fallible Unit
  | .setMetadata metadata => author.setMetadata metadata
  | .setAuthenticationToken token => author.setAuthenticationToken token
  | .clearAuthenticationToken => (author.clearAuthenticationToken, .ok ())

/-- An author after some calls, whether they succeeded or not. -/
def run (author : FileAuthor U Q) (calls : List (Call U Q)) : FileAuthor U Q :=
  calls.foldl (fun author c => (author.call c).1) author

/-- An author that a constructor gave. -/
def Constructed (author : FileAuthor U Q) : Prop :=
  (∃ account origin capturedAt, fromIisaccAccount U Q account origin capturedAt = .ok author) ∨
  (∃ response origin capturedAt, fromIisaccAppSession U Q response origin capturedAt = .ok author) ∨
  ∃ json, fromJson U Q json = .ok author

/-! ## What every call keeps -/

/-- Two authors of one account, origin and device. -/
structure SameBinding (a b : FileAuthor U Q) : Prop where
  sub : a.metadata.account.sub = b.metadata.account.sub
  origin : Q.equal a.metadata.serviceOrigin b.metadata.serviceOrigin = true
  device : a.metadata.device = b.metadata.device

/-- An author has the binding it has. -/
theorem SameBinding.refl (a : FileAuthor U Q) : SameBinding a a := ⟨rfl, Q.equal_refl _, rfl⟩

/-- Having the same binding is transitive. -/
theorem SameBinding.trans {a b c : FileAuthor U Q} (hab : SameBinding a b) (hbc : SameBinding b c) :
    SameBinding a c :=
  ⟨hab.sub.trans hbc.sub, Q.equal_trans hab.origin hbc.origin, hab.device.trans hbc.device⟩

/-- The token and the session belong to the metadata. -/
structure Bound (a : FileAuthor U Q) : Prop where
  subject : ∀ t, a.token = some t → t.info.subject = a.metadata.account.sub
  origin : ∀ t, a.token = some t →
    Q.equal t.info.serviceOrigin a.metadata.serviceOrigin = true
  login : ∀ t s, a.token = some t → a.session = some s → t.info.sessionId = s.id
  device : ∀ s, a.session = some s → a.metadata.device = some s.device

/-- What a call does: nothing, or it changes the token or the metadata and keeps the binding, or it
drops both credentials. -/
inductive Effect (a : FileAuthor U Q) : FileAuthor U Q → Prop where
  | failed : Effect a a
  | cleared : Effect a { a with token := none }
  | attached (t : AuthenticationToken U Q) : t.info.subject = a.metadata.account.sub →
      Q.equal t.info.serviceOrigin a.metadata.serviceOrigin = true →
      (∀ s, a.session = some s → t.info.sessionId = s.id) → Effect a { a with token := some t }
  | kept (metadata : AuthorMetadata Q) : metadata.account.sub = a.metadata.account.sub →
      Q.equal metadata.serviceOrigin a.metadata.serviceOrigin = true →
      metadata.device = a.metadata.device → Effect a { a with metadata := metadata }
  | dropped (metadata : AuthorMetadata Q) : Effect a ⟨metadata, none, none⟩

/-- Each call does what `Effect` says of it, also when it throws. -/
theorem call_effect (a : FileAuthor U Q) (c : Call U Q) : Effect a (a.call c).1 := by
  cases c with
  | setMetadata metadata =>
      show Effect a (a.setMetadata metadata).1
      unfold setMetadata
      split
      · exact .failed
      · next replacement _ =>
          split
          · exact .dropped replacement
          · next hsame =>
              unfold changedBinding at hsame
              simp only [not_or, not_not, Bool.not_eq_false] at hsame
              obtain ⟨hsub, horigin, hdevice⟩ := hsame
              exact .kept replacement hsub horigin hdevice
  | setAuthenticationToken token =>
      show Effect a (a.setAuthenticationToken token).1
      unfold setAuthenticationToken
      split
      · exact .failed
      · next hbound =>
          simp only [not_or, not_not, Bool.not_eq_false] at hbound
          obtain ⟨hsubject, horigin, hlogin⟩ := hbound
          refine .attached token hsubject horigin fun s hs => ?_
          rw [hs, Option.any_some] at hlogin
          simpa using hlogin
  | clearAuthenticationToken => exact .cleared

/-- A call that fails changes nothing. In every branch of a call that ends with an error the author
is handed back as it came; it is one case for each call. -/
theorem call_failed {a : FileAuthor U Q} {c : Call U Q} {message : String}
    (h : (a.call c).2 = .error message) : (a.call c).1 = a := by
  cases c with
  | setMetadata metadata =>
      revert h
      show (a.setMetadata metadata).2 = _ → (a.setMetadata metadata).1 = a
      unfold setMetadata
      split
      · exact fun _ => rfl
      · split
        · exact nofun
        · exact nofun
  | setAuthenticationToken token =>
      revert h
      show (a.setAuthenticationToken token).2 = _ → (a.setAuthenticationToken token).1 = a
      unfold setAuthenticationToken
      split
      · exact fun _ => rfl
      · exact nofun
  | clearAuthenticationToken => cases h

/-- Each call keeps the credentials bound. The effects of the calls are the cases: what was cleared,
what was set after it was found to belong to the identity, and what stays. -/
theorem Bound.call {a : FileAuthor U Q} (ha : Bound a) (c : Call U Q) : Bound (a.call c).1 := by
  have heffect := call_effect a c
  generalize (a.call c).1 = b at heffect ⊢
  cases heffect with
  | failed => exact ha
  | cleared => exact ⟨nofun, nofun, nofun, ha.device⟩
  | attached t hsubject horigin hlogin =>
      refine ⟨fun t' ht => ?_, fun t' ht => ?_, fun t' s ht hs => ?_, ha.device⟩
      · cases ht
        exact hsubject
      · cases ht
        exact horigin
      · cases ht
        exact hlogin s hs
  | kept metadata hsub horigin hdevice =>
      refine ⟨fun t ht => ?_, fun t ht => ?_, ha.login, fun s hs => ?_⟩
      · exact (ha.subject t ht).trans hsub.symm
      · exact Q.equal_trans (ha.origin t ht) (Q.equal_symm horigin)
      · exact hdevice.trans (ha.device s hs)
  | dropped metadata => exact ⟨nofun, nofun, nofun, nofun⟩

/-- A session that is still there was there before, with the same binding. -/
theorem session_call {a : FileAuthor U Q} {c : Call U Q} {s : AuthorLoginSession Q}
    (h : (a.call c).1.session = some s) : a.session = some s ∧ SameBinding a (a.call c).1 := by
  have heffect := call_effect a c
  generalize (a.call c).1 = b at heffect h ⊢
  cases heffect with
  | failed => exact ⟨h, .refl a⟩
  | cleared => exact ⟨h, rfl, Q.equal_refl _, rfl⟩
  | attached t => exact ⟨h, rfl, Q.equal_refl _, rfl⟩
  | kept metadata hsub horigin hdevice =>
      exact ⟨h, hsub.symm, Q.equal_symm horigin, hdevice.symm⟩
  | dropped metadata => cases h

/-! ## Whole lives -/

/-- So do any calls, by induction on them. -/
theorem Bound.run {a : FileAuthor U Q} (ha : Bound a) (calls : List (Call U Q)) :
    Bound (a.run calls) := by
  induction calls generalizing a with
  | nil => exact ha
  | cons c calls ih => exact ih (ha.call c)

/-- A session that is there after a run was there before it, and so was its binding. -/
theorem session_run {a : FileAuthor U Q} {calls : List (Call U Q)} {s : AuthorLoginSession Q}
    (h : (a.run calls).session = some s) : a.session = some s ∧ SameBinding a (a.run calls) := by
  induction calls generalizing a with
  | nil => exact ⟨h, .refl a⟩
  | cons c calls ih =>
      obtain ⟨hnext, hrest⟩ := ih h
      obtain ⟨hsession, hfirst⟩ := session_call hnext
      exact ⟨hsession, hfirst.trans hrest⟩

/-- Every constructor binds the credentials it is given. There are as many cases as constructors,
and each either checks that the credentials belong to the author or has none. -/
theorem Bound.constructed {a : FileAuthor U Q} (h : Constructed a) : Bound a := by
  have haccount : ∀ {account origin capturedAt} {a : FileAuthor U Q},
      fromIisaccAccount U Q account origin capturedAt = .ok a →
        a.session = none ∧ a.token = none := by
    intro account origin capturedAt a h
    unfold fromIisaccAccount finishError at h
    split at h
    · next author hread =>
        cases h
        simp only [readIisaccAccount, bind_ok, pure_ok] at hread
        obtain ⟨_, -, _, -, _, -, _, -, _, -, _, -, rfl⟩ := hread
        exact ⟨rfl, rfl⟩
    · cases h
  rcases h with ⟨account, origin, capturedAt, h⟩ | ⟨response, origin, capturedAt, h⟩ | ⟨json, h⟩
  · obtain ⟨hsession, htoken⟩ := haccount h
    refine ⟨fun t ht => ?_, fun t ht => ?_, fun t s ht => ?_, fun s hs => ?_⟩
    · rw [htoken] at ht
      cases ht
    · rw [htoken] at ht
      cases ht
    · rw [htoken] at ht
      cases ht
    · rw [hsession] at hs
      cases hs
  · simp only [fromIisaccAppSession, bind_ok, pure_ok] at h
    obtain ⟨_, -, author, hauthor, _, -, session, -, rfl⟩ := h
    obtain ⟨-, htoken⟩ := haccount hauthor
    refine ⟨fun t ht => ?_, fun t ht => ?_, fun t s ht => ?_, fun s hs => ?_⟩
    · cases htoken.symm.trans ht
    · cases htoken.symm.trans ht
    · cases htoken.symm.trans ht
    · cases hs
      rfl
  · simp only [fromJson, bind_ok, pure_ok] at h
    obtain ⟨_, -, rfl⟩ := h
    refine ⟨fun t ht => ?_, fun t ht => ?_, fun t s ht => ?_, fun s hs => ?_⟩
    · cases ht
    · cases ht
    · cases ht
    · cases hs

/-- Calls are made one after the other. -/
theorem run_append (a : FileAuthor U Q) (before after : List (Call U Q)) :
    a.run (before ++ after) = (a.run before).run after := List.foldl_append

/-- **Credentials stay bound to their account.** An author that one of the constructors made is
changed by any calls, which may throw. Its token, where it has one, is always that of the account
and of the service of its metadata, and of its session where it has one; a session that is there was
there before each of the calls, with the same account, service and device; and a call that throws
leaves the author as it was. -/
theorem credentials_bound (author : FileAuthor U Q) (h : Constructed author)
    (calls : List (Call U Q)) :
    (∀ t, (author.run calls).token = some t →
      t.info.subject = (author.run calls).metadata.account.sub ∧
      Q.equal t.info.serviceOrigin (author.run calls).metadata.serviceOrigin = true ∧
      ∀ s, (author.run calls).session = some s → t.info.sessionId = s.id) ∧
    (∀ s, (author.run calls).session = some s →
      (author.run calls).metadata.device = some s.device ∧
      ∀ before after, calls = before ++ after → (author.run before).session = some s ∧
        SameBinding (author.run before) (author.run calls)) ∧
    ∀ c message, ((author.run calls).call c).2 = .error message →
      ((author.run calls).call c).1 = author.run calls := by
  have hbound := (Bound.constructed h).run calls
  refine ⟨fun t ht => ⟨hbound.subject t ht, hbound.origin t ht, fun s => hbound.login t s ht⟩,
    fun s hs => ⟨hbound.device s hs, ?_⟩, fun c message => call_failed⟩
  rintro before after rfl
  rw [run_append] at hs ⊢
  exact session_run hs

end FileAuthor

end

end Identity

/-! ## A run -/

namespace Identity

namespace FileAuthor

/-- The response of a service to a login. -/
def loginResponse : QJsonObject :=
  fields [("account", .object (fields [("sub", .string (units "u-1")),
      ("email", .string (units "a@b.de"))])),
    ("session", .object (fields [("id", .string (units "0123456789abcdef0123456789abcdef")),
      ("client", .string (units "app")), ("current", .bool true),
      ("device", .object (fields [
        ("id", .string (units "0123456789abcdef0123456789abcdef0123456789abcdef0123456789abcdef")),
        ("type", .string (units "pc")), ("name", .string (units "Desk")),
        ("platform", .string (units "linux")), ("osVersion", .string (units "6")),
        ("appId", .string (units "editor")), ("appVersion", .string (units "1"))])),
      ("createdAt", .string (units "2024-01-01T00:00:00Z")),
      ("lastSeenAt", .string (units "2024-01-01T00:00:00Z")),
      ("expiresAt", .string (units "2025-01-01T00:00:00Z"))]))]

/-- The token of that login. -/
def loginToken : AuthenticationTokenInfo QtLibraries.plain :=
  ⟨0, units "u-1", units "https://example.org/", units "0123456789abcdef0123456789abcdef", [], [],
    [], units "2024-01-01T00:00:00Z", [], units "2025-01-01T00:00:00Z"⟩

/-- The token is attached, and stays with the session when the metadata is set to what it is. -/
theorem credentials_bound_login : ∃ author token,
    fromIisaccAppSession Utf8proc.reference QtLibraries.plain loginResponse
      (units "https://example.org") (units "2024-06-01T00:00:00Z") = .ok author ∧
    AuthenticationToken.create Utf8proc.reference QtLibraries.plain loginToken
      (List.replicate 43 97) = .ok token ∧
    ∃ t s, (author.run [.setAuthenticationToken token, .setMetadata author.metadata]).token
        = some t ∧
      (author.run [.setAuthenticationToken token, .setMetadata author.metadata]).session = some s ∧
      t.info.sessionId = s.id := by
  have hrun : (do
      let author ← fromIisaccAppSession Utf8proc.reference QtLibraries.plain loginResponse
        (units "https://example.org") (units "2024-06-01T00:00:00Z")
      let token ← AuthenticationToken.create Utf8proc.reference QtLibraries.plain loginToken
        (List.replicate 43 97)
      let a := author.run [.setAuthenticationToken token, .setMetadata author.metadata]
      pure (a.token.isSome && a.session.isSome)).toOption = some true := by decide +kernel
  rw [toOption_eq_some] at hrun
  simp only [bind_ok, pure_ok, Bool.and_eq_true, Option.isSome_iff_exists] at hrun
  obtain ⟨author, hauthor, token, htoken, ⟨t, ht⟩, s, hs⟩ := hrun
  have hbound := credentials_bound author (.inr (.inl ⟨_, _, _, hauthor⟩))
    [.setAuthenticationToken token, .setMetadata author.metadata]
  exact ⟨author, token, hauthor, htoken, t, s, ht, hs, (hbound.1 t ht).2.2 s hs⟩

end FileAuthor

end Identity

end FileProvider
