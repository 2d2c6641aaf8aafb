import FileProvider.Library.Program
import FileProvider.Native.Profiles

/-!
# Authorship

The ledger of a file's authors: who changed it and when, in the order in which they first did, and
the links of the file. A method changes a copy and takes it over at its end; the text of the ledger
is kept beside it and rebuilt with every change.

The fields and the limits are those of the source, and a ledger carries its text as the source does,
which is written by hand there. `perform` is one call with its result or its exception; a call that
throws leaves the ledger it was made on.
-/

namespace FileProvider

open Bytes Fallible Native

/-- An author in the ledger. -/
structure AuthorRecord where
  key : Bytes
  profile : Bytes
  firstChangedAt : Bytes
  lastChangedAt : Bytes
deriving DecidableEq

/-- A ledger. Texts that are not set are empty. -/
structure Authorship where
  revision : UInt64
  modifiedAt : Bytes
  lastAuthor : Bytes
  activeAuthor : Bytes
  dump : Bytes
  authors : List AuthorRecord
  links : List FileLink
deriving DecidableEq

/-- A method of a ledger: what it returns or throws, and the ledger it leaves. -/
abbrev AuthorshipMethod := Program Authorship Empty String

namespace Authorship

variable (E : NativeLibraries)

/-- `MaximumBytes`. -/
def maximumBytes : Nat := 2 * 1024 * 1024

/-- `MaximumLinks`. -/
def maximumLinks : Nat := 64

/-- How many authors a ledger has at most. -/
def maximumAuthors : Nat := 256

/-- The keys of the authors, in their order. -/
def keys (a : Authorship) : List Bytes := a.authors.map (·.key)

/-! ## The text of a ledger -/

/-- A byte of a string in the text. -/
def quoteByte (c : UInt8) : Bytes :=
  if c = 34 then [92, 34]
  else if c = 92 then [92, 92]
  else if c = 8 then [92, 98]
  else if c = 12 then [92, 102]
  else if c = 10 then [92, 110]
  else if c = 13 then [92, 114]
  else if c = 9 then [92, 116]
  else if c < 0x20 then ascii "\\u00" ++ hexByte c
  else [c]

def quote (value : Bytes) : Bytes := 34 :: value.flatMap quoteByte ++ [34]

def nullable (value : Bytes) : Bytes := if value = [] then ascii "null" else quote value

/-- Texts with commas between them. -/
def commas : List Bytes → Bytes
  | [] => []
  | text :: texts => text ++ texts.flatMap (44 :: ·)

def recordText (r : AuthorRecord) : Bytes :=
  ascii "\x7b\"author\":" ++ r.profile ++ ascii ",\"firstChangedAt\":" ++ quote r.firstChangedAt
    ++ ascii ",\"key\":" ++ quote r.key ++ ascii ",\"lastChangedAt\":" ++ quote r.lastChangedAt
    ++ ascii "\x7d"

def linkText (l : FileLink) : Bytes :=
  ascii "\x7b\"name\":" ++ quote l.name ++ ascii ",\"url\":" ++ quote l.url ++ ascii "\x7d"

/-- The text that `rebuildDump` writes. -/
def text (a : Authorship) : Bytes :=
  ascii "\x7b\"authors\":[" ++ commas (a.authors.map recordText)
    ++ ascii "],\"firstEditor\":" ++ nullable (a.keys.headD [])
    ++ ascii ",\"lastAuthor\":" ++ nullable a.lastAuthor
    ++ ascii ",\"links\":[" ++ commas (a.links.map linkText)
    ++ ascii "],\"modifiedAt\":" ++ nullable a.modifiedAt
    ++ ascii ",\"participants\":[" ++ commas (a.keys.tail.map quote)
    ++ ascii "],\"revision\":" ++ quote (decimal a.revision.toNat)
    ++ ascii ",\"schemaVersion\":3\x7d"

def rebuildDump : AuthorshipMethod Unit := do
  let self ← Program.state
  let next := self.text
  Program.failIf (maximumBytes < next.length) "Authorship metadata exceeds its size limit"
  Program.modify ({ · with dump := next })

/-- A ledger as it is made, with its text. -/
def empty : Authorship :=
  let blank : Authorship := ⟨0, [], [], [], [], [], []⟩
  { blank with dump := blank.text }

/-! ## Methods -/

/-- What is done to the first record of a key. -/
def atKey (key : Bytes) (f : AuthorRecord → AuthorRecord) : List AuthorRecord → List AuthorRecord
  | [] => []
  | r :: authors => if r.key = key then f r :: authors else r :: atKey key f authors

/-- A change at a time, in the record of the author who made it. -/
def AuthorRecord.touched (time : Bytes) (r : AuthorRecord) : AuthorRecord :=
  { r with
    firstChangedAt := if r.firstChangedAt = [] then time else r.firstChangedAt
    lastChangedAt := time }

/-- The time of the last change, once there is a change at a time. -/
def modified (time : Bytes) (a : Authorship) : Bytes :=
  if a.modifiedAt = [] ∨ order a.modifiedAt < order time then time else a.modifiedAt

/-- The copy of a ledger in which a change is recorded. -/
def advanced (time : Bytes) (a : Authorship) : Authorship :=
  { a with
    revision := a.revision + 1
    modifiedAt := a.modified time
    lastAuthor := a.activeAuthor
    authors := atKey a.activeAuthor (AuthorRecord.touched (a.modified time)) a.authors }

def recordChange (time : Bytes) : AuthorshipMethod Unit := do
  let time ← Program.lift (timestamp time)
  let self ← Program.state
  Program.failIf (self.revision.toNat = 2 ^ 64 - 1) "Authorship revision exhausted"
  let ((), next) ← Program.within (self.advanced time) rebuildDump
  Program.modify fun _ => next

/-- `keyFor`. -/
def keyFor (author : FileAuthor) : Bytes :=
  E.sha256 (author.metadata.serviceOrigin ++ 10 :: author.metadata.account.sub)

/-- The links of a list that go behind some others. -/
def validatedFrom : List FileLink → List FileLink → Fallible (List FileLink)
  | result, [] => pure result
  | result, link :: links => do
      let parsed ← orFail "Invalid persisted author metadata" (FileLink.create E link.name link.url)
      require (parsed ∉ result)
      validatedFrom (result ++ [parsed]) links

def validatedLinks (links : List FileLink) : Fallible (List FileLink) := do
  require (links.length ≤ maximumLinks)
  validatedFrom E [] links

/-- `setAuthor` with links. -/
def setAuthorLinks (author : FileAuthor) (links : List FileLink) (time : Bytes) :
    AuthorshipMethod Bool := do
  let self ← Program.state
  let links ← Program.lift (validatedLinks E links)
  let key := keyFor E author
  let next := { self with links, activeAuthor := key }
  match next.authors.find? (·.key = key) with
  | some r =>
      if r.profile = author.profile ∧ next.links = self.links then do
        Program.modify ({ · with activeAuthor := key })
        pure false
      else do
        let next := { next with
          authors := atKey key ({ · with profile := author.profile }) next.authors }
        let ((), next) ← Program.within next (recordChange time)
        Program.modify fun _ => next
        pure true
  | none => do
      Program.lift (require (next.authors.length < maximumAuthors))
      let next := { next with authors := next.authors ++ [⟨key, author.profile, [], []⟩] }
      let ((), next) ← Program.within next (recordChange time)
      Program.modify fun _ => next
      pure true

def setAuthor (author : FileAuthor) (time : Bytes) : AuthorshipMethod Bool := do
  let self ← Program.state
  setAuthorLinks E author self.links time

def setLinks (links : List FileLink) (time : Bytes) : AuthorshipMethod Bool := do
  let parsed ← Program.lift (validatedLinks E links)
  let self ← Program.state
  if parsed = self.links then pure false else do
    let next := { self with links := parsed }
    let ((), next) ← Program.within next (recordChange time)
    Program.modify fun _ => next
    pure true

def setLinksFromStrings (entries : List Bytes) (time : Bytes) : AuthorshipMethod Bool := do
  let links ← Program.lift (entries.mapM fun entry =>
    orFail "Invalid persisted author metadata" (FileLink.fromString E entry))
  setLinks E links time

def clearActiveAuthor : AuthorshipMethod Unit := Program.modify ({ · with activeAuthor := [] })

/-! ## Reading a ledger -/

/-- The authors of a ledger, behind those that have been read. -/
def authorsFrom (modifiedAt : Bytes) : List AuthorRecord → List Json → Fallible (List AuthorRecord)
  | authors, [] => pure authors
  | authors, item :: items => do
      Native.keys item [ascii "key", ascii "author", ascii "firstChangedAt", ascii "lastChangedAt"]
      let snapshot ← E.json.dump (← item.member (ascii "author"))
      let author ← orFail "Invalid persisted author metadata" (FileAuthor.fromJsonText E snapshot)
      let key ← Native.text E.unicode item (ascii "key") 64 true false
      require (key = keyFor E author ∧ key ∉ authors.map (·.key))
      let first ← optionalDate item (ascii "firstChangedAt") true
      let last ← optionalDate item (ascii "lastChangedAt") true
      require (order first ≤ order last ∧ order last ≤ order modifiedAt)
      authorsFrom modifiedAt (authors ++ [⟨key, author.profile, first, last⟩]) items

/-- One link of a ledger. -/
def linkFrom (item : Json) : Fallible FileLink := do
  Native.keys item [ascii "name", ascii "url"]
  let name ← (← item.member (ascii "name")).getStr
  let url ← (← item.member (ascii "url")).getStr
  orFail "Invalid persisted author metadata" (FileLink.create E name url)

/-- The links of a ledger. -/
def linksFrom (value : Json) : Fallible (List FileLink) := do
  let links ← (← value.member (ascii "links")).getElements
  require (links.length ≤ maximumLinks)
  validatedLinks E (← links.mapM (linkFrom E))

/-- The links of a ledger of a schema: those before the third have none. -/
def linksOf (schema : Int) (value : Json) : Fallible (List FileLink) :=
  if schema = 3 then linksFrom E value else pure []

/-- The members a ledger of a schema can have. -/
def schemaKeys (schema : Int) : List Bytes :=
  [ascii "schemaVersion", ascii "revision", ascii "modifiedAt", ascii "authors",
    ascii "lastAuthor"]
    ++ (if 2 ≤ schema then [ascii "firstEditor", ascii "participants"] else [])
    ++ (if schema = 3 then [ascii "links"] else [])

/-- How long a ledger of a schema can be, where the schema has a limit of its own. -/
def schemaLimit (schema : Int) : Option Nat :=
  if schema = 1 then some (1024 * 1024)
  else if schema = 2 then some (1024 * 1024 + 32 * 1024)
  else none

/-- The revision of a ledger: a decimal number of 64 bits. -/
def revisionOf (value : Json) : Fallible UInt64 := do
  let raw ← Native.text E.unicode value (ascii "revision") 20 true false
  require (raw = [48] ∨ (raw.all isDigit = true ∧ raw.head? ≠ some 48))
  require (number raw < 2 ^ 64)
  pure (number raw).toUInt64

/-- The check of the length of a ledger whose schema has a limit of its own. -/
def withinLimit (schema : Int) (value : Json) : Fallible Unit :=
  match schemaLimit schema with
  | some limit => do require ((← E.json.dump value).length ≤ limit)
  | none => pure ()

/-- The author of the last change, who has to be one of the authors. -/
def lastAuthorOf (value : Json) (authors : List AuthorRecord) : Fallible Bytes := do
  let last ← value.member (ascii "lastAuthor")
  match last with
  | .null => pure []
  | .str key => do
      require (key ∈ authors.map (·.key))
      pure key
  | _ => .error "Invalid persisted author metadata"

/-- The roles that a ledger names have to be those its text has. -/
def rolesAgree (schema : Int) (value : Json) (dump : Bytes) : Fallible Unit :=
  if 2 ≤ schema then do
    let canonical ← E.json.parseText dump
    let firstEditor ← value.member (ascii "firstEditor")
    let participants ← value.member (ascii "participants")
    require (firstEditor.equal ((canonical.member? (ascii "firstEditor")).getD .null) = true
      ∧ participants.equal ((canonical.member? (ascii "participants")).getD .null) = true)
  else pure ()

/-- The body of `fromDump`, which returns nothing where it throws. -/
def ofDump (bytes : Bytes) : Fallible Authorship := do
  require (bytes.length ≤ maximumBytes)
  let value ← E.json.parseText bytes
  let version ← value.member (ascii "schemaVersion")
  let schema ← version.getInt32
  require (version.equal (.int schema) = true ∧ 1 ≤ schema ∧ schema ≤ 3)
  withinLimit E schema value
  Native.keys value (schemaKeys schema)
  let revision ← revisionOf E value
  let modifiedAt ← optionalDate value (ascii "modifiedAt") (revision ≠ 0)
  let items ← (← value.member (ascii "authors")).getElements
  require (items.length ≤ maximumAuthors)
  let authors ← authorsFrom E modifiedAt [] items
  let lastAuthor ← lastAuthorOf value authors
  let links ← linksOf E schema value
  require (revision ≠ 0 ∨ (authors = [] ∧ links = [] ∧ modifiedAt = []))
  let result : Authorship := ⟨revision, modifiedAt, lastAuthor, [], [], authors, links⟩
  failIf (maximumBytes < result.text.length) "Authorship metadata exceeds its size limit"
  let result := { result with dump := result.text }
  rolesAgree E schema value result.dump
  pure result

def fromDump (bytes : Bytes) : Option Authorship := (ofDump E bytes).toOption

end Authorship

end FileProvider
