import FileProvider.Library.Blocks
import FileProvider.Object.Statements

/-!
# The storage owner

The queries and the writing steps the calls of the store are made of: reading a revision with
its object and its session, the validation key of a record, storing content in chunks,
publishing a revision, and the validator, which re-reads a history from its first version.

What the file system answers, the readings of the clock and the random keys are given to a call as
data, so a call is a function of them and of the tables. The hash and the JSON libraries are the
parameters of a `Platform`.
-/

namespace FileProvider

open Bytes Fallible

/-! ## Environment -/

/-- A cancellation token, asked at one poll after the other. -/
abbrev StopToken := Nat → Bool

/-- What the file system answers about a source file while it is ingested. -/
structure SourceFile where
  /-- The path is canonical and no symbolic link. -/
  direct : Bool
  regular : Bool
  size : Nat
  opens : Bool
  /-- The bytes the stream delivers before it ends. -/
  content : Bytes
  /-- The stream ended in a read error. -/
  bad : Bool
  /-- The path, its size and its time stamp are as before once it was read. -/
  stable : Bool
deriving DecidableEq

/-- A source file read ahead by `readObjectBatch`. -/
structure PreparedObjectSource where
  bytes : Bytes
  /-- The identity inspected again before publication is the one inspected first. -/
  unchanged : Bool
deriving DecidableEq

/-- The random keys and clock readings a call draws. -/
structure Draws where
  random : Nat → Fin 16 → UInt8
  now : Nat → Int

/-- Options of a write. -/
structure ObjectWriteOptions where
  authorship : Option ObjectMetadata
  sourceStamp : Bytes
  cancellation : StopToken

namespace ObjectWriteOptions

/-- The shape of the authorship a write asks for. -/
def checkAuthorship (options : ObjectWriteOptions) : Fallible Unit :=
  match options.authorship with
  | some document => authorshipValid document
  | none => pure ()

/-- The document of the authorship a write asks for. -/
def checkDocument (P : Platform) (options : ObjectWriteOptions) : Fallible Unit :=
  match options.authorship with
  | some document => validateDocument P document
  | none => pure ()

end ObjectWriteOptions

/-! ## Records -/

/-- A row of the join of revisions, objects and sessions. -/
def record (r : RevisionRow) (o : ObjectRow) (s : SessionRow) : ObjectRecord where
  key := r.objectKey
  indexKey := o.indexKey
  version := r.version
  path := r.path
  sha256 := r.sha256
  size := r.size
  author := ⟨r.authorOrigin, r.authorSubject, r.authorName, ⟨s.profileFormat, s.profile⟩⟩
  sessionKey := r.sessionKey
  recordedAtNs := r.atNs
  operation := r.operation
  deleted := r.deleted
  parentValidationKey := r.parentKey
  validationKey := r.validationKey
  authorship := ⟨r.metadataFormat, r.metadata⟩
  sourceStamp := r.sourceStamp
  schemaVersion := r.recordFormat % 2 ^ 32

/-- The row a record is inserted as. -/
def revisionRow (r : ObjectRecord) : RevisionRow where
  objectKey := r.key
  version := r.version
  path := r.path
  sha256 := r.sha256
  size := r.size
  authorOrigin := r.author.origin
  authorSubject := r.author.subject
  authorName := r.author.displayName
  sessionKey := r.sessionKey
  atNs := r.recordedAtNs
  operation := r.operation
  deleted := r.deleted
  parentKey := r.parentValidationKey
  validationKey := r.validationKey
  metadataFormat := r.authorship.format
  metadata := r.authorship.payload
  sourceStamp := r.sourceStamp
  recordFormat := 2

@[simp] theorem revisionRow_id (r : ObjectRecord) : (revisionRow r).id = (r.key, r.version) := rfl

/-- The record as a session publishes it at a time. -/
def ObjectRecord.stamped (r : ObjectRecord) (s : ObjectSession) (now : Int) : ObjectRecord :=
  { r with author := s.author, sessionKey := s.key, recordedAtNs := now, schemaVersion := 2 }

/-- The record with its validation key. -/
def ObjectRecord.withKey (r : ObjectRecord) (validationKey : Bytes) : ObjectRecord :=
  { r with validationKey }

/-- The session of a row. -/
def sessionOf (s : SessionRow) : ObjectSession where
  key := s.sessionKey
  author := ⟨s.origin, s.subject, s.name, ⟨s.profileFormat, s.profile⟩⟩
  device := s.device
  description := s.description
  startedAtNs := s.started
  endedAtNs := s.ended

/-! ## Validation keys -/

/-- The tag of a record format. -/
def formatTag (schemaVersion : Nat) : Bytes :=
  if schemaVersion = 1 then ascii "society-object-v1" else ascii "society-object-v2"

/-- The strings a validation key is the hash of, in their order. -/
def validationFields (r : ObjectRecord) (s : ObjectSession) (container context raw : Bytes) :
    List Bytes :=
  [formatTag r.schemaVersion, container, r.key, decimalInt r.indexKey, decimal r.version,
    r.path, r.sha256, decimal r.size, r.author.origin, r.author.subject, r.author.displayName,
    r.sessionKey, decimalInt r.recordedAtNs, r.operation,
    if r.deleted then ascii "deleted" else ascii "live", r.parentValidationKey,
    s.device, s.description, decimalInt s.startedAtNs]
  ++ (if r.schemaVersion = 2 then
        [r.author.profile.format, r.author.profile.payload,
          r.authorship.format, r.authorship.payload, r.sourceStamp]
      else [])
  ++ (if context ≠ [] then [ascii "iiFileProvider.WorkSession/1", context] else [])
  ++ (if raw ≠ [] then [ascii "iiFileProvider.RawEnvelope/1", raw] else [])

def validationKey (P : Platform) (r : ObjectRecord) (s : ObjectSession)
    (container context raw : Bytes) : Bytes :=
  formatTag r.schemaVersion ++ [58]
    ++ P.hash (frames (validationFields r s container context raw))

namespace Impl

variable (P : Platform) (m : Impl) (db : ObjectTables)

/-- The store is open on a package of the current schema. -/
structure Opens (container : Bytes) : Prop where
  container : m.container = container
  schema : m.schema = 5

/-! ## Reading -/

def requireJournal : Fallible Unit :=
  failIf (m.schema < 4)
    "journal/RAW APIs require schema 4 or newer; open with a writer to migrate first"

/-- The work-session context of a session. -/
def context (key : Bytes) : Fallible Bytes := do
  if m.schema < 4 then pure [] else
    bindTexts [key]
    let row ← orFail "work-session context is missing" (db.workSessions.find key)
    pure row.context

/-- The RAW document of a revision; it is empty when there is none. -/
def rawDocument (key : Bytes) (version : Nat) : Fallible Bytes := do
  if m.schema < 4 then pure [] else
    bindTexts [key]
    pure (((db.rawRevisions.find (key, version)).map (·.document)).getD [])

def getSession (key : Bytes) (active : Bool) : Fallible ObjectSession := do
  bindTexts [key]
  let row ← orFail "object work session not found" (db.sessions.find key)
  failIf (active ∧ row.ended ≠ 0) "object work session is closed"
  pure (sessionOf row)

/-- The joined row of a revision. -/
def joined (key : Bytes) (version : Nat) : Option ObjectRecord := do
  let r ← db.revisions.find (key, version)
  let o ← db.objects.find r.objectKey
  let s ← db.sessions.find r.sessionKey
  pure (record r o s)

/-- The version a reader asks for: a given one, or the head of the object. -/
def versionOf (key : Bytes) (version : Nat) : Nat :=
  if version = 0 then ((db.objects.find key).map (·.head)).getD 0 else version

def get (key : Bytes) (version : Nat) : Fallible (Option ObjectRecord) := do
  bindTexts [key]
  pure (joined db key (versionOf db key version))

/-- The chunk rows of a revision by their ordinals. -/
def chunkRows (key : Bytes) (version : Nat) : List RevisionChunkRow :=
  Keyset.orderBy (·.ordinal)
    (db.revisionChunks.rows.filter fun c => c.objectKey = key ∧ c.version = version)

def chunks (key : Bytes) (version : Nat) : Fallible (List Chunk) := do
  bindTexts [key]
  let rows := chunkRows db key version
  failIf (rows.map (·.ordinal) ≠ List.range rows.length) "non-contiguous object chunks"
  pure (rows.map fun c => ⟨c.sha256, c.size⟩)

/-! ## The validator -/

/-- One version of a history against the validation key of the version before. -/
def validateVersion (key : Bytes) (v : Nat) (previous : Bytes) : Fallible (Option Bytes) := do
  match ← get db key v with
  | none => pure none
  | some r =>
      let s ← getSession db r.sessionKey false
      if r.schemaVersion ≠ 1 ∧ r.schemaVersion ≠ 2 then pure none
      else if r.schemaVersion = 1 ∧ (r.author.profile.payload ≠ [] ∨ r.authorship.payload ≠ []
          ∨ r.sourceStamp ≠ []) then pure none
      else if r.version ≠ v ∨ r.parentValidationKey ≠ previous ∨ r.author ≠ s.author then
        pure none
      else
        let context ← m.context db s.key
        let raw ← m.rawDocument db key v
        if validationKey P r s m.container context raw ≠ r.validationKey then pure none
        else pure (some r.validationKey)

/-- The loop over the versions of a history: the validation key of the last one, or nothing
when a version does not fit. -/
def validateChain (key : Bytes) : Nat → Fallible (Option Bytes)
  | 0 => pure (some [])
  | v + 1 => do
      match ← validateChain key v with
      | none => pure none
      | some previous => validateVersion P m db key (v + 1) previous

/-- The stored bytes of a chunk, as the validator reads them. -/
def chunkData (part : Chunk) : Fallible (Option Bytes) := do
  bindTexts [part.hash]
  match db.chunks.find part.hash with
  | none => pure none
  | some row =>
      if row.data.length ≠ part.size ∨ row.data = [] ∨ chunkBytes < row.data.length
          ∨ P.hash row.data ≠ part.hash then pure none
      else pure (some row.data)

/-- The bytes of a list of chunks. Every chunk but the last is full. -/
def readChunks : List Chunk → Fallible (Option Bytes)
  | [] => pure (some [])
  | part :: parts => do
      if parts ≠ [] ∧ part.size ≠ chunkBytes then pure none else
        match ← chunkData P db part with
        | none => pure none
        | some bytes =>
            match ← readChunks parts with
            | none => pure none
            | some rest => pure (some (bytes ++ rest))

/-- The number of chunks of a content. -/
def chunkCount (size : Nat) : Nat :=
  size / chunkBytes + if size % chunkBytes ≠ 0 then 1 else 0

/-- The content of a revision against its record. -/
def validatePayload (r : ObjectRecord) (key : Bytes) (version : Nat) : Fallible Bool := do
  let parts ← chunks db key version
  if r.deleted then pure (parts = [])
  else if parts.length ≠ chunkCount r.size then pure false
  else
    match ← readChunks P db parts with
    | none => pure false
    | some content => pure (content.length = r.size ∧ P.hash content = r.sha256)

def validate (key : Bytes) (version : Nat) (payload : Bool) : Fallible Bool := do
  if version = 0 ∨ int64Max < version then pure false else
    match ← validateChain P m db key version with
    | none => pure false
    | some _ =>
        match ← get db key version with
        | none => pure false
        | some r => if payload then validatePayload P db r key version else pure true

/-- The live record of an object at the version a caller expects. -/
def require (key : Bytes) (expected : Nat) : Fallible ObjectRecord := do
  match ← get db key 0 with
  | none => .error "live object not found"
  | some r =>
      failIf (r.deleted = true) "live object not found"
      failIf (expected = 0 ∨ r.version ≠ expected ∨ int64Max ≤ expected)
        "object version conflict"
      let valid ← validate P m db key r.version false
      failIf (valid = false) "object metadata chain is corrupt"
      pure r

/-! ## Content -/

def storeChunk (bytes : Bytes) : Fallible (Chunk × ObjectTables) := do
  let digest := P.hash bytes
  bindTexts [digest]
  match db.chunks.find digest with
  | some existing =>
      failIf (existing.data ≠ bytes) "corrupt existing object chunk"
      pure (⟨digest, bytes.length⟩, db)
  | none =>
      let db ← db.insertChunk ⟨digest, bytes⟩
      pure (⟨digest, bytes.length⟩, db)

/-- The loop over the blocks of a content, each after a poll of the cancellation. A content
that grows past `size` is refused. -/
def storeBlocks (cancellation : StopToken) (size : Nat) :
    List Bytes → Nat → Nat → ObjectTables → Fallible (List Chunk × ObjectTables)
  | [], _, _, db => pure ([], db)
  | bytes :: rest, poll, total, db => do
      failIf (cancellation poll) "object packaging cancelled"
      failIf (size < total + bytes.length) "object source changed during packaging"
      let (part, db) ← storeChunk P db bytes
      let (parts, db) ← storeBlocks cancellation size rest (poll + 1) (total + bytes.length) db
      pure (part :: parts, db)

/-- Ingesting a file that was read ahead. -/
def ingestPrepared (input : PreparedObjectSource) (r : ObjectRecord)
    (cancellation : StopToken) : Fallible (List Chunk × ObjectRecord × ObjectTables) := do
  let blocks := Blocks.split chunkBytes input.bytes
  let (parts, db) ← storeBlocks P cancellation input.bytes.length blocks 0 0 db
  failIf (cancellation blocks.length) "object packaging cancelled"
  failIf (input.unchanged = false) "object batch source changed before publication"
  pure (parts, { r with sha256 := P.hash input.bytes, size := input.bytes.length }, db)

/-- Ingesting a file from its stream. -/
def ingest (input : SourceFile) (r : ObjectRecord) (cancellation : StopToken) :
    Fallible (List Chunk × ObjectRecord × ObjectTables) := do
  failIf (input.direct = false) "redirected object path is forbidden"
  failIf (input.regular = false) "object source is not a regular file"
  failIf (int64Max < input.size) "object source exceeds format size"
  failIf (input.opens = false) "cannot read object source"
  let blocks := Blocks.split chunkBytes input.content
  let (parts, db) ← storeBlocks P cancellation input.size blocks 0 0 db
  failIf (cancellation blocks.length) "object packaging cancelled"
  failIf (input.bad = true ∨ input.content.length ≠ input.size ∨ input.stable = false)
    "object source changed during packaging"
  pure (parts, { r with sha256 := P.hash input.content, size := input.content.length }, db)

/-! ## Publication -/

/-- The rows of `revision_chunks` for a list of chunks, from an ordinal on. -/
def insertParts (key : Bytes) (version : Nat) :
    List Chunk → Nat → ObjectTables → Fallible ObjectTables
  | [], _, db => pure db
  | part :: parts, ordinal, db => do
      let db ← db.insertRevisionChunk ⟨key, version, ordinal, part.hash, part.size⟩
      insertParts key version parts (ordinal + 1) db

/-- The RAW document a publication carries: a given one, or that of the version before. -/
def carriedDocument (r : ObjectRecord) (raw : Option Bytes) : Fallible Bytes :=
  match raw with
  | some document => pure document
  | none => if 1 < r.version then m.rawDocument db r.key (r.version - 1) else pure []

/-- The row of `raw_revisions` for a document, unless it is empty. -/
def insertDocument (row : RawRevisionRow) : Fallible ObjectTables :=
  if row.document = [] then pure db else db.insertRaw row

/-- The rows of a publication, and the head of its object. -/
def insertPublication (r : ObjectRecord) (parts : List Chunk) (document : Bytes) :
    Fallible ObjectTables := do
  let db ← db.insertRevision (revisionRow r)
  let db ← insertDocument db ⟨r.key, r.version, document⟩
  let db ← insertParts r.key r.version parts 0 db
  db.updateHead r.version r.path r.deleted r.key

def publish (r : ObjectRecord) (s : ObjectSession) (parts : List Chunk) (raw : Option Bytes)
    (now : Int) : Fallible (ObjectRecord × ObjectTables) := do
  let document ← carriedDocument m db r raw
  let r := r.stamped s now
  let context ← m.context db s.key
  let r := r.withKey (validationKey P r s m.container context document)
  let db ← insertPublication db r parts document
  pure (r, db)

/-- The source of an import: a file, or one read ahead. -/
inductive ImportSource where
  | file (input : SourceFile)
  | prepared (input : PreparedObjectSource)

def ingestSource (source : ImportSource) (r : ObjectRecord) (cancellation : StopToken) :
    Fallible (List Chunk × ObjectRecord × ObjectTables) :=
  match source with
  | .file input => ingest P db input r cancellation
  | .prepared input => ingestPrepared P db input r cancellation

def importFile (source : ImportSource) (path : Bytes) (session : ObjectSession)
    (options : ObjectWriteOptions) (raw : Bytes) (random : Fin 16 → UInt8) (now : Int) :
    Fallible (ObjectRecord × ObjectTables) := do
  options.checkAuthorship
  field options.sourceStamp 32768 false
  pathValid path
  options.checkDocument P
  let r : ObjectRecord := { ObjectRecord.initial with
    key := uniqueKey random (ascii "object-"), version := 1, path,
    operation := if raw = [] then ascii "import" else ascii "wrap_raw",
    authorship := options.authorship.getD .unknown, sourceStamp := options.sourceStamp }
  let (indexKey, db) ← db.insertObject r.key r.path
  let r := { r with indexKey }
  let (parts, r, db) ← ingestSource P db source r options.cancellation
  publish P m db r session parts (some raw) now

end Impl

end FileProvider
