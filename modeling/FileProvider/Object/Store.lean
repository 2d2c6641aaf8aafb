import FileProvider.Object.Impl

/-!
# The calls of the store

The public operations of `ObjectStore`. A writing call runs in one `BEGIN IMMEDIATE`
transaction: it returns its result and the tables it commits, and one that throws leaves the
tables as they were. `wrapRaw` and `importDocument` look at the package a first time before
they capture their source, so they take the tables of that moment as well.

The checks stand in the order of the source, and what is looked up before a transaction is looked up
again inside it. Polls of the cancellation are counted, so that a token can cancel at any of them.
-/

namespace FileProvider

open Bytes Fallible

/-- The immutable snapshot of a source file, with the stamp of its identity. -/
structure CapturedSource where
  stamp : Bytes
  file : SourceFile
deriving DecidableEq

/-- One file of a batch import. -/
structure ObjectImport where
  /-- The size in the identity `ObjectSource::inspect` reads. -/
  inspected : Fallible Nat
  /-- The bytes a worker of `readObjectBatch` reads. -/
  read : Fallible Bytes
  unchanged : Bool
  logicalPath : Bytes
  options : ObjectWriteOptions

/-- What the file system answers while a content is extracted. -/
structure Destination where
  /-- The output path, the lease and the exclusive staging file. -/
  stage : Fallible Unit
  writes : Nat → Bool
  /-- Flushing, synchronizing, closing and linking the staged file. -/
  publish : Fallible Unit

namespace StopToken

/-- The token as it is after some polls. -/
def after (token : StopToken) (polls : Nat) : StopToken := fun i => token (polls + i)

end StopToken

namespace ObjectStore

open Impl

variable (P : Platform) (m : Impl)

/-- `ObjectStore::maximumBatchFiles`. -/
def maximumBatchFiles : Nat := 256

/-- `ObjectStore::maximumBatchBytes`. -/
def maximumBatchBytes : Nat := 16 * 1024 * 1024

/-- `ObjectStore::maximumBatchMetadataBytes`. -/
def maximumBatchMetadataBytes : Nat := 16 * 1024 * 1024

/-- `BEGIN IMMEDIATE`. -/
def beginImmediate : Fallible Unit :=
  failIf (m.readOnly = true) "attempt to write a readonly database"

/-! ## Sessions -/

def beginSession (db : ObjectTables) (author : ObjectAuthor) (device description : Bytes)
    (context : ObjectSessionContext) (draws : Draws) :
    Fallible (ObjectSession × ObjectTables) := do
  authorValid author
  field device 4096 true
  field description 16384 false
  let document ← MetadataCodec.encodeSessionContext P.json context
  validateActor P author
  beginImmediate m
  let s : ObjectSession :=
    ⟨uniqueKey (draws.random 0) (ascii "session-"), author, device, description, draws.now 0, 0⟩
  let db ← db.insertSession ⟨s.key, s.author.origin, s.author.subject, s.author.displayName,
    s.device, s.description, s.startedAtNs, 0, s.author.profile.format, s.author.profile.payload⟩
  let db ← db.insertWorkSession s.key document
  pure (s, db)

def endSession (db : ObjectTables) (key : Bytes) (draws : Draws) : Fallible ObjectTables := do
  beginImmediate m
  let _ ← getSession db key true
  db.setEnded key (draws.now 0)

/-! ## RAW envelopes -/

/-- The options of a captured write: without a stamp of its own, that of the capture. -/
def capturedOptions (options : ObjectWriteOptions) (captured : CapturedSource) :
    ObjectWriteOptions :=
  if options.sourceStamp = [] then { options with sourceStamp := captured.stamp } else options

def wrapRaw (before db : ObjectTables) (source : Fallible CapturedSource) (path : Bytes)
    (metadata : RawMetadata) (session : Bytes) (options : ObjectWriteOptions) (draws : Draws) :
    Fallible (ObjectRecord × ObjectTables) := do
  let document ← MetadataCodec.encodeRawMetadata P.json metadata
  pathValid path
  failIf (options.cancellation 0) "RAW wrapping cancelled"
  requireJournal m
  failIf (m.readOnly = true) "cannot wrap RAW through a read-only package"
  let _ ← getSession before session true
  let captured ← source
  beginImmediate m
  let s ← getSession db session true
  let options := { capturedOptions options captured with
    cancellation := StopToken.after options.cancellation 1 }
  importFile P m db (.file captured.file) path s options document (draws.random 0) (draws.now 0)

def rawEnvelope (db : ObjectTables) (key : Bytes) (version : Nat) : Fallible RawEnvelope := do
  failIf (int64Max < version) "invalid RAW revision"
  requireJournal m
  let record ← orFail "RAW envelope not found" (← get db key version)
  let valid ← validate P m db key record.version false
  failIf (valid = false) "RAW metadata chain is corrupt"
  let document ← rawDocument m db key record.version
  failIf (document = []) "object is not a RAW envelope"
  let metadata ← MetadataCodec.decodeRawMetadata P.json document
  pure ⟨record, metadata⟩

/-- The reserved namespace of the originals of imported documents. -/
def originals : Bytes := ascii ".originals/"

def importDocument (before db : ObjectTables) (source : Fallible CapturedSource) (path : Bytes)
    (metadata : RawMetadata) (session : Bytes) (options : ObjectWriteOptions) (draws : Draws) :
    Fallible (ObjectDocument × ObjectTables) := do
  let document ← MetadataCodec.encodeRawMetadata P.json metadata
  pathValid path
  failIf (originals <+: path) "document path uses the original namespace"
  failIf (options.cancellation 0) "document capture cancelled"
  requireJournal m
  failIf (m.readOnly = true) "cannot capture through a read-only package"
  let _ ← getSession before session true
  let captured ← source
  beginImmediate m
  let s ← getSession db session true
  let polls := StopToken.after options.cancellation 1
  let options := { capturedOptions options captured with cancellation := polls }
  let working : ObjectRecord := { ObjectRecord.initial with
    key := uniqueKey (draws.random 0) (ascii "object-"), version := 1, path,
    operation := ascii "import", authorship := options.authorship.getD .unknown,
    sourceStamp := options.sourceStamp }
  let (raw, db) ← importFile P m db (.file captured.file) (originals ++ working.key) s options
    document (draws.random 1) (draws.now 0)
  let working := { working with size := raw.size, sha256 := raw.sha256 }
  let (indexKey, db) ← db.insertObject working.key working.path
  let working := { working with indexKey }
  let parts ← chunks db raw.key raw.version
  let (working, db) ← publish P m db working s parts none (draws.now 1)
  failIf (polls (parts.length + 1)) "document capture cancelled"
  pure (⟨working, ⟨raw, metadata⟩⟩, db)

def reviseMetadata (db : ObjectTables) (key : Bytes) (metadata : FileMetadata) (expected : Nat)
    (session : Bytes) (draws : Draws) : Fallible (ObjectRecord × ObjectTables) := do
  requireJournal m
  beginImmediate m
  let r ← require P m db key expected
  let s ← getSession db session true
  let previous ← rawDocument m db key r.version
  failIf (previous = []) "object is not a RAW envelope"
  let raw ← MetadataCodec.decodeRawMetadata P.json previous
  let document ← MetadataCodec.encodeRawMetadata P.json { raw with annotations := metadata }
  if document = previous then pure (r, db) else
    let parts ← chunks db key r.version
    let r := { r with
      parentValidationKey := r.validationKey, version := r.version + 1,
      operation := ascii "metadata" }
    publish P m db r s parts (some document) (draws.now 0)

/-! ## Files -/

def importFile (db : ObjectTables) (source : SourceFile) (path session : Bytes)
    (options : ObjectWriteOptions) (draws : Draws) : Fallible (ObjectRecord × ObjectTables) := do
  beginImmediate m
  let s ← getSession db session true
  Impl.importFile P m db (.file source) path s options [] (draws.random 0) (draws.now 0)

/-- The preflight of a batch: what is left of the budget for its documents. -/
def metadataBudget (s : ObjectSession) : List ObjectImport → Nat → Fallible Nat
  | [], remaining => pure remaining
  | file :: files, remaining => do
      failIf (file.options.cancellation 0) "object packaging cancelled"
      let actorBytes := s.author.profile.payload.length
      let provenanceBytes := (file.options.authorship.map (·.payload.length)).getD 0
      failIf (remaining < actorBytes) "object batch metadata exceeds 16 MiB"
      failIf (remaining - actorBytes < provenanceBytes) "object batch metadata exceeds 16 MiB"
      metadataBudget s files (remaining - actorBytes - provenanceBytes)

/-- The inspection of a batch: what is left of the budget for its contents. -/
def contentBudget : List ObjectImport → Nat → Fallible Nat
  | [], remaining => pure remaining
  | file :: files, remaining => do
      failIf (file.options.cancellation 1) "object packaging cancelled"
      let size ← file.inspected
      failIf (remaining < size) "object batch exceeds 16 MiB"
      contentBudget files (remaining - size)

/-- `readObjectBatch`: every size is inspected before any content is read. -/
def readObjectBatch (files : List ObjectImport) : Fallible (List PreparedObjectSource) := do
  failIf (files = [] ∨ maximumBatchFiles < files.length) "invalid object batch read count"
  let _ ← contentBudget files maximumBatchBytes
  files.mapM fun file => do pure ⟨← file.read, file.unchanged⟩

/-- The publications of a batch, in the order of its files. -/
def importPrepared (s : ObjectSession) (draws : Draws) :
    List (ObjectImport × PreparedObjectSource) → Nat → ObjectTables →
      Fallible (List ObjectRecord × ObjectTables)
  | [], _, db => pure ([], db)
  | (file, prepared) :: files, i, db => do
      failIf (file.options.cancellation 2) "object packaging cancelled"
      let options := { file.options with
        cancellation := StopToken.after file.options.cancellation 3 }
      let (r, db) ← Impl.importFile P m db (.prepared prepared) file.logicalPath s options []
        (draws.random i) (draws.now i)
      let (records, db) ← importPrepared s draws files (i + 1) db
      pure (r :: records, db)

def importFiles (db : ObjectTables) (files : List ObjectImport) (session : Bytes)
    (draws : Draws) : Fallible (List ObjectRecord × ObjectTables) := do
  failIf (files = [] ∨ maximumBatchFiles < files.length)
    "object batch must contain 1 to 256 files"
  beginImmediate m
  let s ← getSession db session true
  let _ ← metadataBudget s files maximumBatchMetadataBytes
  let prepared ← readObjectBatch files
  let (records, db) ← importPrepared P m s draws (files.zip prepared) 0 db
  (files.zip prepared).forM fun (file, input) =>
    failIf (file.options.cancellation ((Blocks.split chunkBytes input.bytes).length + 4))
      "object packaging cancelled"
  pure (records, db)

def reviseFile (db : ObjectTables) (key : Bytes) (source : SourceFile) (expected : Nat)
    (session : Bytes) (options : ObjectWriteOptions) (draws : Draws) :
    Fallible (ObjectRecord × ObjectTables) := do
  options.checkAuthorship
  field options.sourceStamp 32768 false
  beginImmediate m
  let r ← require P m db key expected
  let s ← getSession db session true
  let raw ← rawDocument m db key r.version
  failIf (raw ≠ []) "RAW payload is immutable; revise metadata or wrap a new original"
  options.checkDocument P
  let r := { r with
    authorship := options.authorship.getD r.authorship, sourceStamp := options.sourceStamp,
    parentValidationKey := r.validationKey, version := r.version + 1,
    operation := ascii "revise" }
  let (parts, r, db) ← ingest P db source r options.cancellation
  publish P m db r s parts none (draws.now 0)

def move (db : ObjectTables) (key path : Bytes) (expected : Nat) (session : Bytes)
    (options : ObjectWriteOptions) (draws : Draws) : Fallible (ObjectRecord × ObjectTables) := do
  field options.sourceStamp 32768 false
  failIf (options.cancellation 0) "object move cancelled"
  failIf (options.authorship ≠ none) "move preserves original authorship"
  pathValid path
  beginImmediate m
  let r ← require P m db key expected
  let s ← getSession db session true
  let sourceStamp := if options.sourceStamp ≠ [] then options.sourceStamp else r.sourceStamp
  let parts ← chunks db key r.version
  let r := { r with
    sourceStamp, path, parentValidationKey := r.validationKey, version := r.version + 1,
    operation := ascii "move" }
  publish P m db r s parts none (draws.now 0)

def erase (db : ObjectTables) (key : Bytes) (expected : Nat) (session : Bytes)
    (draws : Draws) : Fallible (ObjectRecord × ObjectTables) := do
  beginImmediate m
  let r ← require P m db key expected
  let s ← getSession db session true
  let r := { r with
    parentValidationKey := r.validationKey, version := r.version + 1,
    operation := ascii "erase", deleted := true }
  publish P m db r s [] none (draws.now 0)

/-! ## Reading -/

/-- The joined head revision of an object row. -/
def headRecord (db : ObjectTables) (o : ObjectRow) : Option ObjectRecord := do
  let r ← db.revisions.find (o.objectKey, o.head)
  let s ← db.sessions.find r.sessionKey
  pure (record r o s)

def lookup (db : ObjectTables) (key : Bytes) : Fallible (Option ObjectRecord) := get db key 0

def lookupPath (db : ObjectTables) (path : Bytes) : Fallible (Option ObjectRecord) := do
  pathValid path
  pure ((db.objects.rows.filter fun o => o.path = path ∧ o.deleted = false).findSome?
    (headRecord db))

/-- The envelope of the original of a document, found by its reserved path and then read by
its key. -/
def original (db later : ObjectTables) (key : Bytes) : Fallible RawEnvelope := do
  field key 1024 true
  failIf (47 ∈ key ∨ 92 ∈ key) "invalid document key"
  let raw ← orFail "document original not found" (← lookupPath db (originals ++ key))
  rawEnvelope P m later raw.key 0

def scan (db : ObjectTables) (after : Int) (limit : Nat) (deleted : Bool) :
    Fallible (List ObjectRecord) := do
  failIf (after < 0 ∨ limit = 0 ∨ 10000 < limit) "invalid object index page"
  let rows := db.objects.rows.filterMap fun o =>
    if after < o.indexKey ∧ (deleted ∨ o.deleted = false) then headRecord db o else none
  pure ((Keyset.orderBy (·.indexKey) rows).take limit)

/-- The index entry of a row. -/
def indexEntry (i : IndexRow) : ObjectIndexEntry where
  key := i.objectKey
  indexKey := i.indexKey
  version := i.head
  path := i.path
  sha256 := i.sha256
  size := i.size
  validationKey := i.validationKey
  sessionKey := i.sessionKey
  deleted := i.deleted
  authorOrigin := i.authorOrigin
  authorSubject := i.authorSubject

def index (db : ObjectTables) (after : Int) (limit : Nat) (deleted : Bool) :
    Fallible (List ObjectIndexEntry) := do
  failIf (after < 0 ∨ limit = 0 ∨ 10000 < limit) "invalid object index page"
  let rows := db.currentIndex.rows.filter
    fun i => after < i.indexKey ∧ (deleted ∨ i.deleted = false)
  pure (((Keyset.orderBy (·.indexKey) rows).take limit).map indexEntry)

def history (db : ObjectTables) (key : Bytes) (after limit : Nat) :
    Fallible (List ObjectRecord) := do
  failIf (int64Max < after ∨ limit = 0 ∨ 10000 < limit) "invalid object history page"
  bindTexts [key]
  let rows := db.revisions.rows.filterMap fun r =>
    if r.objectKey = key ∧ after < r.version then joined db key r.version else none
  pure ((Keyset.orderBy (·.version) rows).take limit)

/-- The changes between two lists of chunks. The shorter list is filled up with chunks without
a hash. -/
def chunkChanges (before after : List Chunk) : List ObjectChange :=
  (List.range (max before.length after.length)).filterMap fun i =>
    let a := before.getD i ⟨[], 0⟩
    let b := after.getD i ⟨[], 0⟩
    if a.hash ≠ b.hash ∨ a.size ≠ b.size then
      some ⟨i * chunkBytes, a.hash, b.hash, a.size, b.size⟩
    else none

def diff (db : ObjectTables) (key : Bytes) (version : Nat) : Fallible (List ObjectChange) := do
  failIf (version = 0 ∨ int64Max < version) "object version not found"
  let _ ← orFail "object version not found" (← get db key version)
  let before ← if 1 < version then chunks db key (version - 1) else pure []
  let after ← chunks db key version
  pure (chunkChanges before after)

def count (db : ObjectTables) (deleted : Bool) : Nat :=
  (db.objects.rows.filter fun o => deleted ∨ o.deleted = false).length

/-! ## The journal -/

/-- An entry of the journal, joined with its revision. -/
def journalEntry (j : ObjectJournalRow) (r : RevisionRow) : ObjectJournalEntry where
  sequence := j.sequence
  objectKey := r.objectKey
  version := r.version
  sessionKey := r.sessionKey
  recordedAtNs := r.atNs
  operation := r.operation
  path := r.path
  sha256 := r.sha256
  size := r.size
  deleted := r.deleted
  validationKey := r.validationKey

def journal (db : ObjectTables) (query : ObjectJournalQuery) :
    Fallible (List ObjectJournalEntry) := do
  failIf (query.afterSequence < 0 ∨ query.limit = 0 ∨ 1024 < query.limit)
    "invalid object journal page"
  field query.objectKey 1024 false
  field query.sessionKey 1024 false
  requireJournal m
  let rows := db.objectJournal.rows.filterMap fun j =>
    if query.afterSequence < j.sequence ∧ query.selects j then
      (db.revisions.find (j.objectKey, j.version)).map (journalEntry j)
    else none
  pure ((Keyset.orderBy (·.sequence) rows).take query.limit)

/-! ## Extraction -/

/-- Writing the chunks of a revision to the staged file. -/
def writeChunks (db : ObjectTables) (destination : Destination) :
    List Chunk → Nat → Fallible Bytes
  | [], _ => pure []
  | part :: parts, i => do
      bindTexts [part.hash]
      let row ← orFail "missing object chunk" (db.chunks.find part.hash)
      failIf (destination.writes i = false) "cannot write object extraction"
      let rest ← writeChunks db destination parts (i + 1)
      pure (row.data ++ rest)

/-- Extracting a content: the bytes of the file that is published. -/
def extract (db : ObjectTables) (key : Bytes) (version : Nat) (destination : Destination) :
    Fallible Bytes := do
  let valid ← validate P m db key version true
  failIf (valid = false) "object integrity validation failed"
  let r ← orFail "cannot extract absent object content" (← get db key version)
  failIf (r.deleted = true) "cannot extract absent object content"
  destination.stage
  let parts ← chunks db key version
  let content ← writeChunks db destination parts 0
  destination.publish
  pure content

end ObjectStore

end FileProvider
