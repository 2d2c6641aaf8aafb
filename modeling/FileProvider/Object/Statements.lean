import FileProvider.Object.Check

/-!
# The statements on the object tables

Each statement that writes a table of the package: its bound values, its constraints, and the
triggers of the schema that fire with it. A statement that a constraint or a trigger refuses
throws, and the transaction it stands in is rolled back.

The triggers are part of the statements that fire them, so a statement is all that the engine does
for it. Nothing else in the model writes these tables.
-/

namespace FileProvider

open Bytes Fallible

/-- The limit on a bound text. -/
def maximumText : Nat := 2 * 1024 * 1024

/-- `ObjectStore::chunkBytes`. -/
def chunkBytes : Nat := 1024 * 1024

/-- Binding texts to a statement. -/
def bindTexts (texts : List Bytes) : Fallible Unit :=
  failIf (∃ s ∈ texts, maximumText < s.length) "object metadata field exceeds limit"

namespace ObjectTables

variable (db : ObjectTables)

/-! ## Sessions -/

def insertSession (row : SessionRow) : Fallible ObjectTables := do
  bindTexts [row.sessionKey, row.origin, row.subject, row.name, row.device, row.description,
    row.profileFormat, row.profile]
  let sessions ← orFail "UNIQUE constraint failed: sessions.session_key" (db.sessions.insert row)
  pure { db with sessions }

def insertWorkSession (sessionKey context : Bytes) : Fallible ObjectTables := do
  bindTexts [sessionKey, context]
  failIf (db.sessions.find sessionKey = none) "FOREIGN KEY constraint failed"
  failIf (int64Max ≤ db.workSessionsSequence) "database or disk is full"
  let workSessions ← orFail "UNIQUE constraint failed: work_sessions.session_key"
    (db.workSessions.insert ⟨db.workSessionsSequence + 1, sessionKey, context⟩)
  pure { db with workSessions, workSessionsSequence := db.workSessionsSequence + 1 }

def setEnded (sessionKey : Bytes) (ended : Int) : Fallible ObjectTables := do
  bindTexts [sessionKey]
  pure { db with
    sessions := db.sessions.modify sessionKey (fun s => { s with ended }) (fun _ => rfl) }

/-! ## Objects -/

/-- Some live object has the path. -/
def livePath (path : Bytes) : Prop := ∃ o ∈ db.objects.rows, o.path = path ∧ o.deleted = false

instance (path : Bytes) : Decidable (db.livePath path) := by
  unfold livePath
  infer_instance

/-- `INSERT INTO objects(object_key,head,path,deleted) VALUES(?,0,?,0)`. -/
def insertObject (objectKey path : Bytes) : Fallible (Int × ObjectTables) := do
  bindTexts [objectKey, path]
  failIf (int64Max ≤ db.objectsSequence) "database or disk is full"
  let indexKey := db.objectsSequence + 1
  let objects ← orFail "UNIQUE constraint failed: objects.object_key"
    (db.objects.insert ⟨indexKey, objectKey, 0, path, false⟩)
  failIf (db.livePath path) "UNIQUE constraint failed: objects.path"
  pure (indexKey, { db with objects, objectsSequence := indexKey })

/-- The row of `current_index` for an object and its head revision. -/
def indexRow (o : ObjectRow) (r : RevisionRow) : IndexRow :=
  ⟨o.indexKey, o.objectKey, o.head, o.path, r.sha256, r.size, r.validationKey, r.sessionKey,
    o.deleted, r.authorOrigin, r.authorSubject⟩

/-- The trigger `current_index_publish`, which schema 3 brought. The unique index on
`object_key`, which schema 5 brought, makes the replacement take a row of that key too. -/
def publishIndex (o : ObjectRow) : ObjectTables :=
  if 3 ≤ db.userVersion ∧ 0 < o.head then
    match db.revisions.find (o.objectKey, o.head) with
    | some r =>
        let kept := if 5 ≤ db.userVersion
          then db.currentIndex.filter (fun i => i.objectKey ≠ o.objectKey) else db.currentIndex
        { db with currentIndex := kept.upsert (indexRow o r) }
    | none => db
  else db

/-- `UPDATE objects SET head=?,path=?,deleted=? WHERE object_key=?`. -/
def updateHead (head : Nat) (path : Bytes) (deleted : Bool) (objectKey : Bytes) :
    Fallible ObjectTables := do
  bindTexts [path, objectKey]
  match db.objects.find objectKey with
  | none => pure db
  | some o =>
      failIf (deleted = false ∧ ∃ other ∈ db.objects.rows, other.objectKey ≠ objectKey
        ∧ other.path = path ∧ other.deleted = false) "UNIQUE constraint failed: objects.path"
      let objects := db.objects.modify objectKey
        (fun o => { o with head, path, deleted }) (fun _ => rfl)
      pure ({ db with objects }.publishIndex { o with head, path, deleted })

/-! ## Revisions -/

/-- The trigger `object_journal_append`, which schema 4 brought. -/
def appendJournal (r : RevisionRow) : Fallible ObjectTables :=
  if 4 ≤ db.userVersion then do
    failIf (int64Max ≤ db.objectJournalSequence) "database or disk is full"
    let objectJournal ← orFail "UNIQUE constraint failed: object_journal.object_key"
      (db.objectJournal.insert
        ⟨db.objectJournalSequence + 1, r.objectKey, r.version, r.sessionKey⟩)
    pure { db with objectJournal, objectJournalSequence := db.objectJournalSequence + 1 }
  else pure db

def insertRevision (row : RevisionRow) : Fallible ObjectTables := do
  bindTexts [row.objectKey, row.path, row.sha256, row.authorOrigin, row.authorSubject,
    row.authorName, row.sessionKey, row.operation, row.parentKey, row.validationKey,
    row.metadataFormat, row.metadata, row.sourceStamp]
  failIf (row.version = 0) "CHECK constraint failed: version>0"
  failIf (row.recordFormat ≠ 1 ∧ row.recordFormat ≠ 2)
    "CHECK constraint failed: record_format IN(1,2)"
  let revisions ← orFail "UNIQUE constraint failed: revisions.object_key, revisions.version"
    (db.revisions.insert row)
  failIf (db.objects.find row.objectKey = none ∨ db.sessions.find row.sessionKey = none)
    "FOREIGN KEY constraint failed"
  { db with revisions }.appendJournal row

def insertRaw (row : RawRevisionRow) : Fallible ObjectTables := do
  bindTexts [row.objectKey, row.document]
  failIf (db.revisions.find (row.objectKey, row.version) = none) "FOREIGN KEY constraint failed"
  let rawRevisions ← orFail "UNIQUE constraint failed: raw_revisions.object_key"
    (db.rawRevisions.insert row)
  pure { db with rawRevisions }

/-! ## Content -/

def insertChunk (row : ChunkRow) : Fallible ObjectTables := do
  bindTexts [row.sha256]
  failIf (chunkBytes < row.data.length) "object chunk exceeds limit"
  let chunks ← orFail "UNIQUE constraint failed: chunks.sha256" (db.chunks.insert row)
  pure { db with chunks }

def insertRevisionChunk (row : RevisionChunkRow) : Fallible ObjectTables := do
  bindTexts [row.objectKey, row.sha256]
  failIf (row.size = 0) "CHECK constraint failed: size>0"
  failIf (db.revisions.find (row.objectKey, row.version) = none
    ∨ db.chunks.find row.sha256 = none) "FOREIGN KEY constraint failed"
  let revisionChunks ← orFail "UNIQUE constraint failed: revision_chunks.object_key"
    (db.revisionChunks.insert row)
  pure { db with revisionChunks }

end ObjectTables

end FileProvider
