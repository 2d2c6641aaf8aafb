import FileProvider.Catalog.Metadata

/-!
# The statements on the catalog

Each statement that writes a table of the catalog: its bound values, its constraints, and the
foreign keys of the rows it inserts or takes with it. A statement that a constraint refuses
throws, and the transaction it stands in is rolled back.

A statement is a function from tables to tables or to an exception. The order of the checks is that
of the engine: bound values first, then the constraints of the row, then the foreign keys. Nothing
else in the model writes tables.
-/

namespace FileProvider

open Bytes Fallible

namespace FileRow

/-- A row of `files` before it is annotated. -/
def new (id : Nat) (key path : Bytes) (physical : Physical) (revision : Nat) : FileRow :=
  ⟨id, key, path, physical.identity, physical.size, physical.modified, physical.version, revision,
    0, 0, [], ascii "\x7b\x7d"⟩

/-- A row with the native state and the path of its file written anew. -/
def refresh (r : FileRow) (path : Bytes) (physical : Physical) (revision : Nat) : FileRow :=
  { r with path, revision, identity := physical.identity, size := physical.size,
           modified := physical.modified, stamp := physical.version }

/-- A row with its revision raised. -/
def raise (r : FileRow) : FileRow := { r with revision := r.revision + 1 }

/-- A row with an annotation. -/
def annotate (r : FileRow) (m : FileMetadata) (text : Bytes) : FileRow :=
  { r with rating := m.rating, color := m.color.code, title := m.title, metadata := text }

end FileRow

namespace Catalog

/-- Binding texts to a statement. -/
def bindTexts (texts : List Bytes) : Fallible Unit :=
  failIf (∃ s ∈ texts, maximumMetadataBytes + 65536 < s.length) "SQLite text limit"

/-- `integer`, for the values that are bound as 64-bit numbers. -/
def integer (value : Nat) : Fallible Unit :=
  failIf (int64Max < value) "integer exceeds SQLite range"

end Catalog

namespace CatalogTables

open Catalog

variable (db : CatalogTables)

/-- `UPDATE catalog SET revision=revision+1`. -/
def bump : Fallible CatalogTables := do
  failIf (int64Max ≤ db.revision) "CHECK constraint failed: revision"
  pure { db with revision := db.revision + 1 }

/-! ## Files -/

/-- `INSERT INTO files(identity,size,modified,stamp,revision,key,path,rating,color,title,metadata)
VALUES(?,?,?,?,?,?,?,0,0,'','{}')`, with the id of the row. -/
def insertFile (physical : Physical) (revision : Nat) (key path : Bytes) :
    Fallible (Nat × CatalogTables) := do
  bindTexts [physical.identity, physical.version, key, path]
  integer physical.size
  integer revision
  failIf (revision = 0) "CHECK constraint failed: revision"
  failIf (int64Max ≤ db.filesSequence) "database or disk is full"
  let id := db.filesSequence + 1
  let files ← orFail "UNIQUE constraint failed: files"
    (db.files.insert (.new id key path physical revision))
  pure (id, { db with files, filesSequence := id })

/-- `UPDATE files SET identity=?,size=?,modified=?,stamp=?,revision=?,path=? WHERE id=?`. -/
def updateFile (physical : Physical) (revision : Nat) (path : Bytes) (id : Nat) :
    Fallible CatalogTables := do
  bindTexts [physical.identity, physical.version, path]
  integer physical.size
  integer revision
  failIf (revision = 0) "CHECK constraint failed: revision"
  let files ← orFail "UNIQUE constraint failed: files"
    (db.files.modify id (fun r => r.refresh path physical revision) (fun _ => rfl))
  pure { db with files }

/-- `UPDATE files SET revision=revision+1 WHERE id IN(…)`. -/
def raiseRevisions (ids : List Nat) : Fallible CatalogTables := do
  failIf (∃ r ∈ db.files.rows, r.id ∈ ids ∧ int64Max ≤ r.revision)
    "CHECK constraint failed: revision"
  pure { db with
    files := db.files.update (fun r => if r.id ∈ ids then r.raise else r)
      (by intro r; split <;> rfl)
      (by
        intro c hc r
        simp only [FileRow.columns, List.mem_cons, List.not_mem_nil, or_false] at hc
        rcases hc with rfl | rfl | rfl <;> split <;> rfl) }

/-! ## Annotations -/

/-- `UPDATE files SET rating=?,color=?,title=?,metadata=? WHERE id=?`. -/
def updateAnnotation (m : FileMetadata) (text : Bytes) (id : Nat) : Fallible CatalogTables := do
  bindTexts [m.title, text]
  failIf (5 < m.rating) "CHECK constraint failed: rating BETWEEN 0 AND 5"
  pure { db with
    files := db.files.update
      (fun r => if r.id = id then r.annotate m text else r)
      (by intro r; split <;> rfl)
      (by
        intro c hc r
        simp only [FileRow.columns, List.mem_cons, List.not_mem_nil, or_false] at hc
        rcases hc with rfl | rfl | rfl <;> split <;> rfl) }

/-- `DELETE FROM keywords`, `fields` and `members WHERE file_id=?`. -/
def removeAnnotation (id : Nat) : CatalogTables :=
  { db with
    keywords := db.keywords.filter fun k => k.fileId ≠ id
    fields := db.fields.filter fun f => f.fileId ≠ id
    members := db.members.filter fun m => m.fileId ≠ id }

def insertKeyword (row : KeywordRow) : Fallible CatalogTables := do
  bindTexts [row.term]
  let keywords ← orFail "UNIQUE constraint failed: keywords.file_id, keywords.term"
    (db.keywords.insert row)
  failIf (db.files.find row.fileId = none) "FOREIGN KEY constraint failed"
  pure { db with keywords }

def insertField (row : FieldRow) : Fallible CatalogTables := do
  bindTexts [row.name, row.value]
  let fields ← orFail "UNIQUE constraint failed: fields.file_id, fields.name"
    (db.fields.insert row)
  failIf (db.files.find row.fileId = none) "FOREIGN KEY constraint failed"
  pure { db with fields }

def insertMember (row : MemberRow) : Fallible CatalogTables := do
  bindTexts [row.collectionKey]
  let members ← orFail "UNIQUE constraint failed: members.file_id, members.collection_key"
    (db.members.insert row)
  failIf (db.files.find row.fileId = none ∨ db.collections.find row.collectionKey = none)
    "FOREIGN KEY constraint failed"
  pure { db with members }

/-- `DELETE FROM search_fts WHERE rowid=?`, and the insert of its new row. -/
def replaceSearch (row : SearchRow) : Fallible CatalogTables := do
  bindTexts [row.path, row.title, row.description, row.keywords, row.fields]
  pure { db with search := db.search.upsert row }

/-! ## Pending companions -/

/-- `INSERT OR IGNORE INTO pending`. -/
def queue (ids : List Nat) : Fallible CatalogTables := do
  failIf (∃ i ∈ ids, db.files.find i = none) "FOREIGN KEY constraint failed"
  pure { db with pending := ids.foldl (fun pending i => pending.orInsert i) db.pending }

/-- `DELETE FROM pending WHERE file_id=?`. -/
def dequeue (id : Nat) : CatalogTables :=
  { db with pending := db.pending.filter fun i => i ≠ id }

/-! ## Collections -/

def insertCollection (row : CollectionRow) : Fallible CatalogTables := do
  bindTexts [row.key, row.name, row.folded]
  let collections ← orFail "UNIQUE constraint failed: collections" (db.collections.insert row)
  pure { db with collections }

/-- `UPDATE collections SET name=?,folded=? WHERE key=?`, which must change a row. -/
def updateCollection (row : CollectionRow) : Fallible CatalogTables := do
  bindTexts [row.key, row.name, row.folded]
  let collections ← orFail "UNIQUE constraint failed: collections.folded"
    (db.collections.modify row.key (fun c => { c with name := row.name, folded := row.folded })
      (fun _ => rfl))
  failIf (db.collections.find row.key = none) "collection does not exist"
  pure { db with collections }

/-- `DELETE FROM collections WHERE key=?`, which must change a row and takes its memberships. -/
def removeCollection (key : Bytes) : Fallible CatalogTables := do
  bindTexts [key]
  failIf (db.collections.find key = none) "collection does not exist"
  pure { db with
    collections := db.collections.erase key
    members := db.members.filter fun m => m.collectionKey ≠ key }

/-! ## Saved filters -/

/-- `INSERT INTO saved_filters VALUES(?,?,?,?) ON CONFLICT(key) DO UPDATE SET name=excluded.name,
folded=excluded.folded,filter=excluded.filter`. -/
def upsertFilter (row : SavedFilterRow) : Fallible CatalogTables := do
  bindTexts [row.key, row.name, row.folded, row.filter]
  let savedFilters ← orFail "UNIQUE constraint failed: saved_filters.folded"
    (if db.savedFilters.find row.key = none then db.savedFilters.insert row
    else db.savedFilters.modify row.key
      (fun r => { r with name := row.name, folded := row.folded, filter := row.filter })
      (fun _ => rfl))
  pure { db with savedFilters }

/-- `DELETE FROM saved_filters WHERE key=?`, which must change a row. -/
def eraseFilter (key : Bytes) : Fallible CatalogTables := do
  bindTexts [key]
  failIf (db.savedFilters.find key = none) "saved filter does not exist"
  pure { db with savedFilters := db.savedFilters.erase key }

/-! ## Queries -/

/-- `SELECT key FROM collections WHERE key=? OR folded=? ORDER BY key=? DESC`, its first row. -/
def collectionOf (key folded : Bytes) : Option Bytes :=
  ((db.collections.find key).or (db.collections.findBy CollectionRow.folded folded)).map (·.key)

/-- `SELECT collection_key FROM members WHERE file_id=? ORDER BY collection_key`. -/
def memberships (id : Nat) : List Bytes :=
  Keyset.orderBy order ((db.members.rows.filter fun m => m.fileId = id).map (·.collectionKey))

/-- `SELECT file_id FROM members WHERE collection_key=?`. -/
def membersOf (key : Bytes) : List Nat :=
  (db.members.rows.filter fun m => m.collectionKey = key).map (·.fileId)

end CatalogTables

end FileProvider
