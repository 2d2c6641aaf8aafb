import FileProvider.Library.Json
import FileProvider.Library.Table

/-!
# The object package: records and tables

The values the object store hands out, and the tables of the package they are read from. A
row has the columns of its table under the schema's names; a table carries the uniqueness of
its primary key (or of the unique column rows are looked up by). `ObjectTables` is the part of
a package the object store writes; the ontology's tables are a record of their own.

Where SQLite enforces something, the model has it as a condition of a statement; where the schema
makes a column unique, the type of the table carries it. Columns that no modelled function reads are
left out.
-/

namespace FileProvider

/-! ## Values -/

/-- The exact output of an author or authorship document. An empty document means unknown
provenance. -/
structure ObjectMetadata where
  format : Bytes
  payload : Bytes
deriving DecidableEq

namespace ObjectMetadata

/-- The default document, of unknown provenance. -/
def unknown : ObjectMetadata := ⟨[], []⟩

end ObjectMetadata

/-- Persistent attribution of a session and of the revisions it publishes. -/
structure ObjectAuthor where
  origin : Bytes
  subject : Bytes
  displayName : Bytes
  profile : ObjectMetadata
deriving DecidableEq

/-- One revision of an object, joined with its object row and its session. -/
structure ObjectRecord where
  key : Bytes
  indexKey : Int
  version : Nat
  path : Bytes
  sha256 : Bytes
  size : Nat
  author : ObjectAuthor
  sessionKey : Bytes
  recordedAtNs : Int
  operation : Bytes
  deleted : Bool
  parentValidationKey : Bytes
  validationKey : Bytes
  authorship : ObjectMetadata
  sourceStamp : Bytes
  schemaVersion : Nat
deriving DecidableEq

namespace ObjectRecord

/-- The record before its fields are filled in. -/
def initial : ObjectRecord where
  key := []
  indexKey := 0
  version := 0
  path := []
  sha256 := []
  size := 0
  author := ⟨[], [], [], .unknown⟩
  sessionKey := []
  recordedAtNs := 0
  operation := []
  deleted := false
  parentValidationKey := []
  validationKey := []
  authorship := .unknown
  sourceStamp := []
  schemaVersion := 2

end ObjectRecord

/-- The compact projection of an object's head. -/
structure ObjectIndexEntry where
  key : Bytes
  indexKey : Int
  version : Nat
  path : Bytes
  sha256 : Bytes
  size : Nat
  validationKey : Bytes
  sessionKey : Bytes
  deleted : Bool
  authorOrigin : Bytes
  authorSubject : Bytes
deriving DecidableEq

/-- The change of one chunk between a revision and the one before. -/
structure ObjectChange where
  offset : Nat
  beforeHash : Bytes
  afterHash : Bytes
  beforeSize : Nat
  afterSize : Nat
deriving DecidableEq

/-- A question to the journal. `afterSequence` is a cursor, and the keys are filters. -/
structure ObjectJournalQuery where
  afterSequence : Int
  limit : Nat
  objectKey : Bytes
  sessionKey : Bytes
deriving DecidableEq

/-- The compact projection of a revision the journal lists. -/
structure ObjectJournalEntry where
  sequence : Int
  objectKey : Bytes
  version : Nat
  sessionKey : Bytes
  recordedAtNs : Int
  operation : Bytes
  path : Bytes
  sha256 : Bytes
  size : Nat
  deleted : Bool
  validationKey : Bytes
deriving DecidableEq

/-- A work session. -/
structure ObjectSession where
  key : Bytes
  author : ObjectAuthor
  device : Bytes
  description : Bytes
  startedAtNs : Int
  endedAtNs : Int
deriving DecidableEq

/-- A map from strings to strings, in the order of its keys. -/
structure StringMap where
  entries : List (Bytes × Bytes)
  ascending : Keyset.Ascending (fun e : Bytes × Bytes => Bytes.order e.1) entries
deriving DecidableEq

namespace StringMap

/-- The map without entries. -/
def empty : StringMap := ⟨[], .nil⟩

end StringMap

/-- Immutable context of a work session. -/
structure ObjectSessionContext where
  application : Bytes
  applicationVersion : Bytes
  project : Bytes
  document : Bytes
  attributes : StringMap
deriving DecidableEq

namespace ObjectSessionContext

def empty : ObjectSessionContext := ⟨[], [], [], [], .empty⟩

end ObjectSessionContext

/-- The colour labels of a catalog entry, in the order of their numbers. -/
inductive ColorLabel where
  | none | red | orange | yellow | green | blue | purple | gray
deriving DecidableEq

namespace ColorLabel

/-- The number of a label. -/
def code : ColorLabel → Nat
  | .none => 0 | .red => 1 | .orange => 2 | .yellow => 3
  | .green => 4 | .blue => 5 | .purple => 6 | .gray => 7

/-- The label of a number up to seven. -/
def ofCode : Nat → ColorLabel
  | 0 => .none | 1 => .red | 2 => .orange | 3 => .yellow
  | 4 => .green | 5 => .blue | 6 => .purple | _ => .gray

@[simp] theorem ofCode_code (c : ColorLabel) : ofCode c.code = c := by cases c <;> rfl

/-- No colour has a code above that of grey. -/
theorem code_le (c : ColorLabel) : c.code ≤ gray.code := by cases c <;> decide

end ColorLabel

/-- The classification of a file. -/
structure FileMetadata where
  title : Bytes
  description : Bytes
  keywords : List Bytes
  rating : Nat
  color : ColorLabel
  fields : StringMap
  collections : List Bytes
deriving DecidableEq

/-- The document of a RAW envelope. -/
structure RawMetadata where
  originalName : Bytes
  mediaType : Bytes
  annotations : FileMetadata
deriving DecidableEq

/-- A record together with its RAW document. -/
structure RawEnvelope where
  record : ObjectRecord
  metadata : RawMetadata
deriving DecidableEq

/-- The two objects an imported document consists of. -/
structure ObjectDocument where
  file : ObjectRecord
  original : RawEnvelope
deriving DecidableEq

/-- A reference to stored bytes. -/
structure Chunk where
  hash : Bytes
  size : Nat
deriving DecidableEq

/-! ## Rows -/

/-- A row of `sessions`. -/
structure SessionRow where
  sessionKey : Bytes
  origin : Bytes
  subject : Bytes
  name : Bytes
  device : Bytes
  description : Bytes
  started : Int
  ended : Int
  profileFormat : Bytes
  profile : Bytes
deriving DecidableEq

/-- A row of `objects`. -/
structure ObjectRow where
  indexKey : Int
  objectKey : Bytes
  head : Nat
  path : Bytes
  deleted : Bool
deriving DecidableEq

/-- A row of `revisions`. -/
structure RevisionRow where
  objectKey : Bytes
  version : Nat
  path : Bytes
  sha256 : Bytes
  size : Nat
  authorOrigin : Bytes
  authorSubject : Bytes
  authorName : Bytes
  sessionKey : Bytes
  atNs : Int
  operation : Bytes
  deleted : Bool
  parentKey : Bytes
  validationKey : Bytes
  metadataFormat : Bytes
  metadata : Bytes
  sourceStamp : Bytes
  recordFormat : Nat
deriving DecidableEq

/-- The primary key of `revisions`. -/
def RevisionRow.id (r : RevisionRow) : Bytes × Nat := (r.objectKey, r.version)

/-- A row of `chunks`. -/
structure ChunkRow where
  sha256 : Bytes
  data : Bytes
deriving DecidableEq

/-- A row of `revision_chunks`. -/
structure RevisionChunkRow where
  objectKey : Bytes
  version : Nat
  ordinal : Nat
  sha256 : Bytes
  size : Nat
deriving DecidableEq

/-- The primary key of `revision_chunks`. -/
def RevisionChunkRow.id (r : RevisionChunkRow) : Bytes × Nat × Nat :=
  (r.objectKey, r.version, r.ordinal)

/-- A row of `current_index`. -/
structure IndexRow where
  indexKey : Int
  objectKey : Bytes
  head : Nat
  path : Bytes
  sha256 : Bytes
  size : Nat
  validationKey : Bytes
  sessionKey : Bytes
  deleted : Bool
  authorOrigin : Bytes
  authorSubject : Bytes
deriving DecidableEq

/-- A row of `work_sessions`. -/
structure WorkSessionRow where
  sequence : Nat
  sessionKey : Bytes
  context : Bytes
deriving DecidableEq

/-- A row of `raw_revisions`. -/
structure RawRevisionRow where
  objectKey : Bytes
  version : Nat
  document : Bytes
deriving DecidableEq

/-- The primary key of `raw_revisions`. -/
def RawRevisionRow.id (r : RawRevisionRow) : Bytes × Nat := (r.objectKey, r.version)

/-- A row of `object_journal`. -/
structure ObjectJournalRow where
  sequence : Nat
  objectKey : Bytes
  version : Nat
  sessionKey : Bytes
deriving DecidableEq

/-- The unique columns of `object_journal`. -/
def ObjectJournalRow.id (r : ObjectJournalRow) : Bytes × Nat := (r.objectKey, r.version)

/-- The filters of a journal query. An empty key filters nothing. -/
def ObjectJournalQuery.selects (query : ObjectJournalQuery) (j : ObjectJournalRow) : Prop :=
  (query.objectKey = [] ∨ j.objectKey = query.objectKey) ∧
    (query.sessionKey = [] ∨ j.sessionKey = query.sessionKey)

instance ObjectJournalQuery.decidableSelects (query : ObjectJournalQuery)
    (j : ObjectJournalRow) : Decidable (query.selects j) := by
  unfold ObjectJournalQuery.selects
  infer_instance

/-! ## The package -/

/-- The tables of a package the object store writes. A `…Sequence` is the last number its
table's `AUTOINCREMENT` handed out. -/
@[ext] structure ObjectTables where
  containerKey : Bytes
  userVersion : Nat
  sessions : Table SessionRow.sessionKey
  objects : Table ObjectRow.objectKey
  objectsSequence : Nat
  revisions : Table RevisionRow.id
  chunks : Table ChunkRow.sha256
  revisionChunks : Table RevisionChunkRow.id
  currentIndex : Table IndexRow.indexKey
  workSessions : Table WorkSessionRow.sessionKey
  workSessionsSequence : Nat
  rawRevisions : Table RawRevisionRow.id
  objectJournal : Table ObjectJournalRow.id
  objectJournalSequence : Nat

/-- A freshly created package of the current schema. -/
def ObjectTables.fresh (container : Bytes) : ObjectTables where
  containerKey := container
  userVersion := 5
  sessions := .empty
  objects := .empty
  objectsSequence := 0
  revisions := .empty
  chunks := .empty
  revisionChunks := .empty
  currentIndex := .empty
  workSessions := .empty
  workSessionsSequence := 0
  rawRevisions := .empty
  objectJournal := .empty
  objectJournalSequence := 0

/-- The functions the package takes from its platform: the hash and the two JSON libraries,
nlohmann's and SQLite's. -/
structure Platform where
  /-- The lower-case hexadecimal SHA-256 digest. -/
  hash : Bytes → Bytes
  json : JsonLibrary
  /-- SQLite's JSON parser, which keeps repeated members and their order. -/
  sqliteJson : Bytes → Option Json
  /-- The laxer grammar SQLite's JSON functions read their argument with. -/
  sqliteArgument : Bytes → Option Json
  /-- The text SQLite renders an array or an object of a document to. -/
  sqliteText : Json → Bytes

/-- What an open store remembers about its package, besides the database handle. -/
structure Impl where
  container : Bytes
  schema : Nat
  readOnly : Bool
deriving DecidableEq

/-- The greatest 64-bit integer. -/
def int64Max : Nat := 2 ^ 63 - 1

end FileProvider
