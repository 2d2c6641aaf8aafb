import FileProvider.Library.UniqueTable
import FileProvider.Object.Model

/-!
# The file catalog: values, files and tables

The values `FileCatalog` hands out, the native files it describes, and the tables of its
database. A file stands under its root-relative path, and its companion under that path with the
companion suffix; a catalogued file keeps the native state it had when it was registered.

The data types have the fields that the modelled calls read or write. The tables that have further
unique columns are `UniqueTable`s, so that tables which break the uniqueness cannot be built.
-/

namespace FileProvider

open Bytes

/-! ## Values -/

/-- A catalogued file. -/
structure CatalogFile where
  key : Bytes
  index : Nat
  revision : Nat
  path : Bytes
  size : Nat
  modifiedAtNs : Int
  contentVersion : Bytes
  metadata : FileMetadata
  metadataPending : Bool
deriving DecidableEq

/-- A collection. -/
structure FileCollection where
  key : Bytes
  name : Bytes
deriving DecidableEq

/-- What a call says about the file it wrote, and about its companion. -/
structure MetadataWrite where
  file : CatalogFile
  metadataWritten : Bool
  metadataError : String
deriving DecidableEq

/-- A file to register. Without metadata it imports its companion, or keeps the current
annotation. -/
structure FileRegistration where
  path : Bytes
  metadata : Option FileMetadata
deriving DecidableEq

namespace FileMetadata

/-- The default classification. -/
def initial : FileMetadata := ⟨[], [], [], 0, .none, .empty, []⟩

end FileMetadata

/-! ## Native files -/

/-- The native state of a file. The identity is that of the device and the inode, and the version
has the size and the times besides. -/
structure Physical where
  identity : Bytes
  version : Bytes
  size : Nat
  modified : Int
deriving DecidableEq

/-- What stands under a path. -/
inductive Node where
  | file (physical : Physical) (content : Bytes)
  | directory
  | redirected
  | special
deriving DecidableEq

/-- The files under the root of a catalog. `intact` says that the root, the private directory and
the database are those that were opened. -/
structure FileSystem where
  intact : Bool
  node : Bytes → Option Node

namespace FileSystem

/-- The file system with a node put under a path. -/
def write (fs : FileSystem) (path : Bytes) (n : Node) : FileSystem :=
  { fs with node := fun p => if p = path then some n else fs.node p }

/-- The content of a regular file. -/
def content (fs : FileSystem) (path : Bytes) : Option Bytes :=
  match fs.node path with
  | some (.file _ content) => some content
  | _ => none

@[simp] theorem node_write (fs : FileSystem) (path p : Bytes) (n : Node) :
    (fs.write path n).node p = if p = path then some n else fs.node p := rfl

/-- What is written under a path is its content. -/
theorem content_write_self (fs : FileSystem) (path : Bytes) (physical : Physical)
    (content : Bytes) : (fs.write path (.file physical content)).content path = some content := by
  unfold FileSystem.content
  rw [node_write, if_pos rfl]

/-- Writing under a path leaves the others. -/
theorem content_write_ne (fs : FileSystem) {path p : Bytes} (n : Node) (h : p ≠ path) :
    (fs.write path n).content p = fs.content p := by
  unfold FileSystem.content
  rw [node_write, if_neg h]

end FileSystem

/-! ## Rows -/

/-- A row of `files`. -/
structure FileRow where
  id : Nat
  key : Bytes
  path : Bytes
  identity : Bytes
  size : Nat
  modified : Int
  stamp : Bytes
  revision : Nat
  rating : Nat
  color : Nat
  title : Bytes
  metadata : Bytes
deriving DecidableEq

/-- A row of `keywords`. -/
structure KeywordRow where
  fileId : Nat
  term : Bytes
deriving DecidableEq

/-- A row of `fields`. -/
structure FieldRow where
  fileId : Nat
  name : Bytes
  value : Bytes
deriving DecidableEq

/-- The key of a row of `fields`. -/
def FieldRow.id (r : FieldRow) : Nat × Bytes := (r.fileId, r.name)

/-- A row of `collections`. -/
structure CollectionRow where
  key : Bytes
  name : Bytes
  folded : Bytes
deriving DecidableEq

/-- A row of `members`. -/
structure MemberRow where
  fileId : Nat
  collectionKey : Bytes
deriving DecidableEq

/-- A row of `search_fts`. -/
structure SearchRow where
  rowid : Nat
  path : Bytes
  title : Bytes
  description : Bytes
  keywords : Bytes
  fields : Bytes
deriving DecidableEq

/-- A row of `saved_filters`. -/
structure SavedFilterRow where
  key : Bytes
  name : Bytes
  folded : Bytes
  filter : Bytes
deriving DecidableEq

/-- The columns of `files` that are unique besides its id. -/
def FileRow.columns : List (FileRow → Bytes) := [FileRow.key, FileRow.path, FileRow.identity]

/-- The column of `collections` that is unique besides its key. -/
def CollectionRow.columns : List (CollectionRow → Bytes) := [CollectionRow.folded]

/-- The column of `saved_filters` that is unique besides its key. -/
def SavedFilterRow.columns : List (SavedFilterRow → Bytes) := [SavedFilterRow.folded]

/-- The tables a catalog describes its files with. -/
structure CatalogTables where
  catalogId : Bytes
  revision : Nat
  files : UniqueTable FileRow.id FileRow.columns
  filesSequence : Nat
  keywords : Table (id : KeywordRow → KeywordRow)
  fields : Table FieldRow.id
  collections : UniqueTable CollectionRow.key CollectionRow.columns
  members : Table (id : MemberRow → MemberRow)
  savedFilters : UniqueTable SavedFilterRow.key SavedFilterRow.columns
  pending : Table (id : Nat → Nat)
  search : Table SearchRow.rowid

namespace CatalogTables

/-- The tables of a catalog without files. -/
def empty (catalogId : Bytes) : CatalogTables where
  catalogId := catalogId
  revision := 0
  files := .empty
  filesSequence := 0
  keywords := .empty
  fields := .empty
  collections := .empty
  members := .empty
  savedFilters := .empty
  pending := .empty
  search := .empty

end CatalogTables

/-- A catalog: its files and its tables. -/
structure Catalog where
  fs : FileSystem
  tables : CatalogTables

end FileProvider
