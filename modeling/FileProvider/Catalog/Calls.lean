import FileProvider.Catalog.Filters

/-!
# The calls of a catalog

The writing calls of `FileCatalog`, of an instance that is open for writing. A call gives its
answer together with the catalog it leaves, also where it throws: a companion that cannot be
written leaves the file pending, and a batch of publications stops at the first that fails. What
a call meets outside, the native state of the files it writes and how far its writes get, it is
given.

The calls follow the source from their first check to their last. A transaction is a function that
throws without an effect on the tables; what the native files keep of a failed call is what the call
gives back with its exception.
-/

namespace FileProvider

open Bytes Fallible

/-- How far a write to the native files gets: it is done, or what follows it fails, or it is not
done. -/
inductive NativeWrite (α : Type) where
  | done (value : α)
  | torn (value : α) (message : String)
  | failed (message : String)

/-- A new file as it stands once it is presented, and its preview. -/
structure NewFile where
  physical : Physical
  preview : Option (Physical × Bytes)

/-- The path of the preview of a file. -/
def previewPath (path : Bytes) : Bytes :=
  let name := (path.reverse.takeWhile (· ≠ 47)).reverse
  path.take (path.length - name.length) ++ 46 :: name ++ Catalog.previewSuffix

namespace FileSystem

/-- The file system with nothing under a path. -/
def remove (fs : FileSystem) (path : Bytes) : FileSystem :=
  { fs with node := fun p => if p = path then none else fs.node p }

/-- The file system with a preview under its path. -/
def present (fs : FileSystem) (path : Bytes) : Option (Physical × Bytes) → FileSystem
  | none => fs
  | some (physical, content) => fs.write (previewPath path) (.file physical content)

/-- The file system with a new file. -/
def place (fs : FileSystem) (path content : Bytes) (file : NewFile) : FileSystem :=
  (fs.write path (.file file.physical content)).present path file.preview

/-- The file system with a new file taken away. -/
def unplace (fs : FileSystem) (path : Bytes) : FileSystem :=
  (fs.remove path).remove (previewPath path)

/-- The directories on the way to a file, those that are missing made, up to what is none. -/
def makeDirectories : List Bytes → FileSystem → FileSystem
  | [], fs => fs
  | p :: rest, fs =>
      match fs.node p with
      | none => makeDirectories rest (fs.write p .directory)
      | some .directory => makeDirectories rest fs
      | some _ => fs

end FileSystem

namespace Catalog

variable (E : CatalogLibraries)

/-! ## Publication -/

/-- The catalog with the companion of a file replaced. -/
def replaceCompanion (c : Catalog) (f : CatalogFile) (text : Bytes) (physical : Physical) :
    Catalog :=
  { c with fs := c.fs.write (companionPath f.path) (.file physical text) }

def publish (c : Catalog) (key : Bytes) (w : NativeWrite Physical) : Fallible Bool × Catalog :=
  match publication E c.fs c.tables key with
  | .error e => (.error e, c)
  | .ok none => (.ok false, c)
  | .ok (some (f, text)) =>
      match w with
      | .failed e => (.error e, c)
      | .torn physical e => (.error e, c.replaceCompanion f text physical)
      | .done physical =>
          (.ok true, { c.replaceCompanion f text physical with tables := c.tables.dequeue f.index })

/-- The message of a publication that failed. -/
def errorOf : Fallible Bool → String
  | .error e => e
  | .ok _ => ""

def publishResult (c : Catalog) (key : Bytes) (w : NativeWrite Physical) :
    Fallible MetadataWrite × Catalog :=
  let (result, c) := publish E c key w
  (do
    let f ← require E c.tables key
    pure ⟨f, !f.metadataPending, errorOf result⟩, c)

/-- The publications of a batch, which stop at the first that fails. -/
def publishAll : List Bytes → (Nat → NativeWrite Physical) → Catalog → Fallible Nat × Catalog
  | [], _, c => (.ok 0, c)
  | key :: keys, w, c =>
      match publish E c key (w 0) with
      | (.error e, c) => (.error e, c)
      | (.ok published, c) =>
          let (rest, c) := publishAll keys (fun i => w (i + 1)) c
          ((· + if published = true then 1 else 0) <$> rest, c)

/-- `SELECT e.key FROM pending p JOIN files e ON e.id=p.file_id ORDER BY p.file_id LIMIT ?`. -/
def pendingKeys (db : CatalogTables) (limit : Nat) : List Bytes :=
  ((Keyset.orderBy id db.pending.rows).filterMap fun i => (db.files.find i).map (·.key)).take limit

/-- `FileCatalog::maximumPage`. -/
def maximumPage : Nat := 1024

def publishMetadata (c : Catalog) (limit : Nat) (w : Nat → NativeWrite Physical) :
    Fallible Nat × Catalog :=
  match (do
    failIf (limit = 0 ∨ maximumPage < limit) "metadata publication batch exceeds limit"
    intact c.fs) with
  | .error e => (.error e, c)
  | .ok () => publishAll E (pendingKeys c.tables limit) w c

/-! ## Registration -/

/-- `FileCatalog::maximumBatch`. -/
def maximumBatch : Nat := 1024

/-- `maximumBatchMetadata`. -/
def maximumBatchMetadata : Nat := 16 * 1024 * 1024

/-- The size of the metadata of a batch once one more file is in. -/
def batchSize (bytes : Nat) (metadata : FileMetadata) : Fallible Nat := do
  let text ← E.json.dump (metadataJson metadata)
  failIf (maximumBatchMetadata < bytes + text.length) "registration metadata exceeds batch limit"
  pure (bytes + text.length)

/-- One entry of a batch before the transaction: its path differs from those before it, and its
metadata fit. -/
def checkEntry (state : List Bytes × Nat) (r : FileRegistration) : Fallible (List Bytes × Nat) := do
  let _ ← relativePath E r.path false
  failIf (r.path ∈ state.1) "duplicate path in registration batch"
  match r.metadata with
  | none => pure (r.path :: state.1, state.2)
  | some m => do
      let bytes ← batchSize E state.2 (← normalizeMetadata E m)
      pure (r.path :: state.1, bytes)

/-- A batch of registrations under way. -/
structure Batch where
  tables : CatalogTables
  files : List CatalogFile
  mutated : Bool
  bytes : Nat

/-- One entry of a batch in the transaction. -/
def registerEntry (fs : FileSystem) (b : Batch) (e : FileRegistration × KeyDraws) :
    Fallible Batch := do
  let (file, mutated, tables) ← registration E fs b.tables e.1 e.2
  let bytes ← batchSize E b.bytes file.metadata
  pure ⟨tables, b.files ++ [file], b.mutated || mutated, bytes⟩

/-- The transaction of `registerFiles`. -/
def registerBatch (fs : FileSystem) (db : CatalogTables) (input : List FileRegistration)
    (draws : Nat → KeyDraws) : Fallible (List CatalogFile × CatalogTables) := do
  let entries := input.zipIdx.map fun e => (e.1, draws e.2)
  let batch ← entries.foldlM (registerEntry E fs) ⟨db, [], false, 0⟩
  let db ← if batch.mutated = true then batch.tables.bump else pure batch.tables
  pure (batch.files, db)

def registerFiles (c : Catalog) (input : List FileRegistration) (draws : Nat → KeyDraws) :
    Fallible (List CatalogFile) × Catalog :=
  match (do
    failIf (input = [] ∨ maximumBatch < input.length) "registration batch exceeds file count limit"
    let _ ← input.foldlM (checkEntry E) ([], 0)
    intact c.fs
    registerBatch E c.fs c.tables input draws) with
  | .error e => (.error e, c)
  | .ok (files, db) => (.ok files, { c with tables := db })

/-- `Presentation::prepare` of a file that is registered. An attribute it writes changes the native
state of the file. -/
def prepare (c : Catalog) (relative : Bytes) (presented : Option NewFile) : Catalog :=
  match path E c.fs relative, presented with
  | .ok place, some file =>
      match c.fs.content place with
      | some content => { c with fs := c.fs.place place content file }
      | none => c
  | _, _ => c

def registerFile (c : Catalog) (relative : Bytes) (metadata : Option FileMetadata)
    (presented : Option NewFile) (draws : KeyDraws) (w : NativeWrite Physical) :
    Fallible MetadataWrite × Catalog :=
  match metadata.mapM (normalizeMetadata E) with
  | .error e => (.error e, c)
  | .ok _ =>
      match registerFiles E (prepare E c relative presented) [⟨relative, metadata⟩]
        (fun _ => draws) with
      | (.ok (registered :: _), c) => publishResult E c registered.key w
      | (.ok [], c) => (.error "registration batch exceeds file count limit", c)
      | (.error e, c) => (.error e, c)

/-! ## New files -/

def requireVacant (fs : FileSystem) (path : Bytes) : Fallible Unit :=
  failIf (fs.node path ≠ none ∨ fs.node (companionPath path) ≠ none
    ∨ fs.node (previewPath path) ≠ none) "file or companion already exists"

/-- `path` with missing directories made. -/
def makeParents (fs : FileSystem) (relative : Bytes) : FileSystem :=
  match (do intact fs; relativePath E relative false) with
  | .ok value => fs.makeDirectories (ancestors value)
  | .error _ => fs

/-- The metadata of a file that is imported, once the collections of the companion of its source
are restored. -/
def inherit (db : CatalogTables) (inherited : Option Companion) (metadata : FileMetadata) :
    Fallible (FileMetadata × CatalogTables) :=
  match inherited with
  | none => pure (metadata, db)
  | some j => restoreCollections E db j

/-- What a creation has ready before it puts the file in place. Where nothing else writes, the
second check for a vacant place gives what the first gave. -/
def prepared (c : Catalog) (relative : Bytes) (encoded : Fallible Bytes)
    (inherited : Option Companion) (metadata : FileMetadata) :
    Fallible (Bytes × Bytes × FileMetadata × CatalogTables) := do
  let destination ← path E c.fs relative
  requireVacant c.fs destination
  let content ← encoded
  let (metadata, db) ← inherit E c.tables inherited metadata
  pure (destination, content, metadata, db)

/-- The transaction of a creation once the file is in place. -/
def register (fs : FileSystem) (db : CatalogTables) (relative : Bytes) (metadata : FileMetadata)
    (draws : KeyDraws) : Fallible (CatalogFile × CatalogTables) := do
  let (file, _, db) ← registration E fs db ⟨relative, some metadata⟩ draws
  let db ← db.bump
  pure (file, db)

/-- A new file put in place and registered. -/
def addFile (c : Catalog) (relative : Bytes) (encoded : Fallible Bytes)
    (inherited : Option Companion) (metadata : FileMetadata) (draws : KeyDraws)
    (file : NativeWrite NewFile) (w : NativeWrite Physical) : Fallible MetadataWrite × Catalog :=
  match prepared E c relative encoded inherited metadata with
  | .error e => (.error e, c)
  | .ok (destination, content, metadata, db) =>
      match file with
      | .failed e => (.error e, c)
      | .torn file e => (.error e, { c with fs := c.fs.place destination content file })
      | .done file =>
          let fs := c.fs.place destination content file
          match register E fs db relative metadata draws with
          | .error e => (.error e, { c with fs := fs.unplace destination })
          | .ok (registered, db) => publishResult E ⟨fs, db⟩ registered.key w

/-- `createFileWith`, with what the encoder writes or throws. -/
def createFileWith (c : Catalog) (relative : Bytes) (encoded : Fallible Bytes)
    (input : FileMetadata) (draws : KeyDraws) (file : NativeWrite NewFile)
    (w : NativeWrite Physical) :
    Fallible MetadataWrite × Catalog :=
  match (do let metadata ← normalizeMetadata E input; intact c.fs; pure metadata) with
  | .error e => (.error e, c)
  | .ok metadata =>
      addFile E { c with fs := makeParents E c.fs relative } relative encoded none metadata draws
        file w

def createFile (c : Catalog) (relative bytes : Bytes) (input : FileMetadata) (draws : KeyDraws)
    (file : NativeWrite NewFile) (w : NativeWrite Physical) : Fallible MetadataWrite × Catalog :=
  createFileWith E c relative (.ok bytes) input draws file w

/-- The metadata an import starts with, and the companion of its source. -/
def importMetadata (source : FileSystem) (origin : Bytes) (input : Option FileMetadata) :
    Fallible (FileMetadata × Option Companion) := do
  let metadata ← match input with
    | some m => normalizeMetadata E m
    | none => pure .initial
  let _ ← inspect source origin
  match input with
  | some _ => pure (metadata, none)
  | none => do
      match ← sidecar E source origin with
      | none => pure (metadata, none)
      | some j => pure (j.metadata, some j)

/-- `importFile` of a file among the native files of a source. -/
def importFile (c : Catalog) (source : FileSystem) (origin relative : Bytes)
    (input : Option FileMetadata) (draws : KeyDraws) (file : NativeWrite NewFile)
    (w : NativeWrite Physical) : Fallible MetadataWrite × Catalog :=
  match (do let start ← importMetadata E source origin input; intact c.fs; pure start) with
  | .error e => (.error e, c)
  | .ok (metadata, inherited) =>
      addFile E { c with fs := makeParents E c.fs relative } relative
        (orFail "cannot open file import streams" (source.content origin)) inherited metadata draws
        file w

/-! ## Edits -/

/-- The transaction of `updateMetadata`. -/
def update (fs : FileSystem) (db : CatalogTables) (key : Bytes) (expected : Nat)
    (metadata : FileMetadata) : Fallible CatalogTables := do
  let file ← require E db key
  failIf (file.revision ≠ expected) "classification revision conflict"
  let physical ← inspect fs (← path E fs file.path)
  failIf (physical.version ≠ file.contentVersion)
    "file changed; register its current version before editing metadata"
  let db ← db.raiseRevisions [file.index]
  let db ← annotations E db file.index file.path metadata
  let f ← require E db key
  let _ ← limitedDocument E db f "encoded companion exceeds byte limit"
  db.bump

def updateMetadata (c : Catalog) (key : Bytes) (expected : Nat) (input : FileMetadata)
    (w : NativeWrite Physical) : Fallible MetadataWrite × Catalog :=
  match (do
    let metadata ← normalizeMetadata E input
    intact c.fs
    update E c.fs c.tables key expected metadata) with
  | .error e => (.error e, c)
  | .ok db => publishResult E { c with tables := db } key w

/-! ## Collections -/

/-- The transaction of `createCollection`. -/
def addCollection (db : CatalogTables) (name : Bytes) (random : Fin 16 → UInt8) :
    Fallible (FileCollection × CatalogTables) := do
  failIf (4096 ≤ db.collections.rows.length) "collection count exceeds limit"
  let key := newKey random "collection-"
  let db ← db.insertCollection ⟨key, name, ← normalized E name 512 true false⟩
  pure (⟨key, name⟩, ← db.bump)

def createCollection (c : Catalog) (input : Bytes) (random : Fin 16 → UInt8) :
    Fallible FileCollection × Catalog :=
  match (do
    let name ← normalized E input 512 false true
    intact c.fs
    addCollection E c.tables name random) with
  | .error e => (.error e, c)
  | .ok (collection, db) => (.ok collection, { c with tables := db })

/-- The check of the document of one file a renaming affects. -/
def affectedValid (db : CatalogTables) (id : Nat) : Fallible Unit :=
  match db.files.find id with
  | none => pure ()
  | some r => do
      let f ← require E db r.key
      let _ ← limitedDocument E db f "renamed collection exceeds companion byte limit"
      pure ()

/-- The transaction of `renameCollection`. -/
def rename (db : CatalogTables) (key name : Bytes) : Fallible CatalogTables := do
  let db ← db.updateCollection ⟨key, name, ← normalized E name 512 true false⟩
  let db ← db.raiseRevisions (db.membersOf key)
  let db ← db.queue (db.membersOf key)
  (db.membersOf key).forM (affectedValid E db)
  db.bump

def renameCollection (c : Catalog) (key input : Bytes) : Fallible Unit × Catalog :=
  match (do
    let name ← normalized E input 512 false true
    intact c.fs
    rename E c.tables key name) with
  | .error e => (.error e, c)
  | .ok db => (.ok (), { c with tables := db })

/-- The transaction of `removeCollection`. -/
def dissolve (db : CatalogTables) (key : Bytes) : Fallible CatalogTables := do
  let db ← db.raiseRevisions (db.membersOf key)
  let db ← db.queue (db.membersOf key)
  let db ← db.removeCollection key
  db.bump

def removeCollection (c : Catalog) (key : Bytes) (w : Nat → NativeWrite Physical) :
    Fallible Unit × Catalog :=
  match (do intact c.fs; dissolve c.tables key) with
  | .error e => (.error e, c)
  | .ok db =>
      let (published, c) := publishMetadata E { c with tables := db } 256 w
      ((fun _ => ()) <$> published, c)

/-! ## Saved filters -/

def saveFilter (c : Catalog) (input : Bytes) (original : FileFilter) (random : Fin 16 → UInt8) :
    Fallible SavedFileFilter × Catalog :=
  match (do
    let name ← normalized E input 512 false true
    let filter ← normalizeFilter E original
    intact c.fs
    storeFilter E c.tables name filter random) with
  | .error e => (.error e, c)
  | .ok (saved, db) => (.ok saved, { c with tables := db })

def removeFilter (c : Catalog) (key : Bytes) : Fallible Unit × Catalog :=
  match (do intact c.fs; dropFilter E c.tables key) with
  | .error e => (.error e, c)
  | .ok db => (.ok (), { c with tables := db })

end Catalog

end FileProvider
