import FileProvider.Catalog.Paths
import FileProvider.Catalog.Statements
import FileProvider.Object.Check

/-!
# The catalog inside its transactions

`FileCatalog::Impl`: how a file is found under its path, its row is read, its companion is written
and read, and a file is registered. What reads the native files takes them as they stand while the
transaction holds.

Rows are read with the checks of the source on what they hold, and the exceptions are those of the
source. `registration` is the one transaction with three ways: the file is known under its path, or
under its native identity, or it is new.
-/

namespace FileProvider

open Bytes Fallible

/-- The random bytes of the keys a registration can make. -/
structure KeyDraws where
  fresh : Fin 16 → UInt8
  forked : Fin 16 → UInt8

namespace Catalog

variable (E : CatalogLibraries)

/-! ## Paths -/

def relativePath (text : Bytes) (empty : Bool) : Fallible Bytes := do
  let _ ← normalized E text 4096 false (!empty)
  if text = [] ∧ empty = true then pure text else do
    pathValid text
    pure text

/-- The path of the companion of a file. -/
def companionPath (path : Bytes) : Bytes := path ++ companionSuffix

def intact (fs : FileSystem) : Fallible Unit :=
  failIf (fs.intact = false) "catalog root or database was replaced"

/-- A directory on the way to a file. -/
def directoryValid (fs : FileSystem) (p : Bytes) : Fallible Unit :=
  failIf (fs.node p ≠ some .directory) "file path is missing or redirected"

/-- `path`, which makes no directories. -/
def path (fs : FileSystem) (relative : Bytes) : Fallible Bytes := do
  intact fs
  let value ← relativePath E relative false
  (ancestors value).forM (directoryValid fs)
  failIf (fs.node value = some .redirected) "file path is missing or redirected"
  pure value

/-- The way down of `present`: a part that is missing ends it. -/
def presentFrom (fs : FileSystem) (leaf : Bytes) : List Bytes → Fallible Bool
  | [] =>
      match fs.node leaf with
      | none => pure false
      | some (.file _ _) => pure true
      | some _ => .error "path is missing, redirected or not the expected file type"
  | p :: rest =>
      match fs.node p with
      | none => pure false
      | some .directory => presentFrom fs leaf rest
      | some _ => .error "path is missing, redirected or not the expected file type"

def present (fs : FileSystem) (relative : Bytes) : Fallible Bool := do
  intact fs
  let value ← relativePath E relative false
  presentFrom fs value (ancestors value)

/-- `inspect` of a regular file. -/
def inspect (fs : FileSystem) (place : Bytes) : Fallible Physical :=
  match fs.node place with
  | some (.file physical _) => pure physical
  | _ => .error "path is missing, redirected or not the expected file type"

/-! ## Companions on disk -/

def smallRead (fs : FileSystem) (place : Bytes) : Fallible Bytes :=
  match fs.node place with
  | some (.file physical content) => do
      failIf (maximumMetadataBytes < physical.size) "companion exceeds metadata limit"
      failIf (content.length ≠ physical.size) "cannot read stable metadata companion"
      pure content
  | _ => .error "path is missing, redirected or not the expected file type"

def companion (fs : FileSystem) (place : Bytes) : Fallible Companion := do
  companionOf E (← E.json.parseText (← smallRead fs place))

/-- The companion beside a file, where there is one. -/
def sidecar (fs : FileSystem) (relative : Bytes) : Fallible (Option Companion) :=
  match fs.node (companionPath relative) with
  | none => pure none
  | some _ => do pure (some (← companion E fs (companionPath relative)))

/-! ## Reading rows -/

def newKey (random : Fin 16 → UInt8) (kind : String) : Bytes := uniqueKey random (ascii kind)

/-- The directory of a path, with the separator behind it. -/
def directoryOf (path : Bytes) : Bytes := (path.reverse.dropWhile (· ≠ 47)).reverse

/-- `Stage`: the path under which a file is written before it is published. -/
def stagePath (path nonce : Bytes) : Bytes :=
  directoryOf path ++ (ascii ".iifile-stage-" ++ nonce)

def entry (db : CatalogTables) (r : FileRow) : Fallible CatalogFile := do
  let metadata ← parseMetadata E (← E.json.parseText r.metadata)
  pure ⟨r.key, r.id, r.revision, r.path, r.size, r.modified, r.stamp,
    { metadata with collections := db.memberships r.id }, db.pending.find r.id ≠ none⟩

def find (db : CatalogTables) (value : Bytes) (byPath : Bool) : Fallible (Option CatalogFile) :=
  match db.files.findBy (if byPath then FileRow.path else FileRow.key) value with
  | none => pure none
  | some r => do pure (some (← entry E db r))

def require (db : CatalogTables) (key : Bytes) : Fallible CatalogFile := do
  let found ← find E db (← normalized E key 128 false true) false
  orFail "file key is not registered" found

/-! ## Writing annotations -/

/-- A text that ends its line. -/
def line (s : Bytes) : Bytes := s ++ [10]

def annotations (db : CatalogTables) (id : Nat) (path : Bytes) (m : FileMetadata) :
    Fallible CatalogTables := do
  let text ← E.json.dump (metadataJson { m with collections := [] })
  let db ← db.updateAnnotation m text id
  let db ← m.keywords.foldlM
    (fun db term => do db.insertKeyword ⟨id, ← normalized E term 512 true false⟩)
    (db.removeAnnotation id)
  let db ← m.fields.entries.foldlM (fun db e => db.insertField ⟨id, e.1, e.2⟩) db
  let db ← m.collections.foldlM (fun db key => db.insertMember ⟨id, key⟩) db
  let db ← db.replaceSearch ⟨id, path, m.title, m.description, m.keywords.flatMap line,
    m.fields.entries.flatMap fun e => line e.1 ++ line e.2⟩
  db.queue [id]

/-! ## Documents -/

/-- The collections of a companion, those of its keys that are there. -/
def listedCollections (db : CatalogTables) (keys : List Bytes) : List FileCollection :=
  keys.filterMap fun key => (db.collections.find key).map fun c => ⟨key, c.name⟩

def collectionJson (c : FileCollection) : Json :=
  .object [(ascii "key", .str c.key), (ascii "name", .str c.name)]

def documentJson (db : CatalogTables) (f : CatalogFile) : Json :=
  .object
    [(ascii "format", .str companionFormat), (ascii "schema", .int 1),
      (ascii "fileKey", .str f.key), (ascii "path", .str f.path),
      (ascii "revision", .int f.revision), (ascii "metadata", metadataJson f.metadata),
      (ascii "collections",
        .arr ((listedCollections db f.metadata.collections).map collectionJson))]

def document (db : CatalogTables) (f : CatalogFile) : Fallible Bytes :=
  E.json.dump (documentJson db f)

/-- The document of a row, within the limit of a companion. -/
def limitedDocument (db : CatalogTables) (f : CatalogFile) (message : String) :
    Fallible Bytes := do
  let text ← document E db f
  failIf (maximumMetadataBytes < text.length) message
  pure text

/-! ## Publishing a companion -/

/-- A companion of another key can be replaced when it is the annotation of another registered
file, the same as that of this one and not newer than its own. -/
def forkedFrom (db : CatalogTables) (f : CatalogFile) (previous : Companion) : Bool :=
  match db.files.findBy FileRow.key previous.fileKey with
  | none => false
  | some source =>
      source.path ≠ f.path && previous.metadata = f.metadata
        && previous.revision ≤ source.revision

/-- The check of the companion that a publication replaces. -/
def replaceable (db : CatalogTables) (key : Bytes) (f : CatalogFile) (previous : Companion) :
    Fallible Unit :=
  if previous.fileKey ≠ key then
    failIf (forkedFrom db f previous = false)
      "metadata companion belongs to a different or newer file revision"
  else
    failIf (f.revision < previous.revision) "metadata companion belongs to a newer file revision"

/-- What `publish` finds to write, up to the replacement of the companion: the file and its
document, or nothing when the file is not pending. -/
def publication (fs : FileSystem) (db : CatalogTables) (key : Bytes) :
    Fallible (Option (CatalogFile × Bytes)) := do
  intact fs
  let f ← require E db key
  if f.metadataPending = false then pure none else do
    let place ← path E fs f.path
    let physical ← inspect fs place
    failIf (physical.version ≠ f.contentVersion)
      "file changed before companion publication; register it again"
    match ← sidecar E fs place with
    | none => pure ()
    | some previous => replaceable db key f previous
    let text ← limitedDocument E db f "companion exceeds byte limit"
    pure (some (f, text))

/-! ## Registration -/

/-- One collection of a companion in `restoreCollections`: a collection of its key or of its
folded name stands for it, or it is made. -/
def restoreCollection (state : CatalogTables × List (Bytes × Bytes)) (c : FileCollection) :
    Fallible (CatalogTables × List (Bytes × Bytes)) := do
  let folded ← normalized E c.name 512 true false
  match state.1.collectionOf c.key folded with
  | some key => pure (state.1, (c.key, key) :: state.2)
  | none => do
      failIf (4096 ≤ state.1.collections.rows.length) "collection count exceeds limit"
      let db ← state.1.insertCollection ⟨c.key, c.name, folded⟩
      pure (db, (c.key, c.key) :: state.2)

/-- The key that stands for a collection of a companion. -/
def remapped (remap : List (Bytes × Bytes)) (key : Bytes) : Fallible Bytes :=
  orFail "companion has unknown collection membership"
    ((remap.find? fun e => e.1 = key).map (·.2))

def restoreCollections (db : CatalogTables) (j : Companion) :
    Fallible (FileMetadata × CatalogTables) := do
  let (db, remap) ← j.collections.foldlM (restoreCollection E) (db, [])
  let collections ← j.metadata.collections.mapM (remapped remap)
  let metadata ← normalizeMetadata E { j.metadata with collections }
  pure (metadata, db)

/-- The file a registration finds: the one of the path, or else the one of the native identity,
when nothing stands under its path any more. -/
def registered (fs : FileSystem) (db : CatalogTables) (relative : Bytes) (physical : Physical) :
    Fallible (Option CatalogFile) := do
  match ← find E db relative true with
  | some f => pure (some f)
  | none =>
      match db.files.findBy FileRow.identity physical.identity with
      | none => pure none
      | some same => do
          failIf ((← present E fs same.path) = true)
            "managed hard-link aliases require separate files"
          pure (some (← require E db same.key))

/-- What a registration is going to write. -/
structure Proposal where
  key : Bytes
  revision : Nat
  metadata : FileMetadata
  tables : CatalogTables

/-- What a file that is registered takes over: the metadata it is given, or those of a companion
of its own that is not older, or what it has. -/
def refreshed (fs : FileSystem) (db : CatalogTables) (relative : Bytes) (f : CatalogFile)
    (explicit : Option FileMetadata) : Fallible Proposal := do
  match explicit with
  | some m => do
      let metadata ← normalizeMetadata E m
      pure ⟨f.key, f.revision + 1, metadata, db⟩
  | none =>
      match ← sidecar E fs relative with
      | none => pure ⟨f.key, f.revision + 1, f.metadata, db⟩
      | some j =>
          if j.fileKey = f.key ∧ f.revision ≤ j.revision then do
            let (metadata, db) ← restoreCollections E db j
            pure ⟨f.key, f.revision + 1, metadata, db⟩
          else pure ⟨f.key, f.revision + 1, f.metadata, db⟩

/-- What a file that is new takes over. The key of a companion that another file has is replaced
by a new one. -/
def adopted (fs : FileSystem) (db : CatalogTables) (relative : Bytes)
    (explicit : Option FileMetadata) (draws : KeyDraws) : Fallible Proposal := do
  match explicit with
  | some m => do
      let metadata ← normalizeMetadata E m
      pure ⟨newKey draws.fresh "file-", 1, metadata, db⟩
  | none =>
      match ← sidecar E fs relative with
      | none => pure ⟨newKey draws.fresh "file-", 1, .initial, db⟩
      | some j => do
          let (metadata, db) ← restoreCollections E db j
          if ((db.files.findBy FileRow.key j.fileKey).any fun owner => owner.path ≠ relative) = true
          then pure ⟨newKey draws.forked "file-", 1, metadata, db⟩
          else pure ⟨j.fileKey, max 1 j.revision, metadata, db⟩

/-- The end of a registration that changes something. -/
def described (db : CatalogTables) (id : Nat) (relative : Bytes) (p : Proposal) :
    Fallible (CatalogFile × Bool × CatalogTables) := do
  let db ← annotations E db id relative p.metadata
  let file ← require E db p.key
  let _ ← limitedDocument E db file "encoded companion exceeds byte limit"
  pure (file, true, db)

/-- `registration`, which also tells whether it changed something. -/
def registration (fs : FileSystem) (db : CatalogTables) (r : FileRegistration)
    (draws : KeyDraws) : Fallible (CatalogFile × Bool × CatalogTables) := do
  let relative ← relativePath E r.path false
  let physical ← inspect fs (← path E fs relative)
  match ← registered E fs db relative physical with
  | some f => do
      let p ← refreshed E fs db relative f r.metadata
      if f.path = relative ∧ f.contentVersion = physical.version ∧ f.metadata = p.metadata then
        pure (f, false, p.tables)
      else do
        let db ← p.tables.updateFile physical p.revision relative f.index
        described E db f.index relative p
  | none => do
      let p ← adopted E fs db relative r.metadata draws
      let (id, db) ← p.tables.insertFile physical p.revision p.key relative
      described E db id relative p

end Catalog

end FileProvider
