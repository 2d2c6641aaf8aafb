import FileProvider.Catalog.Revisions
import FileProvider.Object.SnapshotCalls

/-!
# Ranges of files

`FileCatalog::read` provides a range of a registered file. Its calls go one after the other, and
between any two of them others may write files, put other files under their paths, and change the
catalog. So `call` is one call of it, and `next` runs any number of readers beside those others.
A range is whole when the file has the version at the end which it had at the beginning.

The world has inodes with versions and a function from paths to what stands there; `Evolves` is all
that others may do. Each system call of a reader sees the world as it is at that moment, so every
interleaving is a run of `next`.
-/

namespace FileProvider

open Bytes Fallible

/-- A range of a file. -/
structure FileChunk where
  bytes : Bytes
  offset : Nat
  size : Nat
  contentVersion : Bytes
  eof : Bool
deriving DecidableEq

namespace SourceHost

variable (host : SourceHost)

/-- The identity that `inspect` tells of a file. -/
def identityText (i : Nat) : Bytes := decimal (host.device i) ++ 58 :: decimal (host.inode i)

/-- The version that `inspect` tells of a file: its identity, its size and its times. -/
def versionText (i v : Nat) : Bytes :=
  host.identityText i ++ ((ObjectSource.fields (host.stat i v)).drop 2).flatMap (58 :: ·)

/-- What `inspect` tells of a file. -/
def physical (i v : Nat) : Physical where
  identity := host.identityText i
  version := host.versionText i v
  size := (host.content i v).length
  modified := (host.modified i v).seconds * 1000000000 + (host.modified i v).nanoseconds

end SourceHost

namespace Catalog

def maximumChunk : Nat := 1024 * 1024

namespace Provision

/-! ## Files that others change -/

/-- What a path leads to: a link may lead on to a file. -/
inductive Place where
  | file (i : Nat)
  | directory
  | link (target : Option Nat)
  | special
deriving DecidableEq

/-- The file that is opened under a path. -/
def Place.opened? : Place → Option Nat
  | .file i => some i
  | .link target => target
  | .directory | .special => none

/-- A catalog and the files of its host: what their paths lead to, and the version each is in. -/
structure World where
  intact : Bool
  tables : CatalogTables
  place : Bytes → Option Place
  version : Nat → Nat

/-- What stands under a path. -/
def World.node (host : SourceHost) (w : World) : Place → Node
  | .file i => .file (host.physical i (w.version i)) (host.content i (w.version i))
  | .directory => .directory
  | .link _ => .redirected
  | .special => .special

/-- The files as a catalog finds them. -/
def World.fs (host : SourceHost) (w : World) : FileSystem where
  intact := w.intact
  node p := (w.place p).map (w.node host)

/-- What others may do. Rows keep their number and their key. A file that is written comes to a
version it has not been in, and so does a file that a path leads to no more: its links have
changed. -/
structure World.Evolves (w w' : World) : Prop where
  rows : ∀ r ∈ w.tables.files, ∃ r' ∈ w'.tables.files, r'.id = r.id ∧ r'.key = r.key
  versions : ∀ i, w.version i ≤ w'.version i
  places : ∀ p i, w.place p = some (.file i) → w'.version i = w.version i →
    w'.place p = some (.file i)

/-! ## One call after the other -/

/-- The arguments of `read`. -/
structure Request where
  key : Bytes
  offset : Nat
  maximumBytes : Nat
  expected : Bytes
deriving DecidableEq

/-- The call that a reader makes next. -/
inductive Phase where
  | entering
  | locating (record : CatalogFile)
  | inspecting (id : Nat) (place : Bytes)
  | comparing (id : Nat) (place : Bytes) (before : Physical)
  | opening (place : Bytes) (before : Physical)
  | reading (place : Bytes) (before : Physical) (i : Nat) (bytes : Bytes)
  | rechecking (place : Bytes) (before : Physical) (bytes : Bytes)

/-- How many bytes a range has. -/
def Request.count (r : Request) (before : Physical) : Nat :=
  min r.maximumBytes (before.size - r.offset)

/-- One read of the open file: what it gives of the bytes that are asked for. At the end of the file
it gives none. -/
def piece (content : Bytes) (offset asked given : Nat) : Bytes :=
  (content.drop offset).take (min asked (max 1 given))

/-- The next call of a reader, and what it goes on with or returns. -/
def call (E : CatalogLibraries) (host : SourceHost) (r : Request) (given : Nat) (w : World) :
    Phase → Fallible (Phase ⊕ FileChunk)
  | .entering => do
      failIf (r.maximumBytes = 0 ∨ maximumChunk < r.maximumBytes)
        "file provision exceeds chunk limit"
      intact (w.fs host)
      let record ← require E w.tables r.key
      pure (.inl (.locating record))
  | .locating record => do
      let place ← path E (w.fs host) record.path
      pure (.inl (.inspecting record.index place))
  | .inspecting id place => do
      let before ← inspect (w.fs host) place
      pure (.inl (.comparing id place before))
  | .comparing id place before => do
      failIf ((w.tables.files.find id).map FileRow.identity ≠ some before.identity)
        "file identity changed; register it again"
      failIf ((r.expected ≠ [] ∧ r.expected ≠ before.version) ∨ before.size < r.offset ∨
          int64Max < r.offset) "file content version or range conflict"
      pure (.inl (.opening place before))
  | .opening place before => do
      let i ← orFail "cannot provide stable file range" ((w.place place).bind Place.opened?)
      pure (.inl (.reading place before i []))
  | .reading place before i bytes =>
      if bytes.length = r.count before then pure (.inl (.rechecking place before bytes)) else do
        let more := piece (host.content i (w.version i)) (r.offset + bytes.length)
          (r.count before - bytes.length) given
        failIf (more = []) "cannot provide stable file range"
        pure (.inl (.reading place before i (bytes ++ more)))
  | .rechecking place before bytes => do
      let after ← inspect (w.fs host) place
      failIf (after.version ≠ before.version) "file changed during provision"
      pure (.inr ⟨bytes, r.offset, before.size, before.version,
        r.offset + bytes.length = before.size⟩)

/-! ## Readers beside others -/

/-- The world, and what each reader is about to do. -/
structure State where
  world : World
  reader : Nat → Option (Request × Phase)

inductive Event where
  | begin (k : Nat) (r : Request)
  | act (k given : Nat)
  | provide (k : Nat) (r : Request) (chunk : FileChunk)
  | refuse (k : Nat)
  | change (w : World)

def start (w : World) : State := ⟨w, fun _ => none⟩

/-- A reader goes on. -/
def State.set (s : State) (k : Nat) (p : Option (Request × Phase)) : State :=
  { s with reader := fun j => if j = k then p else s.reader j }

/-- The next call of a reader, for how many bytes it is given. -/
def State.call (E : CatalogLibraries) (host : SourceHost) (s : State) (k given : Nat) :
    Option (Request × Fallible (Phase ⊕ FileChunk)) :=
  (s.reader k).map fun p => (p.1, Provision.call E host p.1 given s.world p.2)

/-- What an event leads to, when it can happen. -/
def next (E : CatalogLibraries) (host : SourceHost) (s : State) : Event → Option State
  | .begin k r => if (s.reader k).isNone then some (s.set k (some (r, .entering))) else none
  | .act k given =>
      match s.call E host k given with
      | some (r, .ok (.inl p)) => some (s.set k (some (r, p)))
      | _ => none
  | .provide k r chunk =>
      match s.call E host k 0 with
      | some (r', .ok (.inr chunk')) =>
          if r' = r ∧ chunk' = chunk then some (s.set k none) else none
      | _ => none
  | .refuse k =>
      match s.call E host k 0 with
      | some (_, .error _) => some (s.set k none)
      | _ => none
  | .change w => some { s with world := w }

/-- A step in which others do only what they may. -/
def Step (E : CatalogLibraries) (host : SourceHost) (s : State) (e : Event) (t : State) : Prop :=
  next E host s e = some t ∧ ∀ w, e = .change w → s.world.Evolves w

end Provision

end Catalog

end FileProvider
