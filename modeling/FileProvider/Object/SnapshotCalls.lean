import FileProvider.Library.Transition
import FileProvider.Object.Packager
import Mathlib.Logic.Function.Basic

/-!
# Snapshots while their sources change

`ObjectSnapshotBatch` as its workers make their calls, one call a step, beside the cancellation and
beside others who write the sources, replace them and take them away. A worker claims a request,
inspects its source and constructs an `ObjectSource`: it opens the source, keeps the identity the
descriptor has, copies what it reads, and asks for the identity again, of the descriptor and of the
path.

A file has one content after the other, its versions; its identity tells the time of its last
change.
-/

namespace FileProvider

open Bytes Fallible

@[ext]
structure FileTime where
  seconds : Int
  nanoseconds : Int
deriving DecidableEq

/-- What `fstat` tells of a file. -/
structure FileStat where
  regular : Bool
  device : Nat
  inode : Nat
  size : Int
  modified : FileTime
  changed : FileTime
deriving DecidableEq

namespace ObjectSource

/-- The fields of a stamp, each after a colon. -/
def fields (file : FileStat) : List Bytes :=
  [decimal file.device, decimal file.inode, decimalInt file.size,
    decimalInt file.modified.seconds, decimalInt file.modified.nanoseconds,
    decimalInt file.changed.seconds, decimalInt file.changed.nanoseconds]

def statText (file : FileStat) (path : Bytes) : Bytes :=
  path ++ (fields file).flatMap (58 :: ·)

def statIdentity (hash : Bytes → Bytes) (file : FileStat) (path : Bytes) :
    Fallible ObjectSourceIdentity := do
  failIf (file.regular = false ∨ file.size < 0) "invalid object source handle"
  pure ⟨hash (statText file path), file.size.toNat⟩

/-- The size of the copy buffer. -/
def bufferSize (size : Nat) : Nat := max 1 (min size (1024 * 1024))

end ObjectSource

/-- The files of the host, with the contents they have one after the other. -/
structure SourceHost where
  hash : Bytes → Bytes
  regular : Nat → Bool
  device : Nat → Nat
  inode : Nat → Nat
  content : Nat → Nat → Bytes
  modified : Nat → Nat → FileTime
  changed : Nat → Nat → FileTime

namespace SourceHost

/-- What is told of a file in a version. -/
def stat (host : SourceHost) (i v : Nat) : FileStat where
  regular := host.regular i
  device := host.device i
  inode := host.inode i
  size := (host.content i v).length
  modified := host.modified i v
  changed := host.changed i v

def identity (host : SourceHost) (path : Bytes) (i v : Nat) : Fallible ObjectSourceIdentity :=
  ObjectSource.statIdentity host.hash (host.stat i v) path

end SourceHost

namespace ObjectSnapshotBatch

structure Request where
  source : Bytes
  identity : ObjectSourceIdentity

/-- The requests of a batch, and how many workers there are for them. -/
structure Batch where
  request : Nat → Request
  count : Nat
  workers : Nat

/-- The call that the constructor of an `ObjectSource` makes next: `i` is the file its descriptor is
open on, `copied` how far it has read. -/
inductive Construction where
  | entering
  | opening
  | identifying (i : Nat)
  | leasing (i : Nat) (original : ObjectSourceIdentity)
  | creating (i : Nat) (original : ObjectSourceIdentity)
  -- the copy
  | polling (i : Nat) (original : ObjectSourceIdentity) (copied : Nat)
  | reading (i : Nat) (original : ObjectSourceIdentity) (copied : Nat)
  | writing (i : Nat) (original : ObjectSourceIdentity) (copied : Nat) (rest : Bytes)
  | sealing (i : Nat) (original : ObjectSourceIdentity)
  | stopping (i : Nat) (original : ObjectSourceIdentity)
  -- the source has not changed
  | rechecking (i : Nat) (original : ObjectSourceIdentity)
  | revisiting (i : Nat) (original : ObjectSourceIdentity)
  | measuring (i : Nat) (original : ObjectSourceIdentity)
deriving DecidableEq

/-- The file that is open. -/
def Construction.descriptor : Construction → Option Nat
  | .entering | .opening => none
  | .identifying i | .leasing i _ | .creating i _ | .polling i _ _ | .reading i _ _
  | .writing i _ _ _ | .sealing i _ | .stopping i _ | .rechecking i _ | .revisiting i _
  | .measuring i _ => some i

/-- What a worker does next. -/
inductive Phase where
  | loading
  | claiming
  | polling (k : Nat)
  | inspecting (k : Nat)
  | building (k : Nat) (c : Construction)
  | comparing (k : Nat) (original : ObjectSourceIdentity)
  | finished
deriving DecidableEq

/-- The request a worker is on. -/
def Phase.index : Phase → Option Nat
  | .loading | .claiming | .finished => none
  | .polling k | .inspecting k | .building k _ | .comparing k _ => some k

def Phase.descriptor : Phase → Option Nat
  | .building _ c => c.descriptor
  | _ => none

structure State where
  version : Nat → Nat
  /-- The file that the source of a request names. -/
  path : Nat → Option Nat
  stopped : Bool
  worker : Nat → Phase
  cursor : Nat
  failed : Bool
  /-- The copies in the staging directory. -/
  payload : Nat → Bytes
  sources : Nat → Option ObjectSourceIdentity
  errors : Nat → Option String

/-- How the system answers a call: it did it, with a length the caller may make use of, or it did
not. -/
inductive Answer where
  | done (n : Nat)
  | interrupted
  | refused
deriving DecidableEq

/-- What happens next: others change files and paths, the cancellation is requested, or a worker
goes on. -/
inductive Event where
  | others (version : Nat → Nat) (path : Nat → Option Nat)
  | stop
  | call (w : Nat) (answer : Answer)

/-- Nothing is claimed; no source is there yet. -/
def start (batch : Batch) : State where
  version _ := 0
  path _ := none
  stopped := false
  worker w := if w < batch.workers then .loading else .finished
  cursor := 0
  failed := false
  payload _ := []
  sources _ := none
  errors _ := none

namespace State

def goto (s : State) (w : Nat) (p : Phase) : State :=
  { s with worker := Function.update s.worker w p }

def store (s : State) (k : Nat) (payload : Bytes) : State :=
  { s with payload := Function.update s.payload k payload }

/-- What a worker does with an exception. -/
def fail (s : State) (w k : Nat) (message : String) : State :=
  { s with
    errors := Function.update s.errors k (some message)
    failed := true
    worker := Function.update s.worker w .loading }

/-- `fetch_add` of the cursor. -/
def claim (s : State) (w count : Nat) : State :=
  { s with
    cursor := s.cursor + 1
    worker := Function.update s.worker w
      (if count ≤ s.cursor then .finished else .polling s.cursor) }

def publish (s : State) (w k : Nat) (original : ObjectSourceIdentity) : State :=
  { s with
    sources := Function.update s.sources k (some original)
    worker := Function.update s.worker w .loading }

/-- `read` into the buffer. At the end of the file nothing is read. -/
def read (s : State) (host : SourceHost) (w k i : Nat) (original : ObjectSourceIdentity)
    (copied n : Nat) : State :=
  let available := (host.content i (s.version i)).drop copied
  let taken := available.take (max 1 (min n (ObjectSource.bufferSize original.size)))
  if available = [] then s.goto w (.building k (.sealing i original))
  else if original.size - copied < taken.length then
    s.fail w k "source grew while capturing object snapshot"
  else s.goto w (.building k (.writing i original (copied + taken.length) taken))

/-- `write` of some of the bytes that remain. -/
def write (s : State) (w k i : Nat) (original : ObjectSourceIdentity) (copied : Nat) (rest : Bytes)
    (n : Nat) : State :=
  let written := max 1 n
  (s.store k (s.payload k ++ rest.take written)).goto w
    (.building k
      (if rest.drop written = [] then .polling i original copied
        else .writing i original copied (rest.drop written)))

/-- Whether a file still has the identity that was kept. -/
def matching (s : State) (host : SourceHost) (batch : Batch) (w k i : Nat)
    (original : ObjectSourceIdentity) (message : String) (next : Phase) : State :=
  match host.identity (batch.request k).source i (s.version i) with
  | .error message => s.fail w k message
  | .ok identity => if identity ≠ original then s.fail w k message else s.goto w next

/-- The next call of the constructor of an `ObjectSource`. -/
def build (s : State) (host : SourceHost) (batch : Batch) (w k : Nat) (answer : Answer) :
    Construction → State
  | .entering =>
      if s.stopped then s.fail w k "object snapshot cancelled" else s.goto w (.building k .opening)
  | .opening =>
      match s.path k, answer with
      | some i, .done _ => s.goto w (.building k (.identifying i))
      | _, _ => s.fail w k "cannot open direct object source"
  | .identifying i =>
      match answer with
      | .done _ =>
          s.matching host batch w k i (batch.request k).identity
            "source changed before snapshot; rescan required"
            (.building k (.leasing i (batch.request k).identity))
      | _ => s.fail w k "cannot inspect object source handle"
  | .leasing i original =>
      match answer with
      | .done _ => s.goto w (.building k (.creating i original))
      | _ => s.fail w k "cannot create unique snapshot directory"
  | .creating i original =>
      match answer with
      | .done _ => (s.store k []).goto w (.building k (.polling i original 0))
      | _ => s.fail w k "cannot create snapshot payload"
  | .polling i original copied =>
      if s.stopped then s.fail w k "object snapshot cancelled"
      else s.goto w (.building k (.reading i original copied))
  | .reading i original copied =>
      match answer with
      | .done n => s.read host w k i original copied n
      | .interrupted => s.goto w (.building k (.polling i original copied))
      | .refused => s.fail w k "cannot read snapshot source"
  | .writing i original copied rest =>
      match answer with
      | .done n => s.write w k i original copied rest n
      | .interrupted => s
      | .refused => s.fail w k "cannot write source snapshot"
  | .sealing i original =>
      match answer with
      | .done _ => s.goto w (.building k (.stopping i original))
      | _ => s.fail w k "cannot set permissions"
  | .stopping i original =>
      if s.stopped then s.fail w k "object snapshot cancelled"
      else s.goto w (.building k (.rechecking i original))
  | .rechecking i original =>
      match answer with
      | .done _ =>
          s.matching host batch w k i original "source changed while capturing object snapshot"
            (.building k (.revisiting i original))
      | _ => s.fail w k "cannot inspect object source handle"
  | .revisiting i original =>
      match s.path k, answer with
      | some j, .done _ =>
          s.matching host batch w k j original "source changed while capturing object snapshot"
            (.building k (.measuring i original))
      | _, _ => s.fail w k "cannot inspect object source metadata"
  | .measuring _ original =>
      match answer with
      | .done _ =>
          if (s.payload k).length ≠ original.size then
            s.fail w k "source changed while capturing object snapshot"
          else s.goto w (.comparing k original)
      | _ => s.fail w k "cannot get file size"

/-- What a worker does next. -/
def call (s : State) (host : SourceHost) (batch : Batch) (w : Nat) (answer : Answer) :
    Option State :=
  match s.worker w with
  | .finished => none
  | .loading => some (s.goto w (if s.failed then .finished else .claiming))
  | .claiming => some (s.claim w batch.count)
  | .polling k =>
      some (if s.stopped then s.fail w k "object snapshot cancelled" else s.goto w (.inspecting k))
  | .inspecting k =>
      match s.path k, answer with
      | some i, .done _ =>
          some (s.matching host batch w k i (batch.request k).identity
            "source changed before snapshot; rescan required" (.building k .entering))
      | _, _ => some (s.fail w k "cannot inspect object source metadata")
  | .building k c => some (s.build host batch w k answer c)
  | .comparing k original =>
      some (if original ≠ (batch.request k).identity then
        s.fail w k "source changed before snapshot; rescan required"
        else s.publish w k original)

/-- A file that is named or open. -/
def Exists (s : State) (i : Nat) : Prop :=
  (∃ k, s.path k = some i) ∨ ∃ w, (s.worker w).descriptor = some i

/-- No two files that exist have the same device and inode. -/
def Distinct (host : SourceHost) (s : State) : Prop :=
  ∀ i j, s.Exists i → s.Exists j → host.device i = host.device j → host.inode i = host.inode j →
    i = j

/-- What the constructor does once its workers are joined. -/
def result (s : State) (batch : Batch) : Fallible Unit := do
  (List.range batch.count).forM fun k =>
    match s.errors k with
    | some message => .error message
    | none => .ok ()
  failIf (s.stopped = true) "object snapshot cancelled"

def Joined (s : State) (batch : Batch) : Prop := ∀ w < batch.workers, s.worker w = .finished

instance (s : State) (batch : Batch) : Decidable (s.Joined batch) :=
  inferInstanceAs (Decidable (∀ w < batch.workers, _))

end State

def step (host : SourceHost) (batch : Batch) (s : State) : Event → Option State
  | .others version path => some { s with version := version, path := path }
  | .stop => some { s with stopped := true }
  | .call w answer => s.call host batch w answer

/-- A step in which no file goes back to an earlier version, and no device and inode are given to
two files that exist. -/
def HonestStep (host : SourceHost) (batch : Batch) (s : State) (e : Event) (t : State) : Prop :=
  step host batch s e = some t ∧
    match e with
    | .others _ _ => (∀ i, s.version i ≤ t.version i) ∧ t.Distinct host
    | _ => True

end ObjectSnapshotBatch

end FileProvider
