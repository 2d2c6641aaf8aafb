import FileProvider.Filesystem.Device
import FileProvider.Library.Transition

/-!
# `AtomicSave`

A file is saved by writing a stage next to it, which a commit publishes under the file's name:
`publishFile`, `moveFile` and the operations of `AtomicSave`, in runs of any operations on any
number of objects, one after another. `Staged` is what a caller knows of a save from its operations
and their results: it says what a save is for, and no step reads it.

The branches for a platform with an exclusive rename, for one without it, and for Windows are those
of the source; the answers of a `System` say which one is taken. The calls are programs over a list
of answers, so a run can fail at any call, and what is proved later is proved for all answers.
-/

namespace FileProvider

open Bytes

namespace Filesystem

/-- The system a program runs on. `checked` refuses what is no name of a file and resolves the rest
against the working directory. -/
structure System where
  platform : Platform
  umask : Nat
  checked : Bytes → Except Exception FilePath

/-! ## Publication -/

structure PublishResult where
  succeeded : Bool
  diagnosticSuffix : String
  message : String
deriving DecidableEq

def published : PublishResult := ⟨true, "", ""⟩

def unpublished (diagnosticSuffix message : String) : PublishResult :=
  ⟨false, diagnosticSuffix, message⟩

/-- A call that moves a file to a name, which `exclusive` says must not be there. -/
def move (call : Syscall) (source destination : FilePath) (exclusive : Bool) :
    Call (Except SystemError Unit) :=
  system call fun _ s =>
    match s.disk source, s.disk destination with
    | .absent, _ => .error notFound
    | node, .absent =>
        .ok ((), { s with disk := (s.disk.put destination node).put source .absent })
    | _, .directory => .error fileExists
    | node, _ =>
        if exclusive then .error fileExists
        else .ok ((), { s with disk := (s.disk.put destination node).put source .absent })

/-- `link`, of a name that must not be there. -/
def linkFile (source destination : FilePath) : Call (Except SystemError Unit) :=
  system .link fun _ s =>
    match s.disk source, s.disk destination with
    | .absent, _ => .error notFound
    | node, .absent => .ok ((), { s with disk := s.disk.put destination node })
    | _, _ => .error fileExists

/-- The removal of a name. -/
def unlinkFile (call : Syscall) (p : FilePath) : Call (Except SystemError Unit) :=
  system call fun _ s => .ok ((), { s with disk := s.disk.put p .absent })

/-- The last branch of `moveFile`. -/
def linkAndUnlink (source destination : FilePath) : Call (Except SystemError Unit) := do
  match ← linkFile source destination with
  | .ok () => unlinkFile .unlink source
  | .error e => pure (.error e)

def moveFile (platform : Platform) (source destination : FilePath) (overwrite : Bool) :
    Call (Except SystemError Unit) :=
  if platform = .windows ∨ overwrite then move .rename source destination (!overwrite)
  else if platform = .posix then linkAndUnlink source destination
  else move .renameExclusive source destination true

def permissionProbe (stage : FilePath) : FilePath :=
  { stage with filename := stage.filename ++ ascii ".permission-probe" }

def newPermissions (sys : System) (stage : FilePath) : Call Nat :=
  if sys.platform = .windows then pure 0o666
  else do
    let probe := permissionProbe stage
    orThrow (fun _ => fileError "Cannot reserve permission probe")
      (← create .createProbe probe (0o666 &&& (0o777 ^^^ sys.umask)))
    let status ← system .inspectProbe fun _ s =>
      match s.disk probe with
      | .file _ mode => .ok (mode &&& 0o777, s)
      | _ => .error notFound
    let removed ← unlinkFile .removeProbe probe
    let closed ← plain .closeProbe
    match status, removed, closed with
    | .ok mode, .ok (), .ok () => pure mode
    | _, _, _ => Program.fail (fileError "Cannot inspect/retire permission probe")

def publishMode (sys : System) (stage : FilePath) (target : Node) : Option Nat → Call Nat
  | some mode => pure mode
  | none =>
      match target with
      | .file _ mode => pure mode
      | _ => newPermissions sys stage

/-- `Presentation::cancelPending`, on Windows. -/
def cancelPending (platform : Platform) : Call Unit :=
  if platform = .windows then do
    orThrow (otherError "cancelPending") (← plain .cancelPending)
    orThrow (otherError "cancelPending") (← plain .cancelPending)
  else pure ()

/-- The end of `publishFile`, from the permissions on. The presentation that is asked for does not
count. -/
def finishPublish (platform : Platform) (stage destination : FilePath) (overwrite : Bool)
    (mode : Nat) : Call PublishResult := do
  match ← system .stagePermissions fun _ s => .ok ((), s.chmod stage mode) with
  | .error e => pure (unpublished "temporary_permissions_failed" e.message)
  | .ok () => do
      match ← moveFile platform stage destination overwrite with
      | .error e =>
          pure (unpublished
            (if e.condition = .fileExists then "already_exists" else "atomic_commit_failed")
            e.message)
      | .ok () => do
          let _ ← plain .enqueue
          pure published

/-- A name that can be published to: no link, no directory. -/
def Node.isReplaceable : Node → Bool
  | absent | file _ _ => true
  | _ => false

/-- The part of `publishFile` that knows what the destination is. -/
def publishTo (sys : System) (stage destination : FilePath) (overwrite : Bool)
    (permissions : Option Nat) (target : Node) : Call PublishResult :=
  if target.isReplaceable = false then
    pure (unpublished "invalid_path" "Destination must be a regular file, not a link or directory")
  else if overwrite = false ∧ target ≠ .absent then
    pure (unpublished "already_exists" "Destination already exists")
  else do
    cancelPending sys.platform
    accessIf .sourceAccess target.isFile
    let mode ← publishMode sys stage target permissions
    finishPublish sys.platform stage destination overwrite mode

/-- The `try` block of `publishFile`. -/
def tryPublish (sys : System) (stage destination : FilePath) (overwrite : Bool)
    (permissions : Option Nat) : Call PublishResult := do
  let source ← orThrow (otherError "symlink_status") (← status .status stage)
  if stage = destination ∨ source.isFile = false then
    pure (unpublished "invalid_source" "Publication requires a distinct regular staged file")
  else do
    match ← status .status destination with
    | .ok target => publishTo sys stage destination overwrite permissions target
    | .error e =>
        if e.condition = .notFound then
          publishTo sys stage destination overwrite permissions .absent
        else pure (unpublished "destination_status_failed" e.message)

/-- `publishFile`, of paths that are in their normal form. -/
def publishFile (sys : System) (stage destination : FilePath) (overwrite : Bool)
    (permissions : Option Nat) : Call PublishResult := do
  match ← Program.attempt (tryPublish sys stage destination overwrite permissions) with
  | .ok result => pure result
  | .error e => pure (unpublished "atomic_commit_failed" e.what)

/-! ## `AtomicSave` -/

/-- `AtomicSave::AtomicSave`. -/
def Save.constructed (disk : Disk) : Save where
  disk
  output := ⟨false, false, ⟨[], []⟩, 0⟩
  destination := none
  stage := none
  lease := false
  permissions := none
  cancelled := false
  committed := false

def removeStage : Option FilePath → Call Unit
  | none => pure ()
  | some stage => do
      let _ ← unlinkFile .remove stage
      Program.modify fun s => { s with stage := none }

/-- `AtomicSave::Impl::discard`. -/
def discard : Call Unit := do
  let _ ← Program.attempt close
  removeStage (← Program.state).stage
  Program.modify fun s => { s with lease := false }

/-- `path::extension`. -/
def extension (filename : Bytes) : Bytes :=
  if filename = ascii "." ∨ filename = ascii ".." then []
  else
    match rfind filename (ascii ".") with
    | none | some 0 => []
    | some place => filename.drop place

/-- The lock file of a directory's temporary files. -/
def sentinel (directory : Bytes) : FilePath := ⟨directory, ascii ".iisacc-temporary.lock"⟩

/-- The construction of a `TemporaryLease` in the directory itself. -/
def takeLease (directory : Bytes) : Call Unit := do
  orThrow (otherError "cannot open temporary lease sentinel") (← system .createLease fun _ s =>
    match s.disk (sentinel directory) with
    | .absent => .ok ((), { s with disk := s.disk.put (sentinel directory) (.file [] 0o600) })
    | .file [] _ => .ok ((), s)
    | _ => .error fileExists)
  orThrow (otherError "cannot acquire temporary lease") (← plain .lockLease)
  Program.modify fun s => { s with lease := true }

def alreadyOpen : Exception := fileError "Atomic output is already open"

def requireParent : Call Unit := do
  orThrow (fun e =>
      if e.condition = .notFound then
        fileError "Atomic output parent does not exist" .invalidPath
      else otherError "is_directory" e)
    (← plain .parent)

def requireReplaceable (destination : FilePath) : Call Unit := do
  let node ← orThrow (otherError "symlink_status") (← status .status destination)
  Program.failIf (node.isReplaceable = false)
    (fileError "Atomic output must be a regular file" .invalidPath)

/-- The temporary file that becomes the stage. -/
def openStage (platform : Platform) (destination : FilePath) : Call Unit := do
  openTemporary platform
    { destination with
      filename := ascii ".iifile-stage-XXXXXX" ++ extension destination.filename }
  Program.modify fun s => { s with stage := some s.output.path }

/-- A failure after which the stage is discarded. -/
def orDiscard : Except Exception Unit → Call Unit
  | .ok () => pure ()
  | .error e => do
      discard
      Program.fail e

/-- `AtomicSave::open` up to its lease. -/
def reachLease (sys : System) (name : Bytes) : Call FilePath := do
  Program.failIf ((← Program.state).output.isOpen = true) alreadyOpen
  discard
  let destination ← Program.lift (sys.checked name)
  Program.modify fun s =>
    { s with
      destination := some destination
      cancelled := false
      committed := false
      permissions := none }
  requireParent
  requireReplaceable destination
  orThrow (otherError "canonical") (← plain .canonical)
  pure destination

/-- `AtomicSave::open`. -/
def openSave (sys : System) (name : Bytes) : Call Unit := do
  let destination ← reachLease sys name
  takeLease destination.directory
  orDiscard (← Program.attempt (openStage sys.platform destination))

/-- `AtomicSave::cancel`. -/
def cancel : Call Unit := do
  Program.modify fun s => { s with cancelled := true }
  discard

/-- `AtomicSave::setPermissions`. -/
def setSavePermissions (platform : Platform) (value : Nat) : Call Bool := do
  if ← setPermissions platform value then do
    Program.modify fun s => { s with permissions := some value }
    pure true
  else pure false

/-- What `publishFile` makes of the paths of a save, which are empty before it is opened. -/
def publishStage (sys : System) (overwrite : Bool) (s : Save) : Call PublishResult :=
  match s.stage, s.destination with
  | some stage, some destination => publishFile sys stage destination overwrite s.permissions
  | _, _ =>
      pure (unpublished "atomic_commit_failed" "A local filename without NUL is required")

/-- What a commit does with the result of `publishFile`. -/
def concludeCommit (result : PublishResult) : Call PublishResult :=
  if result.succeeded then do
    Program.modify fun s => { s with committed := true, stage := none, lease := false }
    pure result
  else do
    discard
    pure result

/-- The `try` block of `AtomicSave::commit`. -/
def tryCommit (sys : System) (overwrite : Bool) : Call PublishResult := do
  flush true
  close
  let result ← publishStage sys overwrite (← Program.state)
  concludeCommit result

/-- `AtomicSave::commit`. -/
def commit (sys : System) (overwrite : Bool) : Call PublishResult := do
  let s ← Program.state
  if s.committed then
    pure (unpublished "already_published" "Atomic output was already published")
  else if s.cancelled ∨ s.output.isOpen = false ∨ s.output.broken then do
    discard
    pure (unpublished "cancelled_or_failed" "Atomic output was cancelled, closed or failed")
  else do
    match ← Program.attempt (tryCommit sys overwrite) with
    | .ok result => pure result
    | .error e => do
        discard
        pure (unpublished "write_failed" e.what)

/-! ## Runs -/

inductive Operation where
  | construct
  | open (name : Bytes)
  | write (bytes : Bytes)
  | seek (offset : Int)
  | resize (count : Int)
  | flush (durable : Bool)
  /-- Of the device. -/
  | close
  | setPermissions (value : Nat)
  | cancel
  | commit (overwrite : Bool)
  | destroy
deriving DecidableEq

inductive Value where
  | unit
  | flag (b : Bool)
  | size (n : Nat)
  | published (r : PublishResult)
deriving DecidableEq

abbrev Result := Except Exception Value

/-- A commit that has succeeded. -/
def Result.isPublished : Result → Bool
  | .ok (.published r) => r.succeeded
  | _ => false

def perform (sys : System) : Operation → Call Value
  | .construct => do Program.modify fun s => .constructed s.disk; pure .unit
  | .open name => do openSave sys name; pure .unit
  | .write bytes => do pure (.size (← write bytes))
  | .seek offset => do pure (.flag (← seek offset))
  | .resize count => do pure (.flag (← resize count))
  | .flush durable => do flush durable; pure .unit
  | .close => do close; pure .unit
  | .setPermissions value => do pure (.flag (← setSavePermissions sys.platform value))
  | .cancel => do cancel; pure .unit
  | .commit overwrite => do pure (.published (← commit sys overwrite))
  | .destroy => do discard; pure .unit

/-- A save as its caller knows it. -/
inductive Staged where
  /-- Nothing is being saved. -/
  | idle
  /-- The bytes staged for a destination since it was opened, the place of the next one, and
  whether a write or a flush has failed. -/
  | staging (destination : FilePath) (bytes : Bytes) (offset : Nat) (failed : Bool)
deriving DecidableEq

/-- What an operation that has returned, or thrown, makes of what is staged. A `resize` that fails
in its last step has resized. -/
def Staged.next (sys : System) : Staged → Operation → Result → Staged
  | _, .open name, .ok _ =>
      match sys.checked name with
      | .ok destination => .staging destination [] 0 false
      | .error _ => .idle
  | a, .open _, .error e => if e = alreadyOpen then a else .idle
  | _, .construct, _ | _, .close, _ | _, .cancel, _ | _, .commit _, _ | _, .destroy, _ => .idle
  | .staging d b o f, .write bytes, .ok _ => .staging d (splice b o bytes) (o + bytes.length) f
  | .staging d b o _, .write _, .error _
  | .staging d b o _, .flush _, .error _ => .staging d b o true
  | .staging d b _ f, .seek offset, .ok (.flag true) => .staging d b offset.toNat f
  | .staging d b o f, .resize count, .ok (.flag true) =>
      .staging d (resized b count.toNat) (min o count.toNat) f
  | .staging d b o f, .resize count, .error e =>
      if e.operation = "Seek file" then .staging d (resized b count.toNat) o f
      else if e.operation = "Resize file" then .staging d b o true
      else .staging d b o f
  | a, _, _ => a

/-- The disk, the object, the result of the last operation, and what is staged. -/
structure World where
  save : Save
  alive : Bool
  result : Result
  staged : Staged

def World.start (disk : Disk) : World := ⟨.constructed disk, false, .ok .unit, .idle⟩

structure Event where
  operation : Operation
  answers : List Answer

/-- An operation on the object, or the construction of the next one. -/
def World.step (sys : System) (w : World) (e : Event) : Option World :=
  if w.alive = decide (e.operation = .construct) then none
  else
    let (result, save, _) := perform sys e.operation w.save e.answers
    some ⟨save, decide (e.operation ≠ .destroy), result, w.staged.next sys e.operation result⟩

/-- A step of a run. -/
def Step (sys : System) (w : World) (e : Event) (w' : World) : Prop := w.step sys e = some w'

end Filesystem

end FileProvider
