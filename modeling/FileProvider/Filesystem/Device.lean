import FileProvider.Library.Bytes
import FileProvider.Library.Program
import Mathlib.Logic.Function.Basic

/-!
# The device of a safe save

`Device` as `AtomicSave` uses it: on a temporary file it has created, for reading and writing,
without a stream. A call of the system that fails has changed nothing; which calls fail is given as
a list of answers, where a call that finds no answer for itself succeeds. The calls that the code
repeats after `EINTR` answer what their last attempt does.

The disk is a map from paths to what they name, and open files are known by their descriptors. An
exception carries the text of the source, with the path or the name of the call that failed.
-/

namespace FileProvider

open Bytes

namespace Filesystem

/-! ## Files -/

/-- An absolute path in its normal form. -/
structure FilePath where
  directory : Bytes
  filename : Bytes
deriving DecidableEq

/-- What a path names. -/
inductive Node where
  | absent
  | file (bytes : Bytes) (mode : Nat)
  | directory
  /-- A link, with or without a regular file behind it. -/
  | link (toFile : Bool)
deriving DecidableEq

/-- A regular file. -/
def Node.isFile : Node → Bool
  | file _ _ => true
  | _ => false

/-- A regular file, or a link to one. -/
def Node.leadsToFile : Node → Bool
  | file _ _ => true
  | link toFile => toFile
  | _ => false

abbrev Disk := FilePath → Node

def Disk.put (d : Disk) (p : FilePath) (n : Node) : Disk := fun q => if q = p then n else d q

@[simp] theorem Disk.put_self (d : Disk) (p : FilePath) (n : Node) : d.put p n p = n := if_pos rfl

/-- Putting a node under a path leaves the others. -/
theorem Disk.put_ne {d : Disk} {p q : FilePath} {n : Node} (h : q ≠ p) : d.put p n q = d q :=
  if_neg h

@[simp] theorem Disk.put_put (d : Disk) (p : FilePath) (n m : Node) :
    (d.put p n).put p m = d.put p m := by
  funext q
  unfold Disk.put
  split <;> rfl

inductive Platform where
  | windows
  | apple
  | linux
  /-- Any other system, which has no exclusive rename. -/
  | posix
deriving DecidableEq

/-! ## Errors -/

inductive Condition where
  | fileExists
  | notFound
  | other
deriving DecidableEq

/-- An error of the system. -/
structure SystemError where
  condition : Condition
  message : String
deriving DecidableEq

inductive FileCode where
  | ioFailure
  | limitExceeded
  | alreadyExists
  | conflict
  | invalidPath
deriving DecidableEq

/-- An exception: what failed, with the message of the system where it has one. `code` is that of a
`FileError`. -/
structure Exception where
  operation : String
  message : Option String
  code : Option FileCode
deriving DecidableEq

def Exception.what (e : Exception) : String :=
  match e.message with
  | none => e.operation
  | some message => e.operation ++ ": " ++ message

def fileError (message : String) (code : FileCode := .ioFailure) : Exception :=
  ⟨message, none, some code⟩

def ioError (operation : String) (e : SystemError) : Exception :=
  ⟨operation, some e.message,
    some (if e.condition = .fileExists then .alreadyExists else .ioFailure)⟩

/-- A `filesystem_error`, or what a `SourceAccess` throws. -/
def otherError (operation : String) (e : SystemError) : Exception :=
  ⟨operation, some e.message, none⟩

/-! ## Calls of the system -/

/-- The calls of the system. One that is made at places where its failure has different effects is
named after the place. -/
inductive Syscall where
  | status
  | statusCreated
  | sourceAccess
  | accessCreated
  | random
  | create
  | adopt
  | inspectCreated
  | close
  | write
  | seek
  | position
  | truncate
  | sync
  | readAttributes
  | setPermissions
  | parent
  | canonical
  | createLease
  | lockLease
  | cancelPending
  | createProbe
  | inspectProbe
  | removeProbe
  | closeProbe
  | stagePermissions
  | rename
  | renameExclusive
  | link
  | unlink
  | enqueue
  | remove
deriving DecidableEq

inductive Reply where
  | done
  | failed (e : SystemError)
  /-- At most so many bytes. -/
  | count (n : Nat)
  /-- Three draws. -/
  | bits (a b c : UInt32)
deriving DecidableEq

structure Answer where
  call : Syscall
  reply : Reply
deriving DecidableEq

/-- The reply to a call, and the answers left. -/
def answered (call : Syscall) : List Answer → Reply × List Answer
  | [] => (.done, [])
  | a :: rest => if a.call = call then (a.reply, rest) else (.done, a :: rest)

/-! ## The state of a save -/

/-- `Device::Impl`: whether there is a descriptor, and where it stands in its file. -/
structure Device where
  isOpen : Bool
  broken : Bool
  path : FilePath
  offset : Nat

/-- `AtomicSave::Impl`, and the disk. -/
structure Save where
  disk : Disk
  output : Device
  destination : Option FilePath
  stage : Option FilePath
  lease : Bool
  permissions : Option Nat
  cancelled : Bool
  committed : Bool

abbrev Call (β : Type) := Program Save Answer Exception β

/-- What a call comes to. -/
def settled {β : Type} (effect : Reply → Save → Except SystemError (β × Save)) (reply : Reply)
    (s : Save) : Except SystemError β × Save :=
  match reply with
  | .failed e => (.error e, s)
  | _ =>
      match effect reply s with
      | .ok (b, s') => (.ok b, s')
      | .error e => (.error e, s)

/-- A call of the system, with its error as a result. -/
def system {β : Type} (call : Syscall) (effect : Reply → Save → Except SystemError (β × Save)) :
    Call (Except SystemError β) := fun s l =>
  (.ok (settled effect (answered call l).1 s).1, (settled effect (answered call l).1 s).2,
    (answered call l).2)

/-- A call that changes nothing here. -/
def plain (call : Syscall) : Call (Except SystemError Unit) := system call fun _ s => .ok ((), s)

/-- A result, whose error is thrown. -/
def orThrow {β : Type} (exception : SystemError → Exception) : Except SystemError β → Call β
  | .ok b => pure b
  | .error e => Program.fail (exception e)

/-- `symlink_status`. -/
def status (call : Syscall) (p : FilePath) : Call (Except SystemError Node) :=
  system call fun _ s => .ok (s.disk p, s)

def isRegularFile (call : Syscall) (p : FilePath) : Call Bool := do
  let node ← orThrow (otherError "is_regular_file") (← status call p)
  pure node.leadsToFile

/-- The construction of a `SourceAccess`, of a file that is there. -/
def accessIf (call : Syscall) (there : Bool) : Call Unit :=
  if there then do orThrow (otherError "SourceAccess") (← plain call) else pure ()

def setDevice (f : Device → Device) : Call Unit :=
  Program.modify fun s => { s with output := f s.output }

/-- A failure that breaks the device. -/
def orBreak {β : Type} (operation : String) : Except SystemError β → Call β
  | .ok b => pure b
  | .error e => do
      setDevice fun d => { d with broken := true }
      Program.fail (ioError operation e)

def fileExists : SystemError := ⟨.fileExists, "File exists"⟩

def notFound : SystemError := ⟨.notFound, "No such file or directory"⟩

/-! ## Bytes of a file -/

/-- Some bytes written at an offset; what is missing before them is zero. -/
def splice (old : Bytes) (offset : Nat) (bytes : Bytes) : Bytes :=
  if bytes = [] then old
  else (old ++ List.replicate (offset - old.length) 0).take offset ++ bytes
    ++ old.drop (offset + bytes.length)

/-- A file cut or filled with zeros to a length. -/
def resized (old : Bytes) (count : Nat) : Bytes :=
  (old ++ List.replicate (count - old.length) 0).take count

/-- The bytes of the open file change, and the place of the descriptor. -/
def Save.store (s : Save) (f : Bytes → Nat → Bytes) (offset : Nat) : Save :=
  match s.disk s.output.path with
  | .file old mode =>
      { s with
        disk := s.disk.put s.output.path (.file (f old s.output.offset) mode)
        output := { s.output with offset } }
  | _ => s

/-! ## `Device` -/

/-- `Device::close`. -/
def close : Call Unit := do
  if (← Program.state).output.isOpen then do
    let closed ← plain .close
    setDevice fun d => { d with isOpen := false }
    orBreak "Close file" closed
  else pure ()

/-- The creation of a file that must not be there. -/
def create (call : Syscall) (p : FilePath) (mode : Nat) : Call (Except SystemError Unit) :=
  system call fun _ s =>
    match s.disk p with
    | .absent => .ok ((), { s with disk := s.disk.put p (.file [] mode) })
    | _ => .error fileExists

/-- The check of `CreateFileW`'s branch. -/
def refuseLink (platform : Platform) (name : FilePath) : Call Unit :=
  if platform = .windows then do
    let node ← orThrow (otherError "symlink_status") (← status .status name)
    match node with
    | .link _ => Program.fail (fileError "Refusing a file link" .invalidPath)
    | _ => pure ()
  else pure ()

/-- `_open_osfhandle`. -/
def adopt (platform : Platform) : Call Unit :=
  if platform = .windows then do orThrow (ioError "Adopt native file handle") (← plain .adopt)
  else pure ()

/-- `Device::Impl::opened`, and the access to a file that has been created. -/
def opened (name : FilePath) (known : Bool) : Call Unit := do
  orThrow (ioError "Inspect descriptor") (← plain .inspectCreated)
  setDevice fun d => { d with broken := false }
  if known then pure ()
  else do
    let there ← isRegularFile .statusCreated name
    accessIf .accessCreated there

/-- The end of `Device::open`. -/
def finishOpen : Except Exception Unit → Call Unit
  | .ok () => pure ()
  | .error e => do
      setDevice fun d => { d with broken := true }
      close
      Program.fail e

/-- `Device::open` with the options of a temporary file. -/
def openExclusive (platform : Platform) (name : FilePath) : Call Unit := do
  Program.failIf ((← Program.state).output.isOpen = true) (fileError "Device is already open")
  setDevice fun d => { d with path := name }
  let known ← isRegularFile .status name
  accessIf .sourceAccess known
  refuseLink platform name
  orThrow (ioError "Open file") (← create .create name 0o600)
  adopt platform
  setDevice fun d => { d with isOpen := true, offset := 0 }
  finishOpen (← Program.attempt (opened name known))

/-! Temporary names. -/

def hexDigit (n : Nat) : UInt8 := if n < 10 then (48 + n).toUInt8 else (87 + n).toUInt8

/-- The eight digits of a draw, the lowest first. -/
def digits (bits : UInt32) : Bytes :=
  (List.range 8).map fun j => hexDigit (bits.toNat / 16 ^ j % 16)

def suffix (a b c : UInt32) : Bytes := digits a ++ digits b ++ digits c

/-- `basic_string::rfind`. -/
def rfind (raw token : Bytes) : Option Nat :=
  (List.range (raw.length + 1 - token.length)).reverse.find? fun i => token.isPrefixOf (raw.drop i)

/-- A pattern with its last `XXXXXX` replaced, or a suffix of its own. -/
def temporaryName (pattern : FilePath) (suffix : Bytes) : FilePath :=
  let raw := pattern.filename
  match rfind raw (ascii "XXXXXX") with
  | some place => { pattern with filename := raw.take place ++ suffix ++ raw.drop (place + 6) }
  | none => { pattern with filename := raw ++ ascii "." ++ suffix }

/-- `std::random_device`. -/
def draw : Call Bytes := do
  let drawn ← system .random fun reply s =>
    match reply with
    | .bits a b c => .ok (suffix a b c, s)
    | _ => .error ⟨.other, "no entropy"⟩
  orThrow (otherError "random_device") drawn

/-- The attempts of `Device::openTemporary`. -/
def reserve (platform : Platform) (pattern : FilePath) : Nat → Call Unit
  | 0 => Program.fail (fileError "Cannot reserve a temporary file")
  | attempts + 1 => do
      let suffix ← draw
      match ← Program.attempt (openExclusive platform (temporaryName pattern suffix)) with
      | .ok () => pure ()
      | .error e =>
          if e.code = some .alreadyExists then reserve platform pattern attempts
          else Program.fail e

/-- `Device::openTemporary`. -/
def openTemporary (platform : Platform) (pattern : FilePath) : Call Unit := do
  Program.failIf ((← Program.state).output.isOpen = true) (fileError "Device is already open")
  reserve platform pattern 128

/-! Reading and writing. -/

/-- One call of `write`, which gives the number of bytes it has taken. -/
def writePart (bytes : Bytes) : Call (Except SystemError Nat) :=
  system .write fun reply s =>
    let part :=
      match reply with
      | .count n => bytes.take n
      | _ => bytes
    .ok (part.length,
      s.store (fun old offset => splice old offset part) (s.output.offset + part.length))

/-- The loop of `Device::write`. -/
def writeParts : Nat → Bytes → Call Unit
  | 0, _ => pure ()
  | fuel + 1, bytes =>
      if bytes = [] then pure ()
      else do
        let done ← orBreak "Write file" (← writePart (bytes.take (2 ^ 31 - 1)))
        if done = 0 then orBreak "Write file" (.error ⟨.other, "No space left on device"⟩)
        else writeParts fuel (bytes.drop done)

/-- `Device::write`. -/
def write (bytes : Bytes) : Call Nat := do
  if (← Program.state).output.isOpen then do
    writeParts bytes.length bytes
    pure bytes.length
  else do
    setDevice fun d => { d with broken := true }
    Program.fail (fileError "Invalid write")

/-- `Device::seek`. -/
def seek (offset : Int) : Call Bool := do
  if (← Program.state).output.isOpen = false ∨ offset < 0 then pure false
  else do
    orThrow (ioError "Seek file") (← system .seek fun _ s =>
      .ok ((), { s with output := { s.output with offset := offset.toNat } }))
    pure true

/-- `Device::pos`, of a device that is open. -/
def pos : Call Nat := do
  orThrow (ioError "File position") (← system .position fun _ s => .ok (s.output.offset, s))

/-- `Device::resize`. Its flush has nothing to do without a stream. -/
def resize (count : Int) : Call Bool := do
  if (← Program.state).output.isOpen = false ∨ count < 0 then pure false
  else do
    let before ← pos
    orBreak "Resize file" (← system .truncate fun _ s =>
      .ok ((), s.store (fun old _ => resized old count.toNat) s.output.offset))
    seek (min before count)

/-- `Device::flush`. -/
def flush (durable : Bool) : Call Unit := do
  Program.failIf ((← Program.state).output.isOpen = false) (fileError "Device is closed")
  if durable then do orBreak "Sync file" (← plain .sync) else pure ()

/-- What a file's mode becomes. -/
def Save.chmod (s : Save) (p : FilePath) (mode : Nat) : Save :=
  match s.disk p with
  | .file bytes _ => { s with disk := s.disk.put p (.file bytes mode) }
  | _ => s

/-- `Device::setPermissions`. -/
def setPermissions (platform : Platform) (perms : Nat) : Call Bool := do
  if (← Program.state).output.isOpen = false then pure false
  else if platform = .windows then do
    orThrow (fun _ => fileError "Read file attributes failed") (← plain .readAttributes)
    orThrow (fun _ => fileError "Write file attributes failed")
      (← system .setPermissions fun _ s => .ok ((), s.chmod s.output.path perms))
    pure true
  else do
    orThrow (ioError "Set permissions")
      (← system .setPermissions fun _ s => .ok ((), s.chmod s.output.path perms))
    pure true

end Filesystem

end FileProvider
