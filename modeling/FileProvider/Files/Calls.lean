import FileProvider.Library.Bytes
import FileProvider.Library.Transition
import Mathlib.Logic.Function.Basic

/-!
# The calls of the file interface

`File::create`, `write`, `writeWith`, `update`, `remove`, `copy` and `publish` on one path, as any
number of calls of any processes take their steps: one access to the path or to its `QLockFile` a
step. Staged files have names of their own, so that a call is known by the bytes it staged. A fault
is what the system, an encoder or a source file can refuse at a step.

`started`, `compared` and `log` record the history for the theorems, no step reads them: how long
the log was when a call began and when it compared the file, and what every call did to the path.
-/

namespace FileProvider

open Bytes

namespace Files

/-- What the path names. -/
inductive Entry where
  | absent
  | file (bytes : Bytes)
  /-- A link or a directory. -/
  | other
deriving DecidableEq

inductive FileCode where
  | notFound
  | alreadyExists
  | invalidPath
  | limitExceeded
  | conflict
  | ioError
deriving DecidableEq

inductive Call where
  | create (bytes : Bytes)
  | write (bytes : Bytes)
  | writeWith
  | update (expected replacement : Bytes)
  | remove
  | copy (overwrite : Bool)
  | publish (overwrite : Bool)
deriving DecidableEq

inductive Outcome where
  | returned (result : Bool)
  | threw (code : FileCode)
  /-- The result of a publication that did not succeed. -/
  | rejected
deriving DecidableEq

/-- Whether a call replaces a file that exists. -/
def Call.overwrites : Call → Bool
  | create _ => false
  | copy overwrite | publish overwrite => overwrite
  | _ => true

/-- Whether a call takes the lock in `File::publish`, for its final move alone. -/
def Call.publishes : Call → Bool
  | create _ | copy false | publish _ => true
  | _ => false

/-- The bytes that a call stages: its own ones, or those of its encoder, its source or its caller.
-/
def Call.staged (given : Bytes) : Call → Bytes
  | create bytes | write bytes => bytes
  | update _ replacement => replacement
  | _ => given

/-- The next access of a running call. -/
inductive Place where
  /-- `openRead` of the source. -/
  | opening
  /-- `destination`, before the lock. -/
  | checking
  /-- The staged file of a publication. -/
  | staging
  /-- `QLockFile::tryLock`. -/
  | locking (stage : Bytes)
  /-- `destination`, with the lock. -/
  | rechecking
  /-- `openSource` of the file to compare. -/
  | reading
  /-- Reads the opened file, whose bytes no longer change, and compares them. -/
  | measuring (bytes : Bytes)
  /-- `SaveFile::open` and the encoder. -/
  | encoding
  /-- `symlink_status` in `publishFile`. -/
  | inspecting (stage : Bytes)
  /-- `moveFile`. -/
  | moving (stage : Bytes)
  /-- `FileDevice::exists`. -/
  | probing
  | unlinking
  /-- `removeCompanion`, once the file is removed. -/
  | retiring
  | unlocking (outcome : Outcome)
  /-- `FileDevice::exists`, for the code of a failed publication. -/
  | reporting
deriving DecidableEq

inductive Phase where
  | pending
  | running (call : Call) (place : Place)
  | finished (call : Call) (outcome : Outcome)
  | crashed (call : Call)
deriving DecidableEq

/-- What a call did to the path. -/
structure Effect where
  caller : Nat
  call : Call
  before : Entry
  after : Entry
deriving DecidableEq

/-- The path, its lock, and the history. -/
structure Shared where
  file : Entry
  lock : Option Nat
  log : List Effect
  started : Nat → Nat
  compared : Nat → Nat

structure State where
  shared : Shared
  phase : Nat → Phase

def start (file : Entry) : State :=
  ⟨⟨file, none, [], fun _ => 0, fun _ => 0⟩, fun _ => .pending⟩

/-- What happens next: a call begins, takes its next step, or its process crashes. -/
inductive Event where
  | start (k : Nat) (call : Call)
  | next (k : Nat) (fault : Option FileCode) (given : Bytes)
  | crash (k : Nat)
deriving DecidableEq

namespace Shared

/-- The call changes what the path names. -/
def write (s : Shared) (k : Nat) (c : Call) (entry : Entry) : Shared :=
  { s with file := entry, log := s.log ++ [⟨k, c, s.file, entry⟩] }

/-- The lock of a call is released. -/
def unlock (s : Shared) (k : Nat) : Shared :=
  { s with lock := if s.lock = some k then none else s.lock }

end Shared

/-- A call ends with a failure before it has the lock. -/
def Call.fail (c : Call) (code : FileCode) : Phase :=
  .finished c (match c with | .publish _ => .rejected | _ => .threw code)

/-- A call ends with a failure while it has the lock. -/
def Call.failLocked (c : Call) (code : FileCode) : Phase := .running c (.unlocking (.threw code))

/-- `publishFile` does not succeed. -/
def Call.unpublished (c : Call) : Phase :=
  .running c (.unlocking (if c.publishes then .rejected else .threw .ioError))

/-- `File::publish` does not succeed: `create` and `copy` go on to find out why. -/
def Call.refused (c : Call) : Phase :=
  match c with
  | .publish _ => .finished c .rejected
  | _ => .running c .reporting

/-- The codes of a reading that `update` takes for a change of the file. -/
def conflictOf : FileCode → FileCode
  | .limitExceeded | .notFound => .conflict
  | code => code

/-- The comparison of `update`. -/
def compare (s : Shared) (k : Nat) (c : Call) (fault : Option FileCode) (bytes : Bytes) :
    Shared × Phase :=
  match c with
  | .update expected replacement =>
      match fault with
      | some code => (s, c.failLocked (conflictOf code))
      | none =>
          if expected.length < bytes.length ∨ bytes ≠ expected then (s, c.failLocked .conflict)
          else
            ({ s with compared := Function.update s.compared k s.log.length },
              .running c (if expected = replacement then .unlocking (.returned true)
                else .encoding))
  -- no other call compares
  | _ => (s, c.failLocked .conflict)

/-- The next step of a running call. -/
def advance (s : Shared) (k : Nat) (c : Call) (fault : Option FileCode) (given : Bytes) :
    Place → Shared × Phase
  | .opening =>
      match fault with
      | some code => (s, c.fail code)
      | none => (s, .running c .checking)
  | .checking =>
      match fault with
      | some code => (s, c.fail code)
      | none =>
          if s.file = .other then (s, c.fail .invalidPath)
          else (s, .running c (if c.publishes then .staging else .locking []))
  | .staging =>
      match fault with
      | some code => (s, c.fail code)
      | none => (s, .running c (.locking (c.staged given)))
  | .locking stage =>
      if fault = none ∧ s.lock = none then
        ({ s with lock := some k },
          .running c (if c.publishes then .inspecting stage else .rechecking))
      else if c.publishes then (s, c.refused)
      else (s, c.fail (if s.lock = none then fault.getD .ioError else .conflict))
  | .rechecking =>
      match fault with
      | some code => (s, c.failLocked code)
      | none =>
          if s.file = .other then (s, c.failLocked .invalidPath)
          else
            match c with
            | .update _ _ => (s, .running c .reading)
            | .remove => (s, .running c .probing)
            | _ => (s, .running c .encoding)
  | .reading =>
      match fault, s.file with
      | some code, _ => (s, c.failLocked (conflictOf code))
      | none, .absent => (s, c.failLocked .conflict)
      | none, .other => (s, c.failLocked .invalidPath)
      | none, .file bytes => (s, .running c (.measuring bytes))
  | .measuring bytes => compare s k c fault bytes
  | .encoding =>
      match fault with
      | some code => (s, c.failLocked code)
      | none => (s, .running c (.inspecting (c.staged given)))
  | .inspecting stage =>
      if fault = none ∧ s.file ≠ .other ∧ (c.overwrites = true ∨ s.file = .absent) then
        (s, .running c (.moving stage))
      else (s, c.unpublished)
  | .moving stage =>
      if fault = none ∧ s.file ≠ .other ∧ (c.overwrites = true ∨ s.file = .absent) then
        (s.write k c (.file stage), .running c (.unlocking (.returned true)))
      else (s, c.unpublished)
  | .probing =>
      if fault ≠ none ∨ s.file = .absent then (s, .running c (.unlocking (.returned false)))
      else (s, .running c .unlinking)
  | .unlinking =>
      match fault, s.file with
      | none, .file _ => (s.write k c .absent, .running c .retiring)
      | _, _ => (s, c.failLocked .ioError)
  | .retiring =>
      (s, .running c (.unlocking (if fault = none then .returned true else .threw .ioError)))
  | .unlocking .rejected => (s.unlock k, c.refused)
  | .unlocking outcome => (s.unlock k, .finished c outcome)
  | .reporting =>
      (s, .finished c (.threw (if fault ≠ none ∨ s.file = .absent then .ioError
        else .alreadyExists)))

/-- The first access of a call. -/
def Call.first : Call → Place
  | copy _ => .opening
  | publish _ => .staging
  | _ => .checking

/-- A step of the system. -/
def step (s : State) : Event → Option State
  | .start k c =>
      match s.phase k with
      | .pending =>
          some ⟨{ s.shared with
              started := Function.update s.shared.started k s.shared.log.length },
            Function.update s.phase k (.running c c.first)⟩
      | _ => none
  | .next k fault given =>
      match s.phase k with
      | .running c place =>
          let r := advance s.shared k c fault given place
          some ⟨r.1, Function.update s.phase k r.2⟩
      | _ => none
  | .crash k =>
      match s.phase k with
      | .running c _ => some ⟨s.shared.unlock k, Function.update s.phase k (.crashed c)⟩
      | _ => none

end Files

end FileProvider
