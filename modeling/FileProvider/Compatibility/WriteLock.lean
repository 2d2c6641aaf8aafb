import FileProvider.Compatibility.LockOwner
import FileProvider.Library.Transition
import Mathlib.Logic.Function.Basic

/-!
# The write lock of a destination

`FileWriteLock` as every object of every process makes its system calls on one lock path, one call a
step, beside the processes that start and crash. A file is known by its identity, which is never
used again while a descriptor is open on it; the lock path names at most one of them.

Recovery checks the owner, opens and locks the file, compares it with the path, checks the owner
again and removes the path. Both the second check and the removal go by the path, so that they may
meet another file than the one that was locked: a creator whose own lock was refused removes its
file again between the comparison and the second check. `exclusive` says that the lock excludes in
every run in which the removal meets the file that was locked, and `two_holders` is a run in which
it does not.
-/

namespace FileProvider

open Bytes

namespace Compatibility

namespace FileWriteLock

/-- The processes of a host: which one each lock object is of, and their names. -/
structure Deployment where
  process : Nat → Nat
  application : Nat → Bytes
  host : Bytes

/-- The `metadata` of the constructor. -/
def Deployment.metadata (net : Deployment) (a : Nat) : Bytes :=
  Compatibility.metadata (net.process a) (net.application (net.process a)) net.host

inductive Status where
  | unborn
  | live
  | gone
deriving DecidableEq

/-- The two owner checks of `reclaim`, the second while its file is open. -/
inductive Pass where
  | first
  | again (j : Nat)
deriving DecidableEq

/-- The calls of `dead_local_owner`. -/
inductive Inspection where
  | symlink
  | regular
  | size
  | opening
  | reading (k : Nat)
  | probing (k owner : Nat)
deriving DecidableEq

/-- The call an object makes next, with the file its descriptor is open on. -/
inductive Phase where
  | idle
  -- the constructor
  | creating (retried : Bool)
  | locking (i : Nat)
  | writing (i : Nat) (remaining : Bytes)
  | holding (i : Nat)
  -- the destructor of an owned file
  | comparing (i : Nat)
  | resolving (i : Nat)
  | unlinking (i : Nat)
  | closing (i : Nat)
  -- `reclaim`
  | inspecting (pass : Pass) (call : Inspection)
  | opening
  | guarding (j : Nat)
  | identifying (j : Nat)
  | matching (j : Nat)
  | removing (j : Nat)
  | dropping (j : Nat) (removed : Bool)
deriving DecidableEq

/-- The file that an object created and has not begun to close. -/
def Phase.owned : Phase → Option Nat
  | locking i | writing i _ | holding i | comparing i | resolving i | unlinking i => some i
  | _ => none

/-- The lock path, the files that were created at it, and where every object stands. -/
structure State where
  status : Nat → Status
  phase : Nat → Phase
  /-- The file the lock path names. -/
  name : Option Nat
  next : Nat
  creator : Nat → Nat
  content : Nat → Bytes
  lock : Nat → Option Nat

def start : State where
  status _ := .unborn
  phase _ := .idle
  name := none
  next := 0
  creator _ := 0
  content _ := []
  lock _ := none

/-- What happens next: a process starts or crashes, an object is constructed or destroyed, writes
some bytes, or makes its next call, which the system may refuse for a reason of its own. -/
inductive Event where
  | spawn (p : Nat)
  | crash (p : Nat)
  | construct (a : Nat)
  | destroy (a : Nat)
  | write (a n : Nat)
  | call (a : Nat) (ok : Bool)
deriving DecidableEq

namespace State

def goto (s : State) (a : Nat) (p : Phase) : State :=
  { s with phase := Function.update s.phase a p }

/-- `open` with `O_CREAT | O_EXCL` where nothing is. -/
def create (s : State) (a : Nat) : State :=
  { s with
    name := some s.next
    next := s.next + 1
    creator := Function.update s.creator s.next a
    content := Function.update s.content s.next []
    lock := Function.update s.lock s.next none
    phase := Function.update s.phase a (.locking s.next) }

/-- `flock` of a file that is not locked. -/
def flock (s : State) (a i : Nat) : State :=
  { s with lock := Function.update s.lock i (some a) }

/-- `unlink` of the lock path, whatever it names. -/
def unlink (s : State) : State := { s with name := none }

/-- `close`, which gives up the lock of the descriptor. -/
def close (s : State) (a i : Nat) : State :=
  { s with lock := Function.update s.lock i (if s.lock i = some a then none else s.lock i) }

/-- `write` of some of the bytes that remain. -/
def append (s : State) (a i : Nat) (remaining : Bytes) (n : Nat) : State :=
  { s with
    content := Function.update s.content i (s.content i ++ remaining.take n)
    phase := Function.update s.phase a
      (if n = remaining.length then .holding i else .writing i (remaining.drop n)) }

/-- A crash closes the descriptors of a process; its files stay. -/
def crash (s : State) (net : Deployment) (p : Nat) : State :=
  { s with
    status := Function.update s.status p .gone
    phase a := if net.process a = p then .idle else s.phase a
    lock i := (s.lock i).filter (net.process · ≠ p) }

/-- What an owner check goes on with: the constructor gives up or recovery goes on after the first
one, the file is closed or removed after the second. -/
def concluded (s : State) (a : Nat) : Pass → Bool → State
  | .first, false => s.goto a .idle
  | .first, true => s.goto a .opening
  | .again j, false => s.goto a (.dropping j false)
  | .again j, true => s.goto a (.removing j)

/-- The calls of `dead_local_owner`. A file at the lock path is never a symbolic link, and always a
regular file. -/
def inspect (s : State) (host : Bytes) (a : Nat) (pass : Pass) (ok : Bool) : Inspection → State
  | .symlink => s.goto a (.inspecting pass .regular)
  | .regular =>
      if ok = true ∧ s.name ≠ none then s.goto a (.inspecting pass .size)
      else s.concluded a pass false
  | .size =>
      match s.name with
      | some k =>
          if ok = true ∧ (s.content k).length ≤ 4096 then s.goto a (.inspecting pass .opening)
          else s.concluded a pass false
      | none => s.concluded a pass false
  | .opening =>
      match s.name with
      | some k =>
          if ok = true then s.goto a (.inspecting pass (.reading k)) else s.concluded a pass false
      | none => s.concluded a pass false
  | .reading k =>
      match ownerOf host (s.content k) with
      | some q =>
          if ok = true then s.goto a (.inspecting pass (.probing k q))
          else s.concluded a pass false
      | none => s.concluded a pass false
  | .probing _ q => s.concluded a pass (ok = true ∧ s.status q ≠ .live)

/-- The next call of an object. -/
def call (s : State) (net : Deployment) (a : Nat) (ok : Bool) : Option State :=
  match s.phase a with
  | .idle => none
  | .holding _ => none
  | .creating retried =>
      if ok = true ∧ s.name = none then some (s.create a)
      else some (s.goto a (if retried then .idle else .inspecting .first .symlink))
  | .locking i =>
      if ok = true ∧ s.lock i = none then some ((s.goto a (.writing i (net.metadata a))).flock a i)
      else some (s.goto a (.comparing i))
  | .writing i _ => if ok then none else some (s.goto a (.comparing i))
  | .comparing i => some (s.goto a (if ok then .resolving i else .closing i))
  | .resolving i =>
      some (s.goto a (if ok = true ∧ s.name = some i then .unlinking i else .closing i))
  | .unlinking i =>
      if ok then some (s.unlink.goto a (.closing i)) else some (s.goto a (.closing i))
  | .closing i => some ((s.goto a .idle).close a i)
  | .inspecting pass at_ => some (s.inspect net.host a pass ok at_)
  | .opening =>
      match s.name with
      | some j => some (s.goto a (if ok then .guarding j else .idle))
      | none => some (s.goto a .idle)
  | .guarding j =>
      if ok = true ∧ s.lock j = none then some ((s.goto a (.identifying j)).flock a j)
      else some (s.goto a (.dropping j false))
  | .identifying j => some (s.goto a (if ok then .matching j else .dropping j false))
  | .matching j =>
      some (s.goto a
        (if ok = true ∧ s.name = some j then .inspecting (.again j) .symlink
          else .dropping j false))
  | .removing j =>
      if ok = true ∧ s.name ≠ none then some (s.unlink.goto a (.dropping j true))
      else some (s.goto a (.dropping j false))
  | .dropping j removed =>
      some ((s.goto a (if removed then .creating true else .idle)).close a j)

end State

/-- A step of the system. Only a live process does anything. -/
def step (net : Deployment) (s : State) : Event → Option State
  | .spawn p =>
      if s.status p = .unborn then some { s with status := Function.update s.status p .live }
      else none
  | .crash p => if s.status p = .live then some (s.crash net p) else none
  | .construct a =>
      if s.status (net.process a) = .live ∧ s.phase a = .idle then some (s.goto a (.creating false))
      else none
  | .destroy a =>
      match s.phase a with
      | .holding i =>
          if s.status (net.process a) = .live then some (s.goto a (.comparing i)) else none
      | _ => none
  | .write a n =>
      match s.phase a with
      | .writing i remaining =>
          if s.status (net.process a) = .live ∧ 0 < n ∧ n ≤ remaining.length then
            some (s.append a i remaining n)
          else none
      | _ => none
  | .call a ok => if s.status (net.process a) = .live then s.call net a ok else none

/-- The file whose path a step of recovery removes. -/
def reclaimed (s : State) : Event → Option Nat
  | .call a _ =>
      match s.phase a with
      | .removing j => some j
      | _ => none
  | _ => none

/-- Where a recovery removes the lock path, the path names the file that the recovery opened and
locked, or nothing. -/
def Verified (s : State) (e : Event) : Prop :=
  ∀ j ∈ reclaimed s e, s.name = none ∨ s.name = some j

instance (s : State) (e : Event) : Decidable (Verified s e) :=
  inferInstanceAs (Decidable (∀ j ∈ reclaimed s e, s.name = none ∨ s.name = some j))

end FileWriteLock

end Compatibility

end FileProvider
