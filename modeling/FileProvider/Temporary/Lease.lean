import FileProvider.Catalog.Paths
import FileProvider.Library.Advisory
import FileProvider.Library.Transition
import Mathlib.Logic.Function.Basic

/-!
# Temporary leases

`TemporaryLease` as any number of lease objects of any processes make its system calls, one call a
step, in directories that others change as they like. A lease opens its directory part by part from
the root, opens or creates the sentinel there, inspects it, locks it and inspects it again; the
directory it opened stays the one it works in, whatever the path names by then.

Writers hold a shared lease before they create a temporary until after its removal; cleaners remove
temporaries of others while they hold an exclusive one.
-/

namespace FileProvider

open Bytes

namespace TemporaryLease

inductive Mode where
  | shared
  | tryExclusive
deriving DecidableEq

/-- `LOCK_SH` or `LOCK_EX`. -/
def Mode.operation : Mode → Advisory.Mode
  | .shared => .shared
  | .tryExclusive => .exclusive

def sentinel : Bytes := ascii ".iisacc-temporary.lock"

/-- The elements of a path behind its root. -/
def elements (directory : Bytes) : List Bytes := (Catalog.parts directory).filter (· ≠ [])

/-- `validate`: an absolute path, whose elements are those of its normal form, without a null. -/
def validate (directory : Bytes) : Bool :=
  directory.head? = some 47 ∧ 0 ∉ directory ∧
    ∀ part ∈ Catalog.parts directory, part ≠ ascii "." ∧ part ≠ ascii ".."

/-! ## The file system -/

inductive NodeKind where
  | regular
  | directory
  | link
  | special
deriving DecidableEq

/-- What `fstat` and its relatives tell. -/
structure Stat where
  node : Nat
  kind : NodeKind
  size : Nat
  links : Nat
deriving DecidableEq

/-- The files by their identities, which are never used again, and what the directories name. -/
structure World where
  kind : Nat → NodeKind
  size : Nat → Nat
  links : Nat → Nat
  entry : Nat → Bytes → Option Nat
  /-- What a symbolic link leads to. -/
  target : Nat → Option Nat
  next : Nat

/-- The directory `/`. -/
def root : Nat := 0

namespace World

def stat (w : World) (i : Nat) : Stat := ⟨i, w.kind i, w.size i, w.links i⟩

/-- A directory with another entry, or none, under a name. -/
def set (w : World) (d : Nat) (x : Bytes) (i : Option Nat) : World :=
  { w with entry := Function.update w.entry d (Function.update (w.entry d) x i) }

/-- A new empty file under a name. -/
def create (w : World) (d : Nat) (x : Bytes) (kind : NodeKind) : World :=
  { w.set d x (some w.next) with
    kind := Function.update w.kind w.next kind
    size := Function.update w.size w.next 0
    links := Function.update w.links w.next 1
    next := w.next + 1 }

/-- What a path names, where its last element is not followed: `lstat`. -/
def lookup (w : World) : Nat → List Bytes → Option Nat
  | d, [] => some d
  | d, [x] => w.entry d x
  | d, x :: rest => do
      let i ← w.entry d x
      let i ← if w.kind i = .link then w.target i else some i
      w.lookup i rest

end World

/-! ## The constructor -/

/-- Why the system refuses a call. -/
inductive Errno where
  | interrupted
  | missing
  | other
deriving DecidableEq

/-- The two calls of `inspect`, before the lock and after it. -/
inductive Pass where
  | first
  | second
deriving DecidableEq

/-- The call a lease makes next: `d` is the directory it opened, `i` the file its descriptor is open
on. -/
inductive Phase where
  | idle
  -- `openDirectory`
  | rooting
  | walking (d : Nat) (x : Bytes) (rest : List Bytes)
  -- the attempts to open the sentinel, how many are left
  | opening (d attempts : Nat)
  | pinning (d attempts : Nat)
  | comparing (attempts : Nat) (pinned : Stat)
  -- `inspect`
  | inspecting (d i : Nat) (pass : Pass)
  | matching (d : Nat) (handle : Stat) (pass : Pass)
  | locking (d i : Nat)
  -- the constructor has returned
  | held (d i : Nat)
  | refused (i : Nat)
deriving DecidableEq

/-- The lease objects, each with what its constructor is given. -/
structure Deployment where
  mode : Nat → Mode
  directory : Nat → Bytes

structure State where
  world : World
  phase : Nat → Phase
  locks : Nat → Advisory.Holders Nat
  /-- The temporary that the holder of a lease has created and not removed. -/
  temporary : Nat → Option (Bytes × Nat)

/-- What happens next: a lease is constructed, makes its next call, which the system may refuse, or
is destroyed; a writer creates its temporary or removes it, a cleaner removes one; a process crashes
with its lease; and others leave another file system. -/
inductive Event where
  | construct (a : Nat)
  | call (a : Nat) (refusal : Option Errno)
  | destroy (a : Nat)
  | crash (a : Nat)
  | stage (a : Nat) (x : Bytes) (kind : NodeKind)
  | unstage (a : Nat)
  | clean (a : Nat) (x : Bytes)
  | tamper (w : World)

namespace State

def goto (s : State) (a : Nat) (p : Phase) : State :=
  { s with phase := Function.update s.phase a p }

/-- The descriptors of a lease are closed, which gives up its lock. -/
def close (s : State) (a : Nat) : State :=
  { s with
    phase := Function.update s.phase a .idle
    locks i := Advisory.release (s.locks i) a
    temporary := Function.update s.temporary a none }

/-- `flock` of a file. -/
def flock (s : State) (a i : Nat) (mode : Advisory.Mode) : State :=
  { s with locks := Function.update s.locks i (Advisory.take (s.locks i) a mode) }

/-- Where the elements of a path have been opened up to `rest`. -/
def arrive (s : State) (a d : Nat) : List Bytes → State
  | [] => s.goto a (.opening d 8)
  | x :: rest => s.goto a (.walking d x rest)

/-- The next attempt to open the sentinel, if there is one. -/
def again (s : State) (a d attempts : Nat) : State :=
  match attempts with
  | n + 2 => s.goto a (.opening d (n + 1))
  | _ => s.close a

/-- `openat` of the sentinel with `O_CREAT | O_NOFOLLOW`. -/
def openSentinel (s : State) (a d attempts : Nat) : State :=
  match s.world.entry d sentinel with
  | some i =>
      if s.world.kind i = .directory ∨ s.world.kind i = .link then s.close a
      else s.goto a (.inspecting d i .first)
  | none =>
      if s.world.links d = 0 then s.goto a (.pinning d attempts)
      else
        { s with world := s.world.create d sentinel .regular }.goto a
          (.inspecting d s.world.next .first)

/-- The sentinel, as the descriptor and as the directory know it. -/
def Sound (handle entry : Stat) : Prop :=
  handle.kind = .regular ∧ entry.kind = .regular ∧ handle.size = 0 ∧ handle.links = 1 ∧
    handle.node = entry.node

instance (handle entry : Stat) : Decidable (Sound handle entry) :=
  inferInstanceAs (Decidable (_ ∧ _ ∧ _ ∧ _ ∧ _))

/-- The pinned directory is the one that the path names, and a live one. -/
def SameFolder (pinned current : Stat) : Prop :=
  pinned.kind = .directory ∧ current.kind = .directory ∧ pinned.links ≠ 0 ∧
    pinned.node = current.node

instance (pinned current : Stat) : Decidable (SameFolder pinned current) :=
  inferInstanceAs (Decidable (_ ∧ _ ∧ _ ∧ _))

/-- The next call of a lease. -/
def call (s : State) (net : Deployment) (a : Nat) (refusal : Option Errno) : Option State :=
  match s.phase a with
  | .idle | .held _ _ | .refused _ => none
  | .rooting =>
      some (if refusal = none then s.arrive a root (elements (net.directory a)) else s.close a)
  | .walking d x rest =>
      match s.world.entry d x with
      | some i =>
          some (if refusal = none ∧ s.world.kind i = .directory then s.arrive a i rest
            else s.close a)
      | none => some (s.close a)
  | .opening d attempts =>
      match refusal with
      | none => some (s.openSentinel a d attempts)
      | some .interrupted => some (s.again a d attempts)
      | some .missing => some (s.goto a (.pinning d attempts))
      | some .other => some (s.close a)
  | .pinning d attempts =>
      some (if refusal = none then s.goto a (.comparing attempts (s.world.stat d)) else s.close a)
  | .comparing attempts pinned =>
      match s.world.lookup root (elements (net.directory a)) with
      | some i =>
          some (if refusal = none ∧ SameFolder pinned (s.world.stat i) then
            s.again a pinned.node attempts else s.close a)
      | none => some (s.close a)
  | .inspecting d i pass =>
      some (if refusal = none then s.goto a (.matching d (s.world.stat i) pass) else s.close a)
  | .matching d handle pass =>
      match s.world.entry d sentinel with
      | some i =>
          if refusal = none ∧ Sound handle (s.world.stat i) then
            some (s.goto a (match pass with
              | .first => .locking d handle.node
              | .second => .held d handle.node))
          else some (s.close a)
      | none => some (s.close a)
  | .locking d i =>
      match refusal with
      | some .interrupted => some s
      | some _ => some (s.close a)
      | none =>
          if Advisory.Grants (s.locks i) a (net.mode a).operation then
            some ((s.flock a i (net.mode a).operation).goto a (.inspecting d i .second))
          else
            -- a shared request waits
            match net.mode a with
            | .shared => none
            | .tryExclusive => some (s.goto a (.refused i))

end State

/-- A step of the system. -/
def step (net : Deployment) (s : State) : Event → Option State
  | .construct a =>
      match s.phase a with
      | .idle => some (if validate (net.directory a) then s.goto a .rooting else s)
      | _ => none
  | .call a refusal => s.call net a refusal
  | .destroy a =>
      match s.phase a with
      | .held _ _ | .refused _ => if s.temporary a = none then some (s.close a) else none
      | _ => none
  | .crash a => some (s.close a)
  | .stage a x kind =>
      match s.phase a with
      | .held d _ =>
          if net.mode a = .shared ∧ s.temporary a = none ∧ x ≠ sentinel ∧
              s.world.entry d x = none then
            some { s with
              world := s.world.create d x kind
              temporary := Function.update s.temporary a (some (x, s.world.next)) }
          else none
      | _ => none
  | .unstage a =>
      match s.phase a, s.temporary a with
      | .held d _, some (x, _) =>
          some { s with
            world := s.world.set d x none
            temporary := Function.update s.temporary a none }
      | _, _ => none
  | .clean a x =>
      match s.phase a with
      | .held d _ =>
          if net.mode a = .tryExclusive ∧ x ≠ sentinel then
            some { s with world := s.world.set d x none }
          else none
      | _ => none
  | .tamper w => if s.world.next ≤ w.next then some { s with world := w } else none

/-- Others leave the sentinel of a directory, and the temporaries there, to the leases held on it.
-/
def Spares (s : State) : Event → Prop
  | .tamper w => ∀ a d i, s.phase a = .held d i →
      w.entry d sentinel = s.world.entry d sentinel ∧
        ∀ x n, s.temporary a = some (x, n) → w.entry d x = s.world.entry d x
  | _ => True

/-- A step that spares what the leases protect. -/
def SparingStep (net : Deployment) (s : State) (e : Event) (t : State) : Prop :=
  Spares s e ∧ step net s e = some t

/-- Nothing has been leased; the file system is any. -/
def start (w : World) : State where
  world := w
  phase _ := .idle
  locks _ := []
  temporary _ := none

end TemporaryLease

end FileProvider
