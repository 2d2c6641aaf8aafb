import FileProvider.Library.Bytes
import Mathlib.Data.Finset.Card

/-!
# The worker of presentations

`Worker` of `Presentation.cpp`: a queue of paths that any thread adds to, a thread that takes them,
and cancels that wait for it. Each critical section of its mutex is one event; between two of them
any other thread can run.

The callers are part of the state, each with how far it is, because an `add` can wait for room in
the queue and a `cancel` for the worker. What a call waits for is a condition of its next event.
-/

namespace FileProvider

open Bytes

namespace Presentation

/-! ## Paths -/

/-- A path as the source compares it: its root, and the names behind it. -/
structure Path where
  rootName : Bytes
  rooted : Bool
  names : List Bytes
deriving DecidableEq

/-- `path::lexically_relative`, as its names. A path without names stands for that there is none. -/
def Path.lexicallyRelative (path root : Path) : List Bytes :=
  if path.rootName ≠ root.rootName ∨ path.rooted ≠ root.rooted then []
  else go path.names root.names
where
  /-- The names that differ, behind those that do not. -/
  go : List Bytes → List Bytes → List Bytes
    | a :: names, b :: root => if a = b then go names root else differ (a :: names) (b :: root)
    | names, root => differ names root
  /-- As many steps up as the names of the root count, and then those of the path. -/
  differ (names root : List Bytes) : List Bytes :=
    let ups : Int := (root.countP fun r => r ≠ [] && r ≠ ascii "." && r ≠ ascii ".." : Nat)
      - (root.countP (· = ascii "..") : Nat)
    if ups < 0 then []
    else if ups = 0 ∧ names.headD [] = [] then [ascii "."]
    else List.replicate ups.toNat (ascii "..") ++ names

/-- `Worker::within`. -/
def within (path root : Path) : Bool :=
  path = root || match path.lexicallyRelative root with
    | [] => false
    | name :: _ => name ≠ ascii ".."

/-! ## The worker -/

/-- A path in the queue. `adds` is not in the source: it has the calls of `add` that the path is in
the queue for. -/
structure Queued where
  path : Path
  adds : List Nat
deriving DecidableEq

/-- What the worker is at, with its lock released. -/
inductive Activity where
  | intake (q : Queued)
  | scan (root : Path)
deriving DecidableEq

/-- `activePath`. -/
def Activity.path : Activity → Path
  | .intake q => q.path
  | .scan root => root

/-- How far a call of another thread is. -/
inductive Call where
  | adding (p : Path)
  | blocked (p : Path)
  | added (p : Path)
  | returned (p : Path)
  | cancelling (root : Path)
  | waiting (root : Path)
  | cancelled (root : Path)
deriving DecidableEq

/-- `Worker`. The calls are numbered; `started` says that its thread has been started, and `exited`
that it has come to its end. A `cancel` in that thread itself does nothing, and is no event. -/
structure Worker where
  queue : List Queued
  queued : Finset Path
  watches : Finset Path
  stopping : Bool
  started : Bool
  exited : Bool
  active : Option Activity
  calls : Nat → Option Call

/-- How many paths the queue holds at most. -/
def maximumQueue : Nat := 4096

def maximumWatches : Nat := 128

/-- A critical section of a thread, or what it does outside of one. -/
inductive Event where
  | addCall (i : Nat) (p : Path)
  | block (i : Nat) (p : Path)
  | add (i : Nat) (p : Path)
  | addReturn (i : Nat) (p : Path)
  | cancelCall (i : Nat) (root : Path)
  | cancel (i : Nat) (root : Path)
  | cancelReturn (i : Nat) (root : Path)
  | idle (result : Bool)
  | watch (root : Path)
  | unwatch (root : Path)
  | take (q : Queued)
  | scan (root : Path)
  | finish
  | exit
  | stop
deriving DecidableEq

namespace Worker

/-- A worker before its first call. -/
def initial : Worker := ⟨[], ∅, ∅, false, false, false, none, fun _ => none⟩

/-- The worker with a call at another place. -/
def call (w : Worker) (i : Nat) (c : Call) : Worker :=
  { w with calls := fun j => if j = i then some c else w.calls j }

/-- The end of `add`: a path that is in the queue is not put there again. -/
def enqueue (w : Worker) (i : Nat) (p : Path) : Worker :=
  if w.stopping = true then w
  else if p ∈ w.queued then
    { w with queue := w.queue.map fun q => if q.path = p then ⟨q.path, q.adds ++ [i]⟩ else q }
  else { w with queue := w.queue ++ [⟨p, [i]⟩], queued := insert p w.queued, started := true }

/-- Whether a call of `add` has its answer: at its start, or where it waits for room. -/
def admits (w : Worker) (i : Nat) (p : Path) : Bool :=
  (w.calls i = some (.adding p) &&
      (w.stopping || decide (p ∈ w.queued) || decide (w.queue.length < maximumQueue))) ||
    (w.calls i = some (.blocked p) && (w.stopping || decide (w.queue.length < maximumQueue)))

/-- What `cancel` takes away. -/
def erase (w : Worker) (root : Path) : Worker :=
  { w with
    queue := w.queue.filter fun q => !within q.path root
    queued := w.queued \ ((w.queue.filter fun q => within q.path root).map (·.path)).toFinset
    watches := w.watches.filter fun p => within p root = false }

/-- What `cancel` waits for. -/
def clear (w : Worker) (root : Path) : Bool :=
  match w.active with
  | none => true
  | some a => !within a.path root && !within root a.path

/-- Whether the worker's thread holds the lock, at the head of its loop. -/
def ready (w : Worker) : Bool := w.started && !w.exited && w.active.isNone

/-- What an event does, where it can happen. -/
def step (w : Worker) : Event → Option Worker
  | .addCall i p => if w.calls i = none then some (w.call i (.adding p)) else none
  | .block i p =>
      if w.calls i = some (.adding p) ∧ w.admits i p = false then some (w.call i (.blocked p))
      else none
  | .add i p => if w.admits i p = true then some ((w.enqueue i p).call i (.added p)) else none
  | .addReturn i p =>
      if w.calls i = some (.added p) then some (w.call i (.returned p)) else none
  | .cancelCall i root => if w.calls i = none then some (w.call i (.cancelling root)) else none
  | .cancel i root =>
      if w.calls i = some (.cancelling root) then some ((w.erase root).call i (.waiting root))
      else none
  | .cancelReturn i root =>
      if w.calls i = some (.waiting root) ∧ w.clear root = true then
        some (w.call i (.cancelled root))
      else none
  | .idle result =>
      if result = true → w.queue = [] ∧ w.active = none then some w else none
  | .watch root =>
      if w.watches.card < maximumWatches ∨ root ∈ w.watches then
        some { w with watches := insert root w.watches, started := true }
      else none
  | .unwatch root => some { w with watches := w.watches.erase root }
  | .take q =>
      match w.queue with
      | [] => none
      | first :: rest =>
          if w.ready = true ∧ first = q then
            some { w with
              queue := rest, queued := w.queued.erase q.path, active := some (.intake q) }
          else none
  | .scan root =>
      if w.ready = true ∧ w.queue = [] ∧ w.stopping = false ∧ root ∈ w.watches then
        some { w with active := some (.scan root) }
      else none
  | .finish => if w.active.isSome = true then some { w with active := none } else none
  | .exit =>
      if w.ready = true ∧ w.queue = [] ∧ w.stopping = true then some { w with exited := true }
      else none
  | .stop => some { w with stopping := true }

/-- A step of the worker and of the threads that call it. -/
def Step (w : Worker) (e : Event) (w' : Worker) : Prop := w.step e = some w'

end Worker

/-- An event of the worker's thread. -/
def Event.ofThread : Event → Prop
  | .take _ | .scan _ | .finish | .exit => True
  | _ => False

end Presentation

end FileProvider
