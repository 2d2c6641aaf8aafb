import FileProvider.Library.Bytes
import FileProvider.Library.Transition
import Mathlib.Data.List.TakeWhile

/-!
# Tokens of presentations

`cacheChangeToken`: a token for a file that changes with it, but not with the provider's own writes
of its attribute. A publication (`persist`) writes the attribute and notes which token the change
time it finds afterwards stands for; other processes can write the file between any two of its
steps.

The state has the files with their marks, the tokens that were noted, and each publication at its
place. Marks are what `inspect` reads, and a write of others may give a file any new mark.
-/

namespace FileProvider

open Bytes

namespace Presentation

namespace Tokens

/-! ## Change times -/

/-- `Source::changed`: the numbers of a file and of its change time, with colons between. -/
structure ChangeTime where
  text : Bytes
  plain : ∀ b ∈ text, b ≤ 58

instance : DecidableEq ChangeTime := fun s t =>
  decidable_of_iff (s.text = t.text) ⟨fun h => by cases s; cases t; cases h; rfl, congrArg _⟩

/-- What `inspect` reads of a file that changes with every write: its change time, and on some
systems a number of the journal. -/
structure Mark where
  changed : ChangeTime
  sequence : Option Int
deriving DecidableEq

/-- `CacheToken`. -/
structure CacheToken where
  observed : ChangeTime
  normalized : ChangeTime
  observedSequence : Option Int
  normalizedSequence : Option Int

/-- The token of a mark. -/
def CacheToken.of (after original : Mark) : CacheToken :=
  ⟨after.changed, original.changed, after.sequence, original.sequence⟩

/-! ## The texts of tokens -/

/-- The number of the journal in a token. -/
def sequenceText : Option Int → Bytes
  | none => []
  | some n => ascii ":usn:" ++ decimalInt n

/-- The log of a document in a token. -/
def logText : Option Mark → Bytes
  | none => []
  | some m => ascii ":wal:" ++ m.changed.text ++ sequenceText m.sequence

/-- The text of a token. -/
def tokenText (m : Mark) (log : Option Mark) : Bytes :=
  m.changed.text ++ sequenceText m.sequence ++ logText log

/-! ## Publications -/

/-- A file, by its identity. -/
abbrev File := Bytes

/-- How far a publication of a file is. `begun` has what it was started with, and `locked`, which
holds the lock of the tokens, the mark whose token is to be kept. -/
inductive Publication where
  | begun (f : File) (before : Mark)
  | checked (f : File) (before : Mark)
  | locked (f : File) (original : Mark)
  | ended
deriving DecidableEq

/-- The files, the tokens of a process in the order of their files, and its publications. A document
can have a log beside it, which is a file too. `given` and `written` are not in the source: which
marks a file has had and how often it had been written by then, and how often another process has
written it. -/
structure Provider where
  native : File → Mark
  log : File → Option File
  tokens : List (File × CacheToken)
  holder : Option Nat
  publications : Nat → Option Publication
  given : File → List (Mark × Nat)
  written : File → Nat

/-- How many tokens are kept at most. -/
def maximumTokens : Nat := 65536

/-- A step of a publication, or what happens beside it. `embed` is a write of the attribute,
`record` notes the token, and `release` is an `inspect` that fails instead. -/
inductive Event where
  | start (i : Nat) (f : File)
  | check (i : Nat)
  | abandon (i : Nat)
  | lock (i : Nat)
  | embed (i : Nat) (m : Mark)
  | record (i : Nat)
  | release (i : Nat)
  | write (f : File) (m : Mark)
  | place (f : File) (log : Option File)
  | read (f : File) (token : Bytes)
deriving DecidableEq

namespace Provider

/-- The mark whose token a mark of a file has: its own, or that of the one it stands for since a
publication. -/
def normal (s : Provider) (f : File) (m : Mark) : Mark :=
  match s.tokens.find? (·.1 = f) with
  | none => m
  | some (_, t) =>
      if t.observed = m.changed ∧ t.observedSequence = m.sequence then
        ⟨t.normalized, t.normalizedSequence⟩
      else m

/-- `Presentation::cacheChangeToken`. -/
def cacheChangeToken (s : Provider) (f : File) : Bytes :=
  tokenText (s.normal f (s.native f)) ((s.log f).map s.native)

/-- A token put where the order of the files has its place. -/
def store (f : File) (t : CacheToken) : List (File × CacheToken) → List (File × CacheToken)
  | [] => [(f, t)]
  | e :: tokens =>
      if f = e.1 then (f, t) :: tokens
      else if order f < order e.1 then (f, t) :: e :: tokens
      else e :: store f t tokens

/-- The tokens with one more, for which the first has to go when there are too many. -/
def noted (s : Provider) (f : File) (t : CacheToken) : List (File × CacheToken) :=
  store f t (if maximumTokens ≤ s.tokens.length ∧ f ∉ s.tokens.map (·.1) then s.tokens.tail
    else s.tokens)

/-- The provider with a publication at another place. -/
def publication (s : Provider) (i : Nat) (p : Publication) : Provider :=
  { s with publications := fun j => if j = i then some p else s.publications j }

/-- The provider with a new mark of a file. -/
def mark (s : Provider) (f : File) (m : Mark) (n : Nat) : Provider :=
  { s with
    native := fun g => if g = f then m else s.native g
    given := fun g => if g = f then (m, n) :: s.given g else s.given g
    written := fun g => if g = f then n else s.written g }

/-- What an event does, where it can happen. Every write gives a file a mark that it has not had. -/
def step (s : Provider) : Event → Option Provider
  | .start i f =>
      if s.publications i = none then some (s.publication i (.begun f (s.native f))) else none
  | .check i =>
      match s.publications i with
      | some (.begun f before) =>
          if s.native f = before then some (s.publication i (.checked f before)) else none
      | _ => none
  | .abandon i =>
      match s.publications i with
      | some (.begun _ _) | some (.checked _ _) => some (s.publication i .ended)
      | _ => none
  | .lock i =>
      match s.publications i, s.holder with
      | some (.checked f before), none =>
          some { s.publication i (.locked f (s.normal f before)) with holder := some i }
      | _, _ => none
  | .embed i m =>
      match s.publications i with
      | some (.locked f _) =>
          if m ∉ (s.given f).map (·.1) then some (s.mark f m (s.written f)) else none
      | _ => none
  | .record i =>
      match s.publications i with
      | some (.locked f original) =>
          some { s.publication i .ended with
            tokens := s.noted f (.of (s.native f) original), holder := none }
      | _ => none
  | .release i =>
      match s.publications i with
      | some (.locked _ _) => some { s.publication i .ended with holder := none }
      | _ => none
  | .write f m =>
      if m ∉ (s.given f).map (·.1) then some (s.mark f m (s.written f + 1)) else none
  | .place f log => some { s with log := fun g => if g = f then log else s.log g }
  | .read f token => if s.holder = none ∧ token = s.cacheChangeToken f then some s else none

def Step (s : Provider) (e : Event) (s' : Provider) : Prop := s.step e = some s'

/-- A provider before its first publication. -/
structure Initial (s : Provider) : Prop where
  tokens : s.tokens = []
  holder : s.holder = none
  publications : ∀ i, s.publications i = none
  given : ∀ f, s.given f = [(s.native f, s.written f)]

end Provider

/-- A publication is between its last check of a file and the note of its token. -/
def Publication.Publishes (f : File) : Publication → Prop
  | .checked g _ | .locked g _ => g = f
  | _ => False

/-- No other process writes a file between the last check of a publication of it and the note of its
token. -/
def Careful (s : Provider) (e : Event) : Prop :=
  ∀ f m, e = .write f m → ∀ i, ∀ p ∈ s.publications i, ¬ p.Publishes f

end Tokens

end Presentation

end FileProvider
