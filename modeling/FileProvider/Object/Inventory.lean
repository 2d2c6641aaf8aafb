import FileProvider.Library.WorkerPool
import FileProvider.Object.Packager

/-!
# Taking an inventory

`ObjectPackager::inventory` walks the trees it is given, one directory after the other, and lists
the regular files in them; a pool of workers then inspects them. What it cannot package it reports,
and an inventory that reports nothing is exact: it has every file of the trees once, under a logical
path of its own, whatever the schedule of the workers.

A listing gives the names of a directory in any order, and with any errors in between, and the
status of each entry. The inspection of the files is a pool of workers, whose result does not depend
on their schedule.
-/

namespace FileProvider

open Bytes Fallible

/-! ## Directories -/

/-- What an entry of a directory is, its links not followed. -/
inductive FileStatus where
  | regular | directory | symlink | special
deriving DecidableEq

/-- What a recursive iterator comes by in a directory: one entry after the other, each with what it
finds below the entry where it goes down. An iterator that fails is at its end. -/
inductive DirectoryListing where
  | done
  | failed (message : String)
  | entry (name : Bytes) (status : Fallible FileStatus) (below rest : DirectoryListing)

namespace DirectoryListing

/-- The names in a directory. -/
def names : DirectoryListing → List Bytes
  | .done => []
  | .failed _ => []
  | .entry name _ _ rest => name :: rest.names

/-- What a file system lists: the names in a directory differ, and none has a slash. -/
def Valid : DirectoryListing → Prop
  | .done => True
  | .failed _ => True
  | .entry name _ below rest => 47 ∉ name ∧ name ∉ rest.names ∧ below.Valid ∧ rest.Valid

/-- What stands under a path, by its parts, which leads through directories. -/
inductive At : DirectoryListing → List Bytes → FileStatus → Prop where
  | here {name : Bytes} {status : FileStatus} {below rest : DirectoryListing} :
      At (.entry name (.ok status) below rest) [name] status
  | next {name : Bytes} {status : Fallible FileStatus} {below rest : DirectoryListing}
      {path : List Bytes} {s : FileStatus} :
      At rest path s → At (.entry name status below rest) path s
  | down {name : Bytes} {below rest : DirectoryListing} {path : List Bytes} {s : FileStatus} :
      At below path s → At (.entry name (.ok .directory) below rest) (name :: path) s

end DirectoryListing

/-! ## Trees and inventories -/

/-- A tree that is packaged under a prefix of its own. The root is an absolute and normal path, by
its parts. -/
structure ObjectTreeMapping where
  treePrefix : Bytes
  root : List Bytes
  excludedTopLevel : List Bytes

/-- A tree with what is found at its root: whether that is a directory no link leads to, and what
is listed below it. -/
structure ObjectTree extends ObjectTreeMapping where
  direct : Bool
  listing : DirectoryListing

structure ObjectPackagingEntry where
  logicalPath : Bytes
  source : List Bytes
  identity : ObjectSourceIdentity
deriving DecidableEq

structure ObjectInventory where
  entries : List ObjectPackagingEntry
  issues : List ObjectPackagingIssue
  totalBytes : Nat
deriving DecidableEq

namespace ObjectPackager

/-! ## The walk -/

def nameValid (name : Bytes) : Fallible Unit :=
  failIf (name = [] ∨ name = ascii "." ∨ name = ascii ".." ∨ (∃ c ∈ name, c ∈ ascii "/\\:")
    ∨ 0 ∈ name) "invalid object-tree namespace"

/-- A path is below another when its parts begin with those of the other. -/
def below (child parent : List Bytes) : Bool := parent.isPrefixOf child

def lowercase (name : Bytes) : Bytes := name.map fun c => if 65 ≤ c ∧ c ≤ 90 then c + 32 else c

/-- A file or directory that is the provider's own: it is no payload. -/
def providerControl (name : Bytes) : Bool :=
  let name := lowercase name
  name = ascii ".iisacc-temporary.lock" || name = ascii ".iisacc-file-provider"
    || (ascii ".iifile-stage-").isPrefixOf name || (ascii ".society-extract-").isPrefixOf name

/-- What the walk passes by: what is the provider's own, and what is excluded at the top. -/
def skips (t : ObjectTreeMapping) (relative : List Bytes) : Bool :=
  relative.getLast?.any providerControl || relative.head?.any (· ∈ t.excludedTopLevel)

/-- The prefix of the tree and the parts of the path, with slashes between them. -/
def logical (t : ObjectTreeMapping) (relative : List Bytes) : Bytes :=
  t.treePrefix ++ relative.flatMap fun name => 47 :: name

/-- What a walk has listed and reported, and whether its iterator failed. -/
structure Walk where
  entries : List ObjectPackagingEntry
  issues : List ObjectPackagingIssue
  ended : Bool

namespace Walk

def nothing : Walk := ⟨[], [], false⟩

/-- A walk that goes on with another, unless it has ended. -/
def andThen (a b : Walk) : Walk :=
  if a.ended then a else ⟨a.entries ++ b.entries, a.issues ++ b.issues, b.ended⟩

end Walk

/-- An entry that is not inspected yet. -/
def entryAt (t : ObjectTreeMapping) (relative : List Bytes) : ObjectPackagingEntry :=
  ⟨logical t relative, t.root ++ relative, ⟨[], 0⟩⟩

def issueAt (t : ObjectTreeMapping) (relative : List Bytes) (message : String) : Walk :=
  ⟨[], [⟨logical t relative, message⟩], false⟩

/-- One entry of a directory. -/
def visit (t : ObjectTreeMapping) (relative : List Bytes) : Fallible FileStatus → Walk
  | .ok .regular => ⟨[entryAt t relative], [], false⟩
  | .ok .directory => .nothing
  | .ok .symlink => issueAt t relative "symbolic link is not a package payload"
  | .ok .special => issueAt t relative "unsupported special file"
  | .error message => issueAt t relative message

/-- Where the iterator goes down. -/
def descends : Fallible FileStatus → Bool
  | .ok .directory => true
  | .ok _ => false
  | .error _ => true

/-- The walk of a directory of a tree. -/
def walk (t : ObjectTreeMapping) (directory : List Bytes) : DirectoryListing → Walk
  | .done => .nothing
  | .failed message => ⟨[], [⟨t.treePrefix, message⟩], true⟩
  | .entry name status below rest =>
      if skips t (directory ++ [name]) then walk t directory rest
      else ((visit t (directory ++ [name]) status).andThen
        (if descends status then walk t (directory ++ [name]) below else .nothing)).andThen
          (walk t directory rest)

/-- What `inventory` has before it inspects the files. -/
structure Scan where
  entries : List ObjectPackagingEntry
  issues : List ObjectPackagingIssue
  prefixes : List Bytes
  roots : List (List Bytes)

def traverse (s : Scan) (t : ObjectTree) : Fallible Scan := do
  nameValid t.treePrefix
  failIf (t.treePrefix ∈ s.prefixes) "duplicate logical tree"
  t.excludedTopLevel.forM nameValid
  failIf (t.direct = false) "unavailable or redirected object tree"
  failIf (s.roots.any (fun other => below t.root other || below other t.root) = true)
    "overlapping object trees"
  pure ⟨s.entries ++ (walk t.toObjectTreeMapping [] t.listing).entries,
    s.issues ++ (walk t.toObjectTreeMapping [] t.listing).issues, t.treePrefix :: s.prefixes,
    t.root :: s.roots⟩

def scan (trees : List ObjectTree) : Fallible Scan := do
  failIf (trees.isEmpty = true) "at least one object tree is required"
  trees.foldlM traverse ⟨[], [], [], []⟩

/-! ## The inspection -/

/-- An entry with what was found of its file, or with what went wrong. -/
def inspected (e : ObjectPackagingEntry) : Fallible ObjectSourceIdentity →
    ObjectPackagingEntry × String
  | .ok identity => ({ e with identity }, "")
  | .error message => (e, message)

/-- One entry in the loop over what was inspected. An entry without a message is counted. -/
def account (s : List ObjectPackagingIssue × Nat) (x : ObjectPackagingEntry × String) :
    Fallible (List ObjectPackagingIssue × Nat) :=
  if x.2 ≠ "" then pure (s.1 ++ [⟨x.1.logicalPath, x.2⟩], s.2) else do
    failIf (2 ^ 64 - 1 - s.2 < x.1.identity.size) "inventory size overflow"
    pure (s.1, s.2 + x.1.identity.size)

/-- The end of `inventory`, once its workers have inspected the files. -/
def finish (stopped : Bool) (s : Scan) (outcomes : List (Fallible ObjectSourceIdentity)) :
    Fallible ObjectInventory := do
  failIf (stopped = true) "object inventory cancelled"
  let (issues, totalBytes) ←
    (List.zipWith inspected s.entries outcomes).foldlM account (s.issues, 0)
  pure ⟨Keyset.orderBy (fun e => order e.logicalPath)
    ((List.zipWith inspected s.entries outcomes).map (·.1)), issues, totalBytes⟩

/-- The tasks of the workers. None fails: what goes wrong is kept for the entry. -/
def tasks (inspect : List Bytes → Fallible ObjectSourceIdentity)
    (entries : List ObjectPackagingEntry) : List (Fallible (Fallible ObjectSourceIdentity)) :=
  entries.map fun e => .ok (inspect e.source)

/-- How many workers there are, for the concurrency that is asked for or that the machine has. -/
def workers (concurrency files : Nat) : Nat := min files (max 1 (min concurrency 64))

/-- What a call of `inventory` comes to, under one schedule of its workers. `stopped` says whether
a stop is requested before the workers are joined. -/
inductive Inventoried (inspect : List Bytes → Fallible ObjectSourceIdentity) (concurrency : Nat)
    (stopped : Bool) (trees : List ObjectTree) : Fallible ObjectInventory → Prop where
  | refused {message : String} : scan trees = .error message →
      Inventoried inspect concurrency stopped trees (.error message)
  | joined {s : Scan} {pool : WorkerPool.State String (Fallible ObjectSourceIdentity)}
      {outcomes : List (Fallible ObjectSourceIdentity)} : scan trees = .ok s →
      Relation.ReflTransGen (WorkerPool.Step (tasks inspect s.entries))
        (WorkerPool.start _ _ (workers concurrency s.entries.length)) pool →
      pool.Joined →
      WorkerPool.collect (tasks inspect s.entries).length (fun _ => .ok ⟨[], 0⟩) pool.outcomes
        = .ok outcomes →
      Inventoried inspect concurrency stopped trees (finish stopped s outcomes)

/-- The inventory that one worker takes. -/
def inventory (inspect : List Bytes → Fallible ObjectSourceIdentity) (stopped : Bool)
    (trees : List ObjectTree) : Fallible ObjectInventory := do
  let s ← scan trees
  finish stopped s (s.entries.map fun e => inspect e.source)

variable {inspect : List Bytes → Fallible ObjectSourceIdentity} {concurrency : Nat} {stopped : Bool}
  {trees : List ObjectTree} {t : ObjectTreeMapping} {result : Fallible ObjectInventory}

/-- Workers that were joined have inspected every file. -/
theorem collect_eq {entries : List ObjectPackagingEntry}
    {pool : WorkerPool.State String (Fallible ObjectSourceIdentity)}
    (hpool : Relation.ReflTransGen (WorkerPool.Step (tasks inspect entries))
      (WorkerPool.start _ _ (workers concurrency entries.length)) pool) (hjoined : pool.Joined) :
    WorkerPool.collect (tasks inspect entries).length (fun _ => .ok ⟨[], 0⟩) pool.outcomes
      = .ok (entries.map fun e => inspect e.source) := by
  cases entries with
  | nil => rfl
  | cons e entries =>
      have hworkers : workers concurrency (e :: entries).length ≠ 0 := by
        rw [List.length_cons, workers]
        omega
      have htasks : tasks inspect (e :: entries)
          = ((e :: entries).map fun e => inspect e.source).map .ok := List.map_map.symm
      rw [WorkerPool.joined_eq hworkers (fun _ => .ok ⟨[], 0⟩) hpool hjoined, htasks,
        WorkerPool.mapM_ok]

/-- **An inventory does not depend on the schedule of its workers.** Whatever the schedule, the
outcomes of the workers are collected in the order of the files, which is the fact about pools in
general. -/
theorem Inventoried.eq (h : Inventoried inspect concurrency stopped trees result) :
    result = inventory inspect stopped trees := by
  cases h with
  | refused h =>
      rw [inventory, h]
      rfl
  | joined hscan hpool hjoined hcollect =>
      rw [collect_eq hpool hjoined] at hcollect
      rw [inventory, hscan, ← Except.ok.inj hcollect]
      rfl

/-- Every pool of workers comes to an inventory. -/
theorem exists_inventoried (inspect : List Bytes → Fallible ObjectSourceIdentity)
    (concurrency : Nat) (stopped : Bool) (trees : List ObjectTree) :
    ∃ result, Inventoried inspect concurrency stopped trees result := by
  cases hscan : scan trees with
  | error message => exact ⟨_, .refused hscan⟩
  | ok s =>
      obtain ⟨pool, hpool, hjoined⟩ := @WorkerPool.joins _ _ (tasks inspect s.entries) _
        (workers concurrency s.entries.length) .refl
      exact ⟨_, .joined hscan hpool hjoined (collect_eq hpool hjoined)⟩

end ObjectPackager

end FileProvider
