import FileProvider.Object.BatchImport

/-!
# Inventories and snapshots

What `package` and `audit` share: an inventory lists the sources of a tree under their logical
paths, with the identities they had when it was taken, and both copy a batch of sources before
they read any of them.

Where the sources come from, and what is done with the copies, is left to the modules that use these
definitions.
-/

namespace FileProvider

open Bytes Fallible

/-- The stamp and the size of a source file. -/
structure ObjectSourceIdentity where
  stamp : Bytes
  size : Nat
deriving DecidableEq

/-- What went wrong, and under which logical path. -/
structure ObjectPackagingIssue where
  path : Bytes
  message : String
deriving DecidableEq

/-- A source to be copied: its size in the inventory, and what a worker makes of it. -/
structure ObjectSnapshotRequest (α : Type) where
  size : Nat
  capture : Fallible α

namespace ObjectSnapshotBatch

variable {α : Type}

/-- The sizes of a batch against what is left of its budget. -/
def budget : List (ObjectSnapshotRequest α) → Nat → Fallible Nat
  | [], remaining => pure remaining
  | request :: requests, remaining => do
      failIf (remaining < request.size) "snapshot batch exceeds 16 MiB"
      budget requests (remaining - request.size)

/-- `ObjectSnapshotBatch`: every size is checked before any source is copied. -/
def capture (requests : List (ObjectSnapshotRequest α)) : Fallible (List α) := do
  failIf (requests = [] ∨ ObjectStore.maximumBatchFiles < requests.length)
    "invalid snapshot batch count"
  let _ ← budget requests ObjectStore.maximumBatchBytes
  requests.mapM (·.capture)

end ObjectSnapshotBatch

end FileProvider
