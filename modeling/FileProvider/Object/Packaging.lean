import FileProvider.Object.Packager

/-!
# Packaging an inventory

`ObjectPackager::package` brings a package up to date with an inventory. An entry that is there
already with its stamp is skipped; a large or changed one is copied and streamed by itself; new
small ones are copied and imported in batches, for which the loop looks ahead. A failed entry is
reported and the next one is tried. What the sources, the callbacks and the writes answer may differ
from one round of the loop to the next.

The state holds the tables, the report and what the progress was told, so that nothing that a call
shows is left out. Nothing is proved here; see `Object.Accounting` and `Object.EntryByEntry`.
-/

namespace FileProvider

open Bytes Fallible

/-! ## Inventories -/

/-- Where a source is inspected in a round: as the entry of the round, or as a member of a batch. -/
inductive PackagingProbe where
  | entry | batch
deriving DecidableEq

/-- Where the cancellation is asked for in a round. -/
inductive PackagingPoll where
  /-- Before the entry. -/
  | entry
  /-- Once the entry failed. -/
  | failed
  /-- Once its batch failed. -/
  | batch
deriving DecidableEq

/-- An entry of an inventory, and what is found at its source in each round. -/
structure PackagingEntry where
  logicalPath : Bytes
  identity : ObjectSourceIdentity
  /-- The source lies in the directory of the package. -/
  below : Bool
  inspect : Nat → PackagingProbe → Fallible ObjectSourceIdentity
  /-- The space that is available when the entry asks for it. -/
  space : Nat → PackagingProbe → Fallible Nat
  authorship : Nat → Fallible (Option ObjectMetadata)
  /-- The copy of the source, with the identity the source had. -/
  capture : Nat → Fallible (ObjectSourceIdentity × SourceFile)

structure PackagingInventory where
  entries : List PackagingEntry
  issues : List ObjectPackagingIssue

/-- The surroundings of a call of `package`. -/
structure PackagingRun where
  session : Bytes
  maximumBatchFiles : Nat
  staging : Fallible Unit
  stops : Nat → PackagingPoll → Bool
  /-- What the calls of a round see of the cancellation. -/
  cancellation : Nat → StopToken
  /-- Whether a round can write. -/
  write : Nat → Fallible Unit
  draws : Nat → Draws

/-! ## Reports -/

/-- What the progress is told about an entry. -/
inductive PackagingAction where
  | imported | revised | skipped
deriving DecidableEq

structure ObjectPackagingReport where
  imported : Nat
  revised : Nat
  skipped : Nat
  issues : List ObjectPackagingIssue
  cancelled : Bool
deriving DecidableEq

structure PackagingProgress where
  entry : PackagingEntry
  record : ObjectRecord
  action : PackagingAction

/-- The tables and the report so far, and what the progress was told. -/
structure PackagingState where
  db : ObjectTables
  report : ObjectPackagingReport
  progress : List PackagingProgress

/-- The counters after some more entries. -/
def ObjectPackagingReport.count (r : ObjectPackagingReport) (n : Nat) :
    PackagingAction → ObjectPackagingReport
  | .imported => { r with imported := r.imported + n }
  | .revised => { r with revised := r.revised + n }
  | .skipped => { r with skipped := r.skipped + n }

namespace PackagingState

/-- Entries that are done. -/
def publish (σ : PackagingState) (db : ObjectTables) (action : PackagingAction)
    (done : List (PackagingEntry × ObjectRecord)) : PackagingState where
  db := db
  report := σ.report.count done.length action
  progress := σ.progress ++ done.map fun (entry, record) => ⟨entry, record, action⟩

/-- Entries that failed. -/
def fail (σ : PackagingState) (entries : List PackagingEntry) (message : String) :
    PackagingState :=
  { σ with
    report := { σ.report with
      issues := σ.report.issues ++ entries.map fun entry => ⟨entry.logicalPath, message⟩ } }

def cancel (σ : PackagingState) : PackagingState :=
  { σ with report := { σ.report with cancelled := true } }

end PackagingState

/-- A member of a batch. -/
structure PackagingImport where
  entry : PackagingEntry
  identity : ObjectSourceIdentity
  options : ObjectWriteOptions

/-- A batch, and what is left of its limits. -/
structure PackagingBatch where
  imports : List PackagingImport
  bytes : Nat
  metadataRemaining : Nat

/-! ## The packager -/

namespace PackagingRun

/-- The space that is kept free. -/
def reserve : Nat := 256 * 1024 * 1024

variable (P : Platform) (m : Impl) (run : PackagingRun) (work : ObjectSession) (round : Nat)

def prepare (b : PackagingBatch) (item : PackagingEntry) : Fallible PackagingBatch := do
  failIf (item.below = true) "cannot package the package itself"
  let identity ← item.inspect round .batch
  failIf (identity ≠ item.identity) "source changed after inventory; rescan required"
  failIf (ObjectStore.maximumBatchBytes - b.bytes < identity.size) "package batch size limit"
  let available ← item.space round .batch
  failIf (available < (b.bytes + identity.size) * 3 + reserve) "insufficient batch space"
  let authorship ← item.authorship round
  let options := ⟨authorship, identity.stamp, run.cancellation round⟩
  let actorBytes := work.author.profile.payload.length
  let provenanceBytes := (authorship.map (·.payload.length)).getD 0
  failIf (b.metadataRemaining < actorBytes) "package batch metadata limit"
  failIf (b.metadataRemaining - actorBytes < provenanceBytes) "package batch metadata limit"
  pure {
    imports := b.imports ++ [⟨item, identity, options⟩]
    bytes := b.bytes + identity.size
    metadataRemaining := b.metadataRemaining - actorBytes - provenanceBytes }

/-- The next entry of a batch, unless there is an object under its path. -/
def prepareNext (db : ObjectTables) (b : PackagingBatch) (next : PackagingEntry) :
    Fallible (Option PackagingBatch) := do
  let found ← ObjectStore.lookupPath db next.logicalPath
  if found.isSome then pure none else some <$> prepare run work round b next

/-- The loop that looks ahead: the batch, and the entries it leaves. -/
def lookAhead (db : ObjectTables) :
    List PackagingEntry → PackagingBatch → PackagingBatch × List PackagingEntry
  | [], b => (b, [])
  | next :: entries, b =>
      if run.maximumBatchFiles ≤ b.imports.length
          ∨ ObjectStore.maximumBatchBytes - b.bytes < next.identity.size then (b, next :: entries)
      else
        match prepareNext run work round db b next with
        | .ok (some b) => lookAhead db entries b
        | .ok none => (b, next :: entries)
        | .error _ => (b, next :: entries)

/-- A member of a batch as a source to be copied. -/
def request (i : PackagingImport) : ObjectSnapshotRequest SourceFile where
  size := i.identity.size
  capture := do
    let (identity, copy) ← i.entry.capture round
    failIf (identity ≠ i.identity) "source changed before snapshot; rescan required"
    pure copy

/-- The copy of a member as a file of the batch. -/
def file (i : PackagingImport) (copy : SourceFile) : ObjectImport :=
  BatchFile.toImport ⟨copy, run.cancellation round, i.entry.logicalPath, i.options⟩

/-- The batch is copied and imported. -/
def importBatch (db : ObjectTables) (imports : List PackagingImport) :
    Fallible (List ObjectRecord × ObjectTables) := do
  let copies ← ObjectSnapshotBatch.capture (imports.map (request round))
  run.write round
  ObjectStore.importFiles P m db (List.zipWith (run.file round) imports copies) run.session
    (run.draws round)

/-- The batch that begins with an entry. -/
def packageBatch (entry : PackagingEntry) (entries : List PackagingEntry) (σ : PackagingState) :
    Fallible (List PackagingEntry × PackagingState) := do
  let first ← prepare run work round ⟨[], 0, ObjectStore.maximumBatchMetadataBytes⟩ entry
  let (b, rest) := lookAhead run work round σ.db entries first
  let members := b.imports.map (·.entry)
  match importBatch P m run round σ.db b.imports with
  | .ok (records, db) => pure (rest, σ.publish db .imported (members.zip records))
  | .error message =>
      if run.stops round .batch then .error message
      else pure (rest, σ.fail members ("batch rolled back: " ++ message))

/-- An entry by itself: the next revision of an object, or a new one. -/
def packageSingle (entry : PackagingEntry) (current : ObjectSourceIdentity)
    (existing : Option (ObjectRecord × Option ObjectMetadata)) (σ : PackagingState) :
    Fallible PackagingState := do
  let (identity, copy) ← entry.capture round
  failIf (identity ≠ current) "source changed before snapshot; rescan required"
  match existing with
  | some (existing, supplied) => do
      run.write round
      let (r, db) ← ObjectStore.reviseFile P m σ.db existing.key copy existing.version run.session
        ⟨supplied, current.stamp, run.cancellation round⟩ (run.draws round)
      pure (σ.publish db .revised [(entry, r)])
  | none => do
      let authorship ← entry.authorship round
      run.write round
      let (r, db) ← ObjectStore.importFile P m σ.db copy entry.logicalPath run.session
        ⟨authorship, current.stamp, run.cancellation round⟩ (run.draws round)
      pure (σ.publish db .imported [(entry, r)])

/-- The space for a copy, the payload and the journal. -/
def checkSpace (entry : PackagingEntry) (size : Nat) : Fallible Unit := do
  let available ← entry.space round .entry
  failIf ((2 ^ 64 - 1 - reserve) / 3 < size ∨ available < size * 3 + reserve)
    "insufficient free space for snapshot, payload and journal"

/-- One round of the loop: what is left of the entries. -/
def packageEntry (entry : PackagingEntry) (entries : List PackagingEntry) (σ : PackagingState) :
    Fallible (List PackagingEntry × PackagingState) := do
  failIf (entry.below = true) "cannot package the package itself"
  let current ← entry.inspect round .entry
  failIf (current ≠ entry.identity) "source changed after inventory; rescan required"
  match ← ObjectStore.lookupPath σ.db entry.logicalPath with
  | some existing => do
      let supplied ← entry.authorship round
      if existing.sourceStamp = current.stamp ∧ ∀ a ∈ supplied, a = existing.authorship then do
        let valid ← Impl.validate P m σ.db existing.key existing.version false
        failIf (valid = false) "committed object metadata is corrupt"
        pure (entries, σ.publish σ.db .skipped [(entry, existing)])
      else do
        checkSpace round entry current.size
        let σ ← packageSingle P m run round entry current (some (existing, supplied)) σ
        pure (entries, σ)
  | none => do
      checkSpace round entry current.size
      if 1 < run.maximumBatchFiles ∧ current.size ≤ ObjectStore.maximumBatchBytes then
        packageBatch P m run work round entry entries σ
      else do
        let σ ← packageSingle P m run round entry current none σ
        pure (entries, σ)

/-- The loop over the entries. Each round takes one at least. -/
def packageEntries : Nat → Nat → List PackagingEntry → PackagingState → PackagingState
  | 0, _, _, σ => σ
  | _ + 1, _, [], σ => σ
  | rounds + 1, round, entry :: entries, σ =>
      if run.stops round .entry then σ.cancel
      else
        match packageEntry P m run work round entry entries σ with
        | .ok (rest, σ) => packageEntries rounds (round + 1) rest σ
        | .error message =>
            if run.stops round .failed then σ.cancel
            else packageEntries rounds (round + 1) entries (σ.fail [entry] message)

def package (db : ObjectTables) (inventory : PackagingInventory) : Fallible PackagingState := do
  failIf (run.maximumBatchFiles = 0 ∨ ObjectStore.maximumBatchFiles < run.maximumBatchFiles)
    "invalid package batch size"
  let start : PackagingState := ⟨db, ⟨0, 0, 0, inventory.issues, false⟩, []⟩
  if inventory.issues ≠ [] then pure start else do
    run.staging
    let work ← Impl.getSession db run.session false
    failIf (work.endedAtNs ≠ 0) "package work session is closed"
    pure (packageEntries P m run work inventory.entries.length 0 inventory.entries start)

end PackagingRun

end FileProvider
