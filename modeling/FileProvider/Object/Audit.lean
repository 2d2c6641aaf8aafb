import FileProvider.Object.CompactIndex
import FileProvider.Object.Packager

/-!
# The audit of a package

`ObjectPackager::audit` checks every entry of an inventory against the object that is packaged
under its path. A large source is copied and streamed by itself; small ones are copied and read in
batches, and the members of a batch that fails are checked one by one. At the end only the numbers
of objects and of index rows are compared with the number of entries. An audit without an issue
proves more than it compares: the entries have different paths, so their objects are different, and
as many objects as there are entries leave none that was not checked.

The definitions follow the loops of the source, with the place where each source is reached and each
poll of the cancellation as a parameter of its own. Nothing is proved here; see `Object.CleanAudit`.
-/

namespace FileProvider

open Bytes Fallible Impl

/-! ## Inventories -/

/-- Where the audit reaches for a source or for a copy of it. -/
inductive AuditAccess
  /-- A worker of `ObjectSnapshotBatch` inspects and copies the source. -/
  | snapshot
  /-- `readObjectBatch` inspects the copy. -/
  | inspect
  /-- A worker of `readObjectBatch` reads the copy. -/
  | read
  /-- `ObjectSource` copies the source by itself. -/
  | capture
  /-- The copy is streamed. -/
  | stream
  /-- The source is inspected once its content was compared. -/
  | compare
deriving DecidableEq

/-- Where the audit asks for the cancellation while it is at an entry. -/
inductive AuditPoll
  /-- Before the entry, in the loop over the inventory. -/
  | entry
  /-- Before it is taken as the first of a batch, or as a further one. -/
  | first | next
  /-- The batch it is the first of was not read. -/
  | unread
  /-- Before it is checked by itself, and once that failed. -/
  | single | failed
  /-- Before it is checked with what the batch read. -/
  | verify
deriving DecidableEq

/-- A source file, which stays as it is, and whether an access succeeds. One that is cancelled does
not. -/
structure AuditSource where
  stamp : Bytes
  content : Bytes
  access : AuditAccess → Fallible Unit

/-- An entry of an inventory, with its source and the polls of the cancellation at it. -/
structure AuditEntry where
  logicalPath : Bytes
  source : AuditSource
  identity : ObjectSourceIdentity
  stops : AuditPoll → Bool

/-- An inventory, with the staging directory of the package and the polls after its entries. -/
structure AuditInventory where
  entries : List AuditEntry
  issues : List ObjectPackagingIssue
  staging : Fallible Unit
  stops : StopToken

namespace AuditSource

/-- The identity of the source. -/
def identity (s : AuditSource) : ObjectSourceIdentity := ⟨s.stamp, s.content.length⟩

/-- `ObjectSource`: a copy of the source, unless it has another identity than expected. -/
def capture (s : AuditSource) (a : AuditAccess) (expected : ObjectSourceIdentity) :
    Fallible Bytes := do
  s.access a
  failIf (s.identity ≠ expected) "source changed before snapshot; rescan required"
  pure s.content

/-- `ObjectSource::inspect`. -/
def inspect (s : AuditSource) : Fallible ObjectSourceIdentity := do
  s.access .compare
  pure s.identity

end AuditSource

/-! ## Reports -/

structure ObjectAuditReport where
  verified : Nat
  issues : List ObjectPackagingIssue
  cancelled : Bool
deriving DecidableEq

namespace ObjectAuditReport

def publish (r : ObjectAuditReport) : ObjectAuditReport := { r with verified := r.verified + 1 }

def report (r : ObjectAuditReport) (path : Bytes) (message : String) : ObjectAuditReport :=
  { r with issues := r.issues ++ [⟨path, message⟩] }

def cancel (r : ObjectAuditReport) : ObjectAuditReport := { r with cancelled := true }

end ObjectAuditReport

/-- A part of the audit: it goes on with a report, or the audit returns one. -/
abbrev Auditing := Except ObjectAuditReport

/-- `stopped`, where the audit returns if it was. -/
def unlessStopped (stop : Bool) (r : ObjectAuditReport) : Auditing Unit :=
  if stop then .error r.cancel else .ok ()

/-- An entry with the compact fields of the object under its path. -/
structure AuditCandidate where
  entry : AuditEntry
  expected : ObjectIndexEntry

/-! ## The audit -/

namespace ObjectPackager

variable (P : Platform) (m : Impl) (db : ObjectTables)

def prepare (entry : AuditEntry) : Fallible AuditCandidate := do
  let found ← ObjectStore.lookupPath db entry.logicalPath
  let record ← orFail "missing or stale packaged object" found
  failIf (record.sourceStamp ≠ entry.identity.stamp ∨ record.size ≠ entry.identity.size
    ∨ record.path ≠ entry.logicalPath ∨ record.indexKey ≤ 0) "missing or stale packaged object"
  pure ⟨entry, record.compact⟩

/-- The candidate against the digest of what was read of its source. -/
def validate (candidate : AuditCandidate) (hash : Bytes) : Fallible Unit := do
  let expected := candidate.expected
  failIf (hash ≠ expected.sha256) "changed source or corrupt packaged object"
  let valid ← Impl.validate P m db expected.key expected.version true
  failIf (valid = false) "changed source or corrupt packaged object"
  let identity ← candidate.entry.source.inspect
  failIf (identity ≠ candidate.entry.identity) "changed source or corrupt packaged object"
  let found ← ObjectStore.lookup db expected.key
  let head ← orFail "object head changed during audit" found
  failIf (head.version ≠ expected.version ∨ head.validationKey ≠ expected.validationKey
    ∨ head.path ≠ expected.path ∨ head.deleted = true) "object head changed during audit"
  let index ← ObjectStore.index db (expected.indexKey - 1) 1 false
  failIf (index ≠ [expected]) "compact object index differs from current head"

/-- The digest of a copy, which is read in blocks. -/
def streamingHash (source : AuditSource) (copy : Bytes) : Fallible Bytes := do
  source.access .stream
  pure (P.hash copy)

/-- The check of a candidate by itself, with a copy of its own. -/
def check (candidate : AuditCandidate) : Fallible Unit := do
  let source := candidate.entry.source
  let copy ← source.capture .capture candidate.entry.identity
  let hash ← streamingHash P source copy
  validate P m db candidate hash

def single (candidate : AuditCandidate) (r : ObjectAuditReport) : ObjectAuditReport :=
  match check P m db candidate with
  | .ok _ => r.publish
  | .error message =>
      if candidate.entry.stops .failed then r.cancel
      else r.report candidate.entry.logicalPath message

/-- A source that is too large for a batch. -/
def large (entry : AuditEntry) (r : ObjectAuditReport) : ObjectAuditReport :=
  match prepare db entry with
  | .ok candidate => single P m db candidate r
  | .error message => r.report entry.logicalPath message

/-- The loop that fills a batch: its candidates, and the entries it leaves. -/
def collect : Bool → List AuditEntry → Nat → List AuditCandidate → ObjectAuditReport →
    Auditing (List AuditCandidate × List AuditEntry × ObjectAuditReport)
  | _, [], _, candidates, r => pure (candidates, [], r)
  | first, entry :: entries, remaining, candidates, r =>
      if ObjectStore.maximumBatchFiles ≤ candidates.length then
        pure (candidates, entry :: entries, r)
      else do
        unlessStopped (entry.stops (if first then .first else .next)) r
        if remaining < entry.identity.size then pure (candidates, entry :: entries, r)
        else
          match prepare db entry with
          | .ok candidate =>
              collect false entries (remaining - entry.identity.size) (candidates ++ [candidate]) r
          | .error message =>
              collect false entries remaining candidates (r.report entry.logicalPath message)

/-- A candidate as a source to be copied. -/
def request (candidate : AuditCandidate) : ObjectSnapshotRequest Bytes where
  size := candidate.entry.identity.size
  capture := candidate.entry.source.capture .snapshot candidate.entry.identity

/-- The copy of a candidate as a file of a batch. -/
def input (candidate : AuditCandidate) (copy : Bytes) : ObjectImport where
  inspected := do
    candidate.entry.source.access .inspect
    pure copy.length
  read := do
    candidate.entry.source.access .read
    pure copy
  unchanged := true
  logicalPath := candidate.entry.logicalPath
  options := ⟨none, [], fun _ => false⟩

/-- A batch is copied and read. -/
def readBatch (candidates : List AuditCandidate) : Fallible (List PreparedObjectSource) := do
  let copies ← ObjectSnapshotBatch.capture (candidates.map request)
  ObjectStore.readObjectBatch (List.zipWith input candidates copies)

/-- The members of a batch that was not read. -/
def isolate : List AuditCandidate → ObjectAuditReport → Auditing ObjectAuditReport
  | [], r => pure r
  | candidate :: candidates, r => do
      unlessStopped (candidate.entry.stops .single) r
      isolate candidates (single P m db candidate r)

/-- The members of a batch, with what was read of them. -/
def verify : List (AuditCandidate × PreparedObjectSource) → ObjectAuditReport →
    Auditing ObjectAuditReport
  | [], r => pure r
  | (candidate, prepared) :: members, r => do
      unlessStopped (candidate.entry.stops .verify) r
      match validate P m db candidate (P.hash prepared.bytes) with
      | .ok _ => verify members r.publish
      | .error message => verify members (r.report candidate.entry.logicalPath message)

/-- A batch that begins with an entry. -/
def batch (entry : AuditEntry) (candidates : List AuditCandidate) (r : ObjectAuditReport) :
    Auditing ObjectAuditReport :=
  if candidates.isEmpty then pure r
  else
    match readBatch candidates with
    | .ok prepared => verify P m db (candidates.zip prepared) r
    | .error _ => do
        unlessStopped (entry.stops .unread) r
        isolate P m db candidates r

/-- The loop over the entries. Each round takes one at least. -/
def auditEntries : Nat → List AuditEntry → ObjectAuditReport → Auditing ObjectAuditReport
  | 0, _, r => pure r
  | _ + 1, [], r => pure r
  | rounds + 1, entry :: entries, r => do
      unlessStopped (entry.stops .entry) r
      if ObjectStore.maximumBatchBytes < entry.identity.size then
        auditEntries rounds entries (large P m db entry r)
      else
        let (candidates, rest, r) ←
          collect db true (entry :: entries) ObjectStore.maximumBatchBytes [] r
        let r ← batch P m db entry candidates r
        auditEntries rounds rest r

/-- The loop over the pages of the compact index, from a cursor on; nothing when it is stopped. -/
def countIndexed (stops : StopToken) : Nat → Nat → Int → Nat → Fallible (Option Nat)
  | 0, _, _, indexed => pure (some indexed)
  | rounds + 1, poll, cursor, indexed => do
      if stops poll then pure none else
        let page ← ObjectStore.index db cursor 1024 false
        match page.getLast? with
        | none => pure (some indexed)
        | some last => countIndexed stops rounds (poll + 1) last.indexKey (indexed + page.length)

/-- The comparison of the numbers of entries, of objects and of index rows. -/
def compare (inventory : AuditInventory) (r : ObjectAuditReport) : Auditing ObjectAuditReport := do
  unlessStopped (inventory.stops 0) r
  match countIndexed db inventory.stops (db.currentIndex.rows.length + 1) 1 0 0 with
  | .error message => pure (r.report [] message)
  | .ok none => .error r.cancel
  | .ok (some indexed) =>
      if ObjectStore.count db false ≠ inventory.entries.length
          ∨ indexed ≠ inventory.entries.length then
        pure (r.report [] "object/index count differs from mapped tree")
      else pure r

/-- The audit once its staging directory is there. -/
def auditing (inventory : AuditInventory) : Auditing ObjectAuditReport := do
  let r ← auditEntries P m db inventory.entries.length inventory.entries ⟨0, [], false⟩
  compare db inventory r

def audit (inventory : AuditInventory) : Fallible ObjectAuditReport := do
  if inventory.issues ≠ [] then pure ⟨0, inventory.issues, false⟩ else
    inventory.staging
    match auditing P m db inventory with
    | .ok r => pure r
    | .error r => pure r

end ObjectPackager

end FileProvider
