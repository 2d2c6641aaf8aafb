import FileProvider.Sql.Model
import Mathlib.Data.List.Pairwise

/-!
# Values in ranges

`patch_blob` and `compare_exchange_blob_ranges`: bytes of one value are written where they differ
from what stands there. Computations with sizes and offsets are those of the machine; one that wraps
is noted in the connection.

The functions are programs over the answers of the engine, in the order in which the source makes
its calls. A computation that wraps is no error of the source, so it is noted and not refused.
-/

namespace FileProvider

open Bytes

namespace Sql

variable {ρ β : Type}

/-! ## Sizes and offsets -/

/-- A note on the connection that a computation has wrapped. -/
def note (wraps : Prop) [Decidable wraps] : Call ρ Unit :=
  set fun c => if wraps then { c with wrapped := true } else c

/-- A sum of 64 bits. -/
def add64 (a b : Nat) : Call ρ Nat := do
  note (2 ^ 64 ≤ a + b)
  pure ((a + b) % 2 ^ 64)

/-- A difference of 64 bits. -/
def sub64 (a b : Nat) : Call ρ Nat := do
  note (a < b)
  pure ((a + 2 ^ 64 - b % 2 ^ 64) % 2 ^ 64)

/-- A conversion to `int`. -/
def toInt (a : Nat) : Call ρ Int := do
  note (2 ^ 31 ≤ a)
  pure ((a : Int).bmod (2 ^ 32))

/-! ## The engine's calls on values -/

/-- `openBlob`, which gives the size of the value. A handle that is dropped is closed without a look
at what that gives. -/
def openBlob (place : BlobPlace) : Call ρ Nat :=
  engine fun e =>
    match e.content.blobs place with
    | none => .error "no such value"
    | some value => .ok (value.length, e)

/-- `sqlite3_blob_close`. -/
def closeBlob : Call ρ Unit := engine fun e => .ok ((), e)

/-- `sqlite3_blob_read`. -/
def readBlob (place : BlobPlace) (count offset : Int) : Call ρ Bytes :=
  engine fun e =>
    match e.content.blobs place with
    | none => .error "no such value"
    | some value =>
        if count < 0 ∨ offset < 0 ∨ value.length < offset + count then .error "SQL logic error"
        else .ok ((value.drop offset.toNat).take count.toNat, e)

/-- `sqlite3_blob_write`. One that fails can have written other bytes, as many. -/
def writeBlob (place : BlobPlace) (count offset : Int) (bytes : Bytes) : Call ρ Unit :=
  .call fun a c =>
    match c.handle, a with
    | none, _ => (.error ⟨.failure, 21, "bad parameter or other API misuse"⟩, c)
    | some e, .done =>
        match e.content.blobs place with
        | none => (.error ⟨.failure, 1, "no such value"⟩, c)
        | some value =>
            if count < 0 ∨ offset < 0 ∨ value.length < offset + count then
              (.error ⟨.failure, 1, "SQL logic error"⟩, c)
            else (.ok (), c.withEngine (e.change fun w => w.write place offset.toNat bytes))
    | some e, .failed f =>
        (.error (failure f), c.withEngine (e.change fun w => w.write place offset.toNat f.left))
    | some e, .aborted f => (.error (failure f), c.withEngine e.rollback)

/-! ## Runs of bytes that differ -/

/-- How many bytes differ before the first that do not. -/
def runLength (before after : Bytes) : Nat :=
  ((before.zip after).takeWhile fun b => b.1 ≠ b.2).length

/-- The writes of one range, from a place in it on: each run of bytes that differ is one write. It
gives the number of bytes written. -/
def writeRuns (place : BlobPlace) (offset : Nat) (before after : Bytes) :
    Nat → Nat → Nat → Call ρ Nat
  | 0, _, written => pure written
  | fuel + 1, cursor, written => do
      if after.length ≤ cursor then pure written
      else if before[cursor]? = after[cursor]? then
        writeRuns place offset before after fuel (cursor + 1) written
      else do
        let count := runLength (before.drop cursor) (after.drop cursor)
        writeBlob place (← toInt count) (← toInt (← add64 offset cursor))
          ((after.drop cursor).take count)
        writeRuns place offset before after fuel (cursor + count) (written + count)

/-! ## Patches of whole values -/

/-- The largest `int`. -/
def maximumInt : Nat := 2 ^ 31 - 1

/-- The loop of `patch_blob`, over pieces of 4096 bytes. -/
def patchPieces (place : BlobPlace) (replacement : Bytes) : Nat → Nat → Nat → Call ρ Nat
  | 0, _, written => pure written
  | fuel + 1, offset, written => do
      if replacement.length ≤ offset then pure written
      else do
        let count := min 4096 (replacement.length - offset)
        let previous ← readBlob place (← toInt count) (← toInt offset)
        let changed ← writeRuns place offset previous ((replacement.drop offset).take count)
          count 0 0
        patchPieces place replacement fuel (offset + 4096) (written + changed)

/-- `Database::patch_blob`. -/
def patchBlob (place : BlobPlace) (replacement : Bytes) : Call ρ Nat := do
  requireOpen
  Program.failIf ((← Program.state).inTransaction = false)
    (invalid "BLOB patches require an explicit transaction")
  Program.failIf (place.table = [] ∨ place.column = [] ∨ 0 ∈ place.table ∨ 0 ∈ place.column
    ∨ maximumInt < replacement.length) (invalid "Invalid BLOB patch")
  let length ← openBlob place
  Program.failIf (replacement.length ≠ length) (invalid "BLOB patch must preserve storage size")
  let written ← patchPieces place replacement replacement.length 0 0
  closeBlob
  pure written

/-! ## Compare and exchange -/

structure BlobRangePatch where
  offset : UInt64
  before : Bytes
  after : Bytes
deriving DecidableEq

structure BlobPatchStatistics where
  bytesCompared : Nat
  bytesWritten : Nat
deriving DecidableEq

/-- A sort of ranges by their offsets. Which of two ranges of one offset comes first is left
open. -/
structure RangeSort where
  sort : List BlobRangePatch → List BlobRangePatch
  perm : ∀ ranges, (sort ranges).Perm ranges
  sorted : ∀ ranges, (sort ranges).Pairwise fun a b => a.offset ≤ b.offset

/-- `validBlobNames`. -/
def validBlobNames (place : BlobPlace) : Bool :=
  place.table ≠ [] && place.column ≠ [] && 0 ∉ place.table && 0 ∉ place.column
    && place.table.length ≤ maximumInt && place.column.length ≤ maximumInt

/-- `sizeof(BlobRangePatch)`. -/
def rangeSize : Nat := 40

/-- The check of the sizes of one range. -/
def compareSizes (limit compared : Nat) (range : BlobRangePatch) : Call ρ Nat := do
  Program.failIf (range.before.length ≠ range.after.length)
    (invalid "BLOB expected/replacement sizes differ")
  Program.failIf ((← sub64 limit compared) < range.after.length)
    (invalid "BLOB compared bytes exceed limit" .limitExceeded)
  add64 compared range.after.length

/-- The check of the place of one range. The state is the end of the ranges before and whether one
of them changes something. -/
def checkRange (length : Nat) (state : Nat × Bool) (range : BlobRangePatch) :
    Call ρ (Nat × Bool) := do
  Program.failIf (length < range.offset.toNat) (invalid "BLOB range is outside value")
  Program.failIf ((← sub64 length range.offset.toNat) < range.after.length)
    (invalid "BLOB range is outside value")
  if range.after = [] then pure state
  else do
    Program.failIf (range.offset.toNat < state.1) (invalid "BLOB ranges overlap")
    pure (← add64 range.offset.toNat range.after.length,
      state.2 || range.before ≠ range.after)

/-- The comparison of one range, in pieces of 4096 bytes. -/
def compareRange (place : BlobPlace) (range : BlobRangePatch) : Nat → Nat → Call ρ Unit
  | 0, _ => pure ()
  | fuel + 1, start => do
      if range.before.length ≤ start then pure ()
      else do
        let count := min 4096 (range.before.length - start)
        let scratch ← readBlob place (← toInt count)
          (← toInt (← add64 range.offset.toNat start))
        Program.failIf (scratch ≠ (range.before.drop start).take count)
          (invalid "BLOB source conflict" .conflict)
        compareRange place range fuel (start + count)

/-- The writes of all ranges. -/
def writeRanges (place : BlobPlace) (ordered : List BlobRangePatch) : Call ρ Nat := do
  let _ ← openBlob place
  let written ← ordered.foldlM (fun written range => do
    let count ← writeRuns place range.offset.toNat range.before range.after
      range.after.length 0 0
    pure (written + count)) 0
  closeBlob
  pure written

/-! ## The savepoint -/

namespace BlobSavepoint

/-- `BlobSavepoint::begin`, inside a transaction. -/
def begin : Call ρ Unit := engine fun e => .ok ((), e.mark)

/-- `BlobSavepoint::release`. -/
def release : Call ρ Unit :=
  engine fun e => if e.savepoint.isSome then .ok ((), e.release)
    else .error "no such savepoint: ii_fp_blob_ranges"

/-- `ROLLBACK TO ii_fp_blob_ranges`. -/
def rollbackTo : Call ρ Unit :=
  engine fun e => if e.savepoint.isSome then .ok ((), e.rollbackTo)
    else .error "no such savepoint: ii_fp_blob_ranges"

/-- The whole transaction taken back, or the connection given up. -/
def rollbackAll : Call ρ Bool := do
  let result ← Program.attempt (exec .rollback)
  if result.isOk = true ∨ (← Program.state).autocommit = true then do
    set fun c => { c with transaction := 0 }
    pure true
  else do
    set Connection.invalidate
    pure false

/-- `BlobSavepoint::rollback` of a savepoint that is active. -/
def rollback : Call ρ Bool := do
  if (← Program.state).autocommit = true then do
    set fun c => { c with transaction := 0 }
    pure true
  else do
    let undone ← Program.attempt (do rollbackTo; release)
    if undone.isOk = true then pure true else rollbackAll

end BlobSavepoint

/-- The writes of `compare_exchange_blob_ranges`, once its savepoint has begun. -/
def exchange (place : BlobPlace) (ordered : List BlobRangePatch) : Call ρ Nat := do
  match ← Program.attempt (writeRanges place ordered) with
  | .error e => do
      let undone ← BlobSavepoint.rollback
      Program.fail (if undone = true then e else invalid "BLOB rollback failed" .failure)
  | .ok written =>
      match ← Program.attempt BlobSavepoint.release with
      | .error e => do
          let _ ← BlobSavepoint.rollback
          Program.fail e
      | .ok () => pure written

/-- The part of `compare_exchange_blob_ranges` that writes nothing: the number of bytes compared,
the ranges in order, and whether one of them changes something. -/
def compareBlobRanges (S : RangeSort) (place : BlobPlace) (ranges : List BlobRangePatch) :
    Call ρ (Nat × List BlobRangePatch × Bool) := do
  requireOpen
  Program.failIf (validBlobNames place = false) (invalid "Invalid BLOB identifier")
  let c ← Program.state
  Program.failIf (c.readOnly = true) (invalid "Database is read only" .readOnly)
  Program.failIf (c.inTransaction = false) (invalid "BLOB ranges require a transaction")
  Program.failIf (65536 < ranges.length ∨ c.limit.val / rangeSize < ranges.length)
    (invalid "BLOB range metadata exceeds limit" .limitExceeded)
  let compared ← ranges.foldlM (compareSizes c.limit.val) 0
  let ordered := S.sort ranges
  let length ← openBlob place
  let checked ← ordered.foldlM (checkRange length) (0, false)
  ordered.forM fun range => compareRange place range range.before.length 0
  closeBlob
  pure (compared, ordered, checked.2)

/-- What `compare_exchange_blob_ranges` does before its first write. -/
def beginExchange (S : RangeSort) (place : BlobPlace) (ranges : List BlobRangePatch) :
    Call ρ (Nat × List BlobRangePatch × Bool) := do
  let compared ← compareBlobRanges S place ranges
  if compared.2.2 = true then BlobSavepoint.begin
  pure compared

/-- `Database::compare_exchange_blob_ranges`. -/
def compareExchangeBlobRanges (S : RangeSort) (place : BlobPlace) (ranges : List BlobRangePatch) :
    Call ρ BlobPatchStatistics := do
  let (compared, ordered, changes) ← beginExchange S place ranges
  if changes = false then pure ⟨compared, 0⟩
  else do
    let written ← exchange place ordered
    pure ⟨compared, written⟩

end Sql

end FileProvider
