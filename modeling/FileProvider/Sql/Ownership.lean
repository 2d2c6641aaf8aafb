import FileProvider.Sql.Blobs

/-!
# Who ends a transaction

A `Transaction` knows the transaction it began by a serial number that the connection keeps as long
as that transaction is open. The connection has to give the number up wherever the engine leaves the
transaction: `Prepared.step` and the savepoint of a blob look, the other calls do not.

The two predicates are those of calls that end nothing: `Still` of those after which the engine is
in the same transaction, and `Quiet` of those after which it may have left it. `Sql.Transactions`
puts them together for the calls that do end one.
-/

namespace FileProvider

namespace Sql

open Program

variable {ρ β : Type} {c c' : Connection ρ}

/-- The number of the transaction that is open in a connection. -/
def Connection.number (c : Connection ρ) : Option Nat := c.handle.bind Engine.number

/-- A connection is in a transaction when the model has numbered one. -/
theorem inTransaction_eq (c : Connection ρ) : c.inTransaction = c.number.isSome := rfl

/-- SQLite reports autocommit when there is no transaction. -/
theorem autocommit_eq_true : c.autocommit = true ↔ c.number = none := by
  unfold Connection.autocommit
  rw [inTransaction_eq, Bool.not_eq_true', Option.isSome_eq_false_iff, Option.isNone_iff_eq_none]

/-! ## Calls that begin and end nothing -/

/-- The connection keeps its numbers, and the engine its transaction. -/
structure Still (c c' : Connection ρ) : Prop where
  transaction : c'.transaction = c.transaction
  serial : c'.serial = c.serial
  number : c'.number = c.number

/-- The connection keeps its numbers. The engine keeps its transaction, or it has ended it by
itself. -/
structure Quiet (c c' : Connection ρ) : Prop where
  transaction : c'.transaction = c.transaction
  serial : c'.serial = c.serial
  number : c'.number = c.number ∨ c'.number = none

/-- A connection to which nothing happens stands still. -/
theorem Still.refl (c : Connection ρ) : Still c c := ⟨rfl, rfl, rfl⟩

/-- A connection that stands still is a quiet one. -/
theorem Still.quiet (h : Still c c') : Quiet c c' := ⟨h.transaction, h.serial, .inl h.number⟩

instance : IsPreorder (Connection ρ) Still where
  refl := .refl
  trans _ _ _ h h' := ⟨h'.transaction.trans h.transaction, h'.serial.trans h.serial,
    h'.number.trans h.number⟩

instance : IsPreorder (Connection ρ) Quiet where
  refl c := (Still.refl c).quiet
  trans _ _ _ h h' := by
    refine ⟨h'.transaction.trans h.transaction, h'.serial.trans h.serial, ?_⟩
    rcases h'.number with heq | hnone
    · rw [heq]
      exact h.number
    · exact .inr hnone

/-- A call of the engine that fails ends the transaction or leaves it. A failure that aborts the
transaction takes its number from the engine, and any other leaves the connection as it was. -/
theorem engine_quiet {f : Engine (Content ρ) → Except String (β × Engine (Content ρ))}
    (hf : ∀ e b e', f e = .ok (b, e') → e'.number = e.number) : Keeps Still Quiet (engine f) := by
  intro c
  refine .call trivial fun a _ => ?_
  cases hhandle : c.handle with
  | none => exact ⟨(Still.refl c).quiet, nofun⟩
  | some e =>
      cases a with
      | done =>
          dsimp only
          cases hresult : f e with
          | ok result =>
              have hstill : Still c (c.withEngine result.2) := by
                refine ⟨rfl, rfl, ?_⟩
                show result.2.number = c.handle.bind Engine.number
                rw [hhandle, hf e result.1 result.2 hresult]
                rfl
              exact ⟨hstill.quiet, fun _ _ => hstill⟩
          | error => exact ⟨(Still.refl c).quiet, nofun⟩
      | failed => exact ⟨(Still.refl c).quiet, nofun⟩
      | aborted => exact ⟨⟨rfl, rfl, .inr rfl⟩, nofun⟩

/-- Checking that the connection is open begins and ends no transaction. -/
theorem requireOpen_quiet : Keeps Still Quiet (requireOpen : Call ρ Unit) :=
  .bind .state fun _ => .failIf _ _

/-- Noting an arithmetic step begins and ends no transaction. -/
theorem note_quiet (wraps : Prop) [Decidable wraps] :
    Keeps Still Quiet (note wraps : Call ρ Unit) := by
  intro c
  refine .modify ?_
  have hstill : Still c (if wraps then { c with wrapped := true } else c) := by
    split
    · exact ⟨rfl, rfl, rfl⟩
    · exact .refl c
  exact ⟨hstill.quiet, fun _ _ => hstill⟩

/-- A checked conversion begins and ends no transaction. -/
theorem toInt_quiet (a : Nat) : Keeps Still Quiet (toInt a : Call ρ Int) :=
  .bind (note_quiet _) fun _ => .pure _

/-- A checked sum begins and ends no transaction. -/
theorem add64_quiet (a b : Nat) : Keeps Still Quiet (add64 a b : Call ρ Nat) :=
  .bind (note_quiet _) fun _ => .pure _

/-- A checked difference begins and ends no transaction. -/
theorem sub64_quiet (a b : Nat) : Keeps Still Quiet (sub64 a b : Call ρ Nat) :=
  .bind (note_quiet _) fun _ => .pure _

/-- Opening a blob begins and ends no transaction, also when it fails. -/
theorem openBlob_quiet (place : BlobPlace) : Keeps Still Quiet (openBlob place : Call ρ Nat) := by
  refine engine_quiet fun e b e' h => ?_
  split at h
  · cases h
  · cases h
    rfl

/-- Closing a blob begins and ends no transaction. -/
theorem closeBlob_quiet : Keeps Still Quiet (closeBlob : Call ρ Unit) := by
  refine engine_quiet fun e b e' h => ?_
  cases h
  rfl

/-- Reading from a blob begins and ends no transaction. -/
theorem readBlob_quiet (place : BlobPlace) (count offset : Int) :
    Keeps Still Quiet (readBlob place count offset : Call ρ _) := by
  refine engine_quiet fun e b e' h => ?_
  split at h
  · cases h
  · split at h
    · cases h
    · cases h
      rfl

/-- Writing to a blob begins and ends no transaction: it takes place within the one that is open. -/
theorem writeBlob_quiet (place : BlobPlace) (count offset : Int) (bytes : Bytes) :
    Keeps Still Quiet (writeBlob place count offset bytes : Call ρ Unit) := by
  intro c
  refine .call trivial fun a _ => ?_
  cases hhandle : c.handle with
  | none => exact ⟨(Still.refl c).quiet, nofun⟩
  | some e =>
      have hstill : ∀ f : Content ρ → Content ρ, Still c (c.withEngine (e.change f)) := by
        intro f
        refine ⟨rfl, rfl, ?_⟩
        show e.number = c.handle.bind Engine.number
        rw [hhandle]
        rfl
      cases a with
      | done =>
          dsimp only
          split
          · exact ⟨(Still.refl c).quiet, nofun⟩
          · split
            · exact ⟨(Still.refl c).quiet, nofun⟩
            · exact ⟨(hstill _).quiet, fun _ _ => hstill _⟩
      | failed => exact ⟨(hstill _).quiet, nofun⟩
      | aborted => exact ⟨⟨rfl, rfl, .inr rfl⟩, nofun⟩

/-- The loop over the runs that differ begins and ends no transaction, by induction on its fuel. -/
theorem writeRuns_quiet (place : BlobPlace) (offset : Nat) (before after : Bytes)
    (fuel cursor written : Nat) :
    Keeps Still Quiet (writeRuns place offset before after fuel cursor written : Call ρ Nat) := by
  induction fuel generalizing cursor written with
  | zero => exact .pure _
  | succ fuel ih =>
      unfold writeRuns
      split
      · exact .pure _
      · split
        · exact ih _ _
        · refine .bind (toInt_quiet _) fun _ => ?_
          refine .bind (add64_quiet _ _) fun _ => ?_
          refine .bind (toInt_quiet _) fun _ => ?_
          exact .bind (writeBlob_quiet _ _ _ _) fun _ => ih _ _

/-- The loop over the windows begins and ends no transaction, by induction on its fuel. -/
theorem patchPieces_quiet (place : BlobPlace) (replacement : Bytes) (fuel offset written : Nat) :
    Keeps Still Quiet (patchPieces place replacement fuel offset written : Call ρ Nat) := by
  induction fuel generalizing offset written with
  | zero => exact .pure _
  | succ fuel ih =>
      unfold patchPieces
      split
      · exact .pure _
      · refine .bind (toInt_quiet _) fun _ => ?_
        refine .bind (toInt_quiet _) fun _ => ?_
        refine .bind (readBlob_quiet _ _ _) fun _ => ?_
        exact .bind (writeRuns_quiet _ _ _ _ _ _ _) fun _ => ih _ _

/-- Patching a blob begins and ends no transaction. -/
theorem patchBlob_quiet (place : BlobPlace) (replacement : Bytes) :
    Keeps Still Quiet (patchBlob place replacement : Call ρ Nat) := by
  refine .bind requireOpen_quiet fun _ => ?_
  refine .bind .state fun _ => ?_
  refine .bind (.failIf _ _) fun _ => ?_
  refine .bind (.failIf _ _) fun _ => ?_
  refine .bind (openBlob_quiet _) fun _ => ?_
  refine .bind (.failIf _ _) fun _ => ?_
  refine .bind (patchPieces_quiet _ _ _ _ _) fun _ => ?_
  exact .bind closeBlob_quiet fun _ => .pure _

/-- Checking the sizes of a range begins and ends no transaction. -/
theorem compareSizes_quiet (limit compared : Nat) (range : BlobRangePatch) :
    Keeps Still Quiet (compareSizes limit compared range : Call ρ Nat) := by
  refine .bind (.failIf _ _) fun _ => ?_
  refine .bind (sub64_quiet _ _) fun _ => ?_
  exact .bind (.failIf _ _) fun _ => add64_quiet _ _

/-- Checking the place of a range begins and ends no transaction. -/
theorem checkRange_quiet (length : Nat) (state : Nat × Bool) (range : BlobRangePatch) :
    Keeps Still Quiet (checkRange length state range : Call ρ _) := by
  refine .bind (.failIf _ _) fun _ => ?_
  refine .bind (sub64_quiet _ _) fun _ => ?_
  refine .bind (.failIf _ _) fun _ => ?_
  split
  · exact .pure _
  · refine .bind (.failIf _ _) fun _ => ?_
    exact .bind (add64_quiet _ _) fun _ => .pure _

/-- Comparing the pieces of a range begins and ends no transaction. -/
theorem compareRange_quiet (place : BlobPlace) (range : BlobRangePatch) (fuel start : Nat) :
    Keeps Still Quiet (compareRange place range fuel start : Call ρ Unit) := by
  induction fuel generalizing start with
  | zero => exact .pure _
  | succ fuel ih =>
      unfold compareRange
      split
      · exact .pure _
      · refine .bind (toInt_quiet _) fun _ => ?_
        refine .bind (add64_quiet _ _) fun _ => ?_
        refine .bind (toInt_quiet _) fun _ => ?_
        refine .bind (readBlob_quiet _ _ _) fun _ => ?_
        exact .bind (.failIf _ _) fun _ => ih _

/-- Comparing all ranges begins and ends no transaction, so a mismatch leaves the caller's as it is.
-/
theorem compareBlobRanges_quiet (S : RangeSort) (place : BlobPlace)
    (ranges : List BlobRangePatch) :
    Keeps Still Quiet (compareBlobRanges S place ranges : Call ρ _) := by
  refine .bind requireOpen_quiet fun _ => ?_
  refine .bind (.failIf _ _) fun _ => ?_
  refine .bind .state fun _ => ?_
  refine .bind (.failIf _ _) fun _ => ?_
  refine .bind (.failIf _ _) fun _ => ?_
  refine .bind (.failIf _ _) fun _ => ?_
  refine .bind
    (.foldlM (fun _ _ => compareSizes_quiet _ _ _) _ _) fun _ => ?_
  refine .bind (openBlob_quiet _) fun _ => ?_
  refine .bind
    (.foldlM (fun _ _ => checkRange_quiet _ _ _) _ _) fun _ => ?_
  refine .bind
    (.forM (fun _ => compareRange_quiet _ _ _ _) _) fun _ => ?_
  exact .bind closeBlob_quiet fun _ => .pure _

/-- Writing the ranges begins and ends no transaction. -/
theorem writeRanges_quiet (place : BlobPlace) (ordered : List BlobRangePatch) :
    Keeps Still Quiet (writeRanges place ordered : Call ρ Nat) := by
  refine .bind (openBlob_quiet _) fun _ => ?_
  refine .bind (.foldlM (fun _ _ => ?_) _ _) fun _ => ?_
  · exact .bind (writeRuns_quiet _ _ _ _ _ _ _) fun _ => .pure _
  · exact .bind closeBlob_quiet fun _ => .pure _

/-- Opening the savepoint of an exchange within a transaction does not begin another. -/
theorem beginSavepoint_quiet : Keeps Still Quiet (BlobSavepoint.begin : Call ρ Unit) := by
  refine engine_quiet fun e b e' h => ?_
  cases h
  rfl

/-- The first part of an exchange begins and ends no transaction of the caller's. -/
theorem beginExchange_quiet (S : RangeSort) (place : BlobPlace) (ranges : List BlobRangePatch) :
    Keeps Still Quiet (beginExchange S place ranges : Call ρ _) := by
  refine .bind (compareBlobRanges_quiet _ _ _) fun compared => ?_
  split
  · exact .bind beginSavepoint_quiet fun _ => .pure _
  · exact .pure _

/-- A part of a program that can fail, and what it then has kept. -/
theorem attempt_meets {p : Call ρ β} (h : Keeps Still Quiet p) (c : Connection ρ) :
    Meets (fun _ => True) (attempt p) c fun r c' => ∃ result, r = .ok result ∧ Quiet c c' ∧
      (result.isOk = true → Still c c') := by
  refine .attempt ((h c).imp fun result c' hkeeps => ⟨result, rfl, hkeeps.1, fun hok => ?_⟩)
  cases result with
  | ok b => exact hkeeps.2 b rfl
  | error => cases hok

/-- Preparing a statement begins and ends no transaction. -/
theorem prepare_quiet (q : Statement ρ) : Keeps Still Quiet (prepare q) := by
  have hengine : Keeps Still Quiet (engine fun e => .ok ((), e) : Call ρ Unit) :=
    engine_quiet fun e b e' h => by cases h; rfl
  refine .bind requireOpen_quiet fun _ => .bind hengine fun _ c => ?_
  refine .bind ((attempt_meets hengine c).imp fun r c₁ h => ⟨fun result hresult => ?_, ?_⟩)
  · obtain ⟨result, rfl, hquiet, hstill⟩ := h
    obtain rfl := Except.ok.inj hresult
    cases result with
    | error => exact .fail ⟨hquiet, nofun⟩
    | ok => exact .pure ⟨hquiet, fun _ _ => hstill rfl⟩
  · obtain ⟨result, rfl, -⟩ := h
    nofun

end Sql

end FileProvider
