import FileProvider.Sql.Windows

/-!
# Patches of the catalog

`Database::patchBlob` of the catalog writes a value in runs that take up short stretches of equal
bytes; that of the native library writes no byte that stands there already. Either leaves the
replacement.

Both layers are the same loop over windows with different scans, so what is proved is that each scan
finds the spans of the bytes that differ, with a gap of one byte for the one and of 32 for the
other. What is written is noted, so that the theorem can tell how many bytes were.
-/

namespace FileProvider

open Bytes

namespace Catalog

inductive FileCode where
  | invalidPath | notFound | alreadyExists | conflict | limitExceeded | corruptFile | ioError
  | timedOut
deriving DecidableEq

structure FileError where
  code : FileCode
  message : String
deriving DecidableEq

/-- A call of the database of the catalog. -/
abbrev DatabaseCall (ρ β : Type) : Type :=
  Program (Sql.Connection ρ) (Answer Sql.Failure) FileError β

namespace Database

open Sql (BlobPlace Connection Differs PatchCalls Patchable Scan window total)

variable {ρ β : Type}

/-- `check`: what the engine says of a call that failed, as an error of a file. -/
def check (p : Sql.Call ρ β) : DatabaseCall ρ β := fun c l =>
  match p c l with
  | (.ok b, c, l) => (.ok b, c, l)
  | (.error e, c, l) => (.error ⟨.ioError, e.message⟩, c, l)

/-- The bytes of two values differ at a place, as the scan sees it. -/
def differs (previous replacement : Bytes) (i : Nat) : Bool := previous[i]? ≠ replacement[i]?

/-- The scan of a window, from a place in it on: each run that is found is written. A run ends
before 32 bytes that do not differ. -/
def patchWindow {σ ε : Type} (calls : PatchCalls σ ε) (offset count : Nat)
    (previous replacement : Bytes) : Nat → Nat → Nat → Program σ (Answer Sql.Failure) ε Nat
  | 0, _, written => pure written
  | fuel + 1, index, written => do
      if count ≤ index then pure written
      else if previous[index]? = replacement[index]? then
        patchWindow calls offset count previous replacement fuel (index + 1) written
      else do
        let run := extendSpan (differs previous replacement) 32 count count index (index + 1)
        calls.writeBlob (run.2 - index) offset index
          ((replacement.drop index).take (run.2 - index))
        patchWindow calls offset count previous replacement fuel run.1 (written + (run.2 - index))

/-- The scan of `patchBlob`. -/
def scan {σ ε : Type} (calls : PatchCalls σ ε) : Scan σ ε :=
  fun offset count previous replacement =>
    patchWindow calls offset count previous replacement count 0 0

/-- The calls of `patchBlob`. -/
def blobCalls (place : BlobPlace) : PatchCalls (Connection ρ) FileError where
  ready := do
    Program.failIf ((← Program.state).inTransaction = false)
      ⟨.conflict, "BLOB patches require an explicit transaction"⟩
  openBlob := check (Sql.openBlob place)
  readBlob count offset := check (do Sql.readBlob place (← Sql.toInt count) (← Sql.toInt offset))
  writeBlob count offset index bytes := check (do
    Sql.writeBlob place (← Sql.toInt count) (← Sql.toInt (← Sql.add64 offset index)) bytes)
  closeBlob := check Sql.closeBlob

/-- `Database::patchBlob`. -/
def patchBlob (place : BlobPlace) (replacement : Bytes) : DatabaseCall ρ Nat :=
  (blobCalls place).patchBlob (scan (blobCalls place))
    ⟨.limitExceeded, "BLOB patch size must match existing storage"⟩ replacement

/-- `patchBlob`, with a note of each span that is written. -/
def notedPatchBlob (place : BlobPlace) (replacement : Bytes) :
    Program (Connection ρ × List Span) (Answer Sql.Failure) FileError Nat :=
  (blobCalls place).noted.patchBlob (scan (blobCalls place).noted)
    ⟨.limitExceeded, "BLOB patch size must match existing storage"⟩ replacement

/-! ## What is written -/

variable {place : BlobPlace} {replacement value u : Bytes} {c : Connection ρ} {l n : List Span}

/-- A checked call that succeeds is the call. -/
theorem check_run {p : Sql.Call ρ β} {b : β} {c' : Connection ρ} (h : p c [] = (.ok b, c', [])) :
    check p c [] = (.ok b, c', []) := by
  unfold check
  rw [h]

/-- The source's comparison of two bytes is that they differ. -/
theorem differs_iff {before after : Bytes} {i : Nat} :
    differs before after i = true ↔ Differs before after i := decide_eq_true_iff

/-- Noting what is written does not change the scan. -/
theorem scan_over {σ ε : Type} (calls : PatchCalls σ ε) :
    PatchCalls.ScansOver (scan calls.noted) (scan calls) := by
  intro offset count before after
  have hall : ∀ fuel index written, Program.Over Prod.fst
      (patchWindow calls.noted offset count before after fuel index written)
      (patchWindow calls offset count before after fuel index written) := by
    intro fuel
    induction fuel with
    | zero => exact fun _ written => .pure written
    | succ fuel ih =>
        intro index written
        unfold patchWindow
        split
        · exact .pure written
        · split
          · exact ih _ _
          · exact .bind (PatchCalls.noted_writeBlob _ _ _ _) fun _ => ih _ _
  exact hall _ _ _

/-- The runs of one window are written as spans. A run goes on over fewer than 32 equal bytes, which
is the gap of the spans; the induction is on the fuel of the loop. -/
theorem patchWindow_run {ε : Type} {calls : PatchCalls (Connection ρ) ε}
    {offset count fuel index : Nat} (previous : Bytes) (written : Nat)
    (hcalls : Sql.Serves calls place) (h : c.stored place = some u)
    (hinside : offset + count ≤ u.length) (hsize : replacement.length = u.length)
    (hfuel : count ≤ index + fuel) (hindex : index ≤ count) :
    ∃ l, Spans (Differs previous (window replacement offset count)) 32 index count l ∧
      patchWindow calls.noted offset count previous (window replacement offset count) fuel index
          written (c, n) []
        = (.ok (written + total l), (c.patched place replacement (l.map (Span.shift offset)),
            n ++ l.map (Span.shift offset)), []) := by
  have hspans : ∀ {fuel index : Nat}, count ≤ index + fuel → index ≤ count →
      Spans (Differs previous (window replacement offset count)) 32 index count
        (spansFrom (differs previous (window replacement offset count)) 32 count fuel index) := by
    intro fuel index hfuel hindex
    exact (spansFrom_spans (by omega) hfuel hindex).congr fun i _ _ => differs_iff
  refine ⟨_, hspans hfuel hindex, ?_⟩
  induction fuel generalizing index written c u n with
  | zero =>
      rw [spansFrom, List.map_nil, Connection.patched_nil, List.append_nil]
      rfl
  | succ fuel ih =>
      have hall := hspans hfuel hindex
      unfold patchWindow
      rw [spansFrom] at hall ⊢
      split
      · rw [List.map_nil, Connection.patched_nil, List.append_nil]
        rfl
      · next hmore =>
          rw [if_neg hmore] at hall
          split
          · next hequal =>
              rw [if_neg fun hd => differs_iff.1 hd hequal]
              exact ih written h hinside hsize (by omega) (by omega)
          · next hdiffers =>
              rw [if_pos (differs_iff.2 hdiffers)] at hall ⊢
              dsimp only at hall ⊢
              obtain ⟨i, hi, hle, hcount, -⟩ := extendSpan_begin (show 0 < 32 by omega)
                (differs_iff.2 hdiffers) (show index < count by omega)
              generalize extendSpan (differs previous (window replacement offset count)) 32 count
                count index (index + 1) = run at hall hi ⊢
              obtain ⟨-, hlt, hlast⟩ := hall.bounds _ List.mem_cons_self
              dsimp only at hlt hlast
              have hend : index + (run.2 - index) = run.2 := by omega
              have hwrite := hcalls.note_writeBlob (n := n) offset index
                (run.2 - index) h (by omega)
                replacement
              rw [← Sql.take_drop_window (show index + (run.2 - index) ≤ count by omega), hend]
                at hwrite
              have hnext := Sql.stored_patched_self replacement
                [⟨offset + index, offset + run.2⟩] h
              have hnextLength := Sql.length_writeSpans replacement
                [⟨offset + index, offset + run.2⟩] u
              have hrest := ih (written + (run.2 - index))
                (n := n ++ [⟨offset + index, offset + run.2⟩])
                hnext (by omega) (by omega) (show count ≤ run.1 + fuel by omega) (by omega)
              rw [Program.bind_run, hwrite]
              dsimp only
              rw [hrest, Connection.patched_append, Sql.total_cons, Nat.add_assoc,
                List.append_assoc]
              rfl

/-- The scan of the source finds the spans with a gap of 32. -/
theorem scan_finds {ε : Type} {calls : PatchCalls (Connection ρ) ε}
    (hcalls : Sql.Serves calls place) : Sql.Finds 32 place (scan calls.noted) := by
  intro c n u replacement before offset count h hsize hinside hbefore
  obtain ⟨l, hl, hrun⟩ := patchWindow_run (n := n) before 0 hcalls h hinside hsize
    (show count ≤ 0 + count by omega) (Nat.zero_le count)
  rw [Nat.zero_add] at hrun
  exact ⟨l, hl, hrun⟩

/-- The calls of the catalog serve the scan. -/
theorem blobCalls_serve : Sql.Serves (blobCalls (ρ := ρ) place) place where
  openBlob h := check_run (Sql.openBlob_run h)
  readBlob h hinside := check_run ((Sql.blobCalls_serve []).readBlob h hinside)
  writeBlob replacement h hin := check_run ((Sql.blobCalls_serve []).writeBlob replacement h hin)
  closeBlob h := check_run (Sql.closeBlob_run h)

/-- Noting what is written does not change the patch. -/
theorem notedPatchBlob_over : Program.Over Prod.fst (notedPatchBlob (ρ := ρ) place replacement)
    (patchBlob place replacement) :=
  PatchCalls.noted_patchBlob (scan_over _) _ _

/-- A patch of the catalog writes spans that end before 32 bytes that do not differ. -/
theorem notedPatchBlob_run (h : c.stored place = some value) (htransaction : c.inTransaction = true)
    (hlength : replacement.length = value.length) :
    ∃ l, Spans (Differs value replacement) 32 0 value.length l ∧ (∀ s ∈ l, Sql.InWindow s) ∧
      notedPatchBlob place replacement (c, []) []
        = (.ok (total l), (c.patched place replacement l, l), []) := by
  refine Sql.noted_patchBlob_run _ blobCalls_serve ?_ (scan_finds blobCalls_serve) h hlength
  have hopened : ¬ c.inTransaction = false := by
    rw [htransaction]
    exact Bool.noConfusion
  exact Program.failIf_run hopened _ _ _

/-- The spans of the native library count the bytes that differ. -/
theorem total_eq (h : Spans (Differs value replacement) 1 0 value.length l) :
    total l = (List.range value.length).countP (differs value replacement) := by
  have hspans := h.congr (q := fun i => differs value replacement i = true)
    fun _ _ _ => differs_iff.symm
  have hsum := hspans.sum_size (Nat.zero_le _)
  rw [Nat.sub_zero, ← List.range_eq_range'] at hsum
  exact hsum

/-- What a patch leaves: the replacement at its place, and every other value as it was. -/
def Leaves (c c' : Connection ρ) (place : BlobPlace) (replacement : Bytes) : Prop :=
  c'.stored place = some replacement ∧ ∀ p, p ≠ place → c'.stored p = c.stored p

/-- Writing the spans of the difference leaves the replacement. -/
theorem leaves_of_spans {gap : Nat} (h : c.stored place = some value)
    (hlength : replacement.length = value.length)
    (hspans : Spans (Differs value replacement) gap 0 value.length l) :
    Leaves c (c.patched place replacement l) place replacement := by
  refine ⟨?_, fun p hp => ?_⟩
  · rw [Sql.stored_patched_self replacement l h, Sql.writeSpans_eq hlength hspans]
  · rw [Connection.stored_patched, if_neg hp]

/-- **A patch leaves exactly the replacement.** A patch with notes does what the patch does, for
all answers of the engine. When the engine does what it is asked, the native library writes the
bytes that differ, and no other; the catalog writes spans that do not overlap, lie in one window
each, begin and end with a byte that differs, and hold no 32 bytes in a row that do not. Either
gives how many bytes it has written. -/
theorem patchBlob_leaves (htransaction : c.inTransaction = true) (h : c.stored place = some value)
    (hlength : replacement.length = value.length) :
    (Program.Over Prod.fst (Sql.notedPatchBlob (ρ := ρ) place replacement)
        (Sql.patchBlob place replacement) ∧
      (place.table ≠ [] ∧ place.column ≠ [] ∧ 0 ∉ place.table ∧ 0 ∉ place.column →
        ∃ l c', Sql.patchBlob place replacement c []
            = (.ok ((List.range value.length).countP (differs value replacement)), c', []) ∧
          Sql.notedPatchBlob place replacement (c, []) [] = (.ok (total l), (c', l), []) ∧
          Leaves c c' place replacement ∧
          Spans (Differs value replacement) 1 0 value.length l ∧
          ∀ s ∈ l, ∀ i, s.Covers i → Differs value replacement i)) ∧
      Program.Over Prod.fst (notedPatchBlob (ρ := ρ) place replacement)
        (patchBlob place replacement) ∧
      ∃ l c', patchBlob place replacement c [] = (.ok (total l), c', []) ∧
        notedPatchBlob place replacement (c, []) [] = (.ok (total l), (c', l), []) ∧
        Leaves c c' place replacement ∧
        Spans (Differs value replacement) 32 0 value.length l ∧ ∀ s ∈ l, Sql.InWindow s := by
  refine ⟨⟨Sql.notedPatchBlob_over, fun hnames => ?_⟩, notedPatchBlob_over, ?_⟩
  · obtain ⟨l, hl, hrun⟩ := Sql.notedPatchBlob_run ⟨h, htransaction, hnames, hlength⟩
    refine ⟨l, _, ?_, hrun, leaves_of_spans h hlength hl, hl, fun s hs i => hl.all_of_gap_one hs⟩
    rw [← total_eq hl]
    exact Sql.notedPatchBlob_over.run hrun
  · obtain ⟨l, hl, hin, hrun⟩ := notedPatchBlob_run h htransaction hlength
    exact ⟨l, _, notedPatchBlob_over.run hrun, hrun, leaves_of_spans h hlength hl, hl, hin⟩

def samplePlace : BlobPlace := ⟨[116], [118], 1⟩

def sampleContent : Sql.Content Unit where
  blobs p := if p = samplePlace then some [1, 2, 3, 4] else none
  rest := ()
  bounded p value h := by
    split at h
    · cases h
      decide
    · cases h

def sampleConnection : Connection Unit :=
  ⟨some ⟨sampleContent, some (0, sampleContent), none, 1⟩, 1, 1, Fin.last 2147483647, false, false⟩

/-- Two bytes of four are patched by both layers. -/
theorem patchBlob_leaves_sample :
    (∃ c', Sql.patchBlob samplePlace [1, 9, 3, 8] sampleConnection [] = (.ok 2, c', []) ∧
      Leaves sampleConnection c' samplePlace [1, 9, 3, 8]) ∧
      ∃ n c', patchBlob samplePlace [1, 9, 3, 8] sampleConnection [] = (.ok n, c', []) ∧
        Leaves sampleConnection c' samplePlace [1, 9, 3, 8] := by
  obtain ⟨⟨-, hnative⟩, -, l, c', hrun, -, hleaves, -⟩ := patchBlob_leaves
    (c := sampleConnection) rfl
    (show sampleConnection.stored samplePlace = some [1, 2, 3, 4] from rfl)
    (show ([1, 9, 3, 8] : Bytes).length = [1, 2, 3, 4].length from rfl)
  refine ⟨?_, total l, c', hrun, hleaves⟩
  obtain ⟨_, c', hrun, -, hleaves, -⟩ := hnative
    ⟨List.cons_ne_nil _ _, List.cons_ne_nil _ _, by decide, by decide⟩
  exact ⟨c', hrun, hleaves⟩

end Database

end Catalog

end FileProvider
