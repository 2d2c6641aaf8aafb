import FileProvider.Sql.Patches

/-!
# Patches in windows

The native library and the catalog patch a value alike: it is read in windows of 4096 bytes, and
each window is scanned for runs of bytes that differ, which are written. They differ in what ends a
run. The calls of the engine are a parameter, so that a patch can be run with a note of each span
that it writes.

What is proved of a scan is that it finds the spans of the bytes that differ, within one window; a
patch then writes the spans of all windows, in their order. The notes are for the proof and the
theorem, and change nothing.
-/

namespace FileProvider

open Bytes

namespace Sql

/-- The calls of the engine that a patch makes. `ready` is what is checked before the first. -/
structure PatchCalls (σ ε : Type) where
  ready : Program σ (Answer Failure) ε Unit
  openBlob : Program σ (Answer Failure) ε Nat
  readBlob (count offset : Nat) : Program σ (Answer Failure) ε Bytes
  writeBlob (count offset cursor : Nat) (bytes : Bytes) : Program σ (Answer Failure) ε Unit
  closeBlob : Program σ (Answer Failure) ε Unit

/-- The scan of a window: where it stands, how long it is, what stands there, and what is to stand
there. -/
abbrev Scan (σ ε : Type) : Type := Nat → Nat → Bytes → Bytes → Program σ (Answer Failure) ε Nat

namespace PatchCalls

variable {σ ε : Type}

/-- The windows of a value, of 4096 bytes. -/
def patchWindows (calls : PatchCalls σ ε) (scan : Scan σ ε) (replacement : Bytes) :
    Nat → Nat → Nat → Program σ (Answer Failure) ε Nat
  | 0, _, written => pure written
  | fuel + 1, offset, written => do
      if replacement.length ≤ offset then pure written
      else do
        let count := min 4096 (replacement.length - offset)
        let previous ← calls.readBlob count offset
        let changed ← scan offset count previous ((replacement.drop offset).take count)
        calls.patchWindows scan replacement fuel (offset + 4096) (written + changed)

/-- A patch of a value. -/
def patchBlob (calls : PatchCalls σ ε) (scan : Scan σ ε) (mismatch : ε) (replacement : Bytes) :
    Program σ (Answer Failure) ε Nat := do
  calls.ready
  let length ← calls.openBlob
  Program.failIf (replacement.length ≠ length) mismatch
  let written ← calls.patchWindows scan replacement replacement.length 0 0
  calls.closeBlob
  pure written

/-- The calls, with a note of each span that is written. -/
def noted (calls : PatchCalls σ ε) : PatchCalls (σ × List Span) ε where
  ready := Program.beside calls.ready
  openBlob := Program.beside calls.openBlob
  readBlob count offset := Program.beside (calls.readBlob count offset)
  writeBlob count offset cursor bytes := do
    let r ← Program.beside (calls.writeBlob count offset cursor bytes)
    Program.modify fun t => (t.1, t.2 ++ [⟨offset + cursor, offset + (cursor + count)⟩])
    pure r
  closeBlob := Program.beside calls.closeBlob

/-! ## Notes -/

variable {calls : PatchCalls σ ε} {scan : Scan σ ε} {scan' : Scan (σ × List Span) ε}

/-- A scan with notes does what the scan does. -/
def ScansOver (scan' : Scan (σ × List Span) ε) (scan : Scan σ ε) : Prop :=
  ∀ offset count before after,
    Program.Over Prod.fst (scan' offset count before after) (scan offset count before after)

/-- Noting what is written does not change a write. -/
theorem noted_writeBlob (count offset cursor : Nat) (bytes : Bytes) :
    Program.Over Prod.fst (calls.noted.writeBlob count offset cursor bytes)
      (calls.writeBlob count offset cursor bytes) := by
  refine Program.Over.modify (fun _ => ?_) (Program.Over.beside _)
  rfl

/-- Noting what is written does not change the loop over the windows, by induction on its fuel. -/
theorem noted_patchWindows (h : ScansOver scan' scan) (replacement : Bytes)
    (fuel offset written : Nat) :
    Program.Over Prod.fst (calls.noted.patchWindows scan' replacement fuel offset written)
      (calls.patchWindows scan replacement fuel offset written) := by
  induction fuel generalizing offset written with
  | zero => exact .pure written
  | succ fuel ih =>
      unfold patchWindows
      split
      · exact .pure written
      · refine .bind (.beside _) fun previous => .bind (h _ _ _ _) fun changed => ?_
        exact ih _ _

/-- A patch with notes does what the patch does. -/
theorem noted_patchBlob (h : ScansOver scan' scan) (mismatch : ε) (replacement : Bytes) :
    Program.Over Prod.fst (calls.noted.patchBlob scan' mismatch replacement)
      (calls.patchBlob scan mismatch replacement) := by
  refine .bind (.beside _) fun _ => .bind (.beside _) fun length => .bind (.failIf _ _) fun _ => ?_
  refine .bind (noted_patchWindows h _ _ _ _) fun written => .bind (.beside _) fun _ => ?_
  exact .pure written

end PatchCalls

/-! ## What is written -/

open Connection PatchCalls

variable {ρ ε : Type} {place : BlobPlace} {replacement value u : Bytes} {c : Connection ρ}
  {calls : PatchCalls (Connection ρ) ε} {n : List Span}

/-- The calls are those of an engine that does them. -/
structure Serves (calls : PatchCalls (Connection ρ) ε) (place : BlobPlace) : Prop where
  openBlob : ∀ {c : Connection ρ} {u : Bytes}, c.stored place = some u →
    calls.openBlob c [] = (.ok u.length, c, [])
  readBlob : ∀ {c : Connection ρ} {u : Bytes} {offset count : Nat}, c.stored place = some u →
    offset + count ≤ u.length →
    calls.readBlob count offset c [] = (.ok ((u.drop offset).take count), c, [])
  writeBlob : ∀ {c : Connection ρ} {u : Bytes} {offset cursor count : Nat} (replacement : Bytes),
    c.stored place = some u → offset + (cursor + count) ≤ u.length →
    calls.writeBlob count offset cursor ((replacement.drop (offset + cursor)).take count) c []
      = (.ok (), c.patched place replacement [⟨offset + cursor, offset + (cursor + count)⟩], [])
  closeBlob : ∀ {c : Connection ρ} {u : Bytes}, c.stored place = some u →
    calls.closeBlob c [] = (.ok (), c, [])

/-- A write that is noted. -/
theorem Serves.note_writeBlob (offset cursor count : Nat) (hcalls : Serves calls place)
    (h : c.stored place = some u) (hin : offset + (cursor + count) ≤ u.length)
    (replacement : Bytes) :
    calls.noted.writeBlob count offset cursor ((replacement.drop (offset + cursor)).take count)
        (c, n) []
      = (.ok (), (c.patched place replacement [⟨offset + cursor, offset + (cursor + count)⟩],
          n ++ [⟨offset + cursor, offset + (cursor + count)⟩]), []) := by
  unfold noted
  dsimp only
  rw [Program.bind_run, Program.beside_run (hcalls.writeBlob replacement h hin)]
  rfl

/-- The scan of a window finds the spans of the bytes that differ, and writes them. -/
def Finds (gap : Nat) (place : BlobPlace) (scan : Scan (Connection ρ × List Span) ε) : Prop :=
  ∀ {c : Connection ρ} {n : List Span} {u replacement before : Bytes} {offset count : Nat},
    c.stored place = some u → replacement.length = u.length → offset + count ≤ u.length →
    before.length = count →
    ∃ l, Spans (Differs before (window replacement offset count)) gap 0 count l ∧
      scan offset count before (window replacement offset count) (c, n) []
        = (.ok (total l), (c.patched place replacement (l.map (Span.shift offset)),
            n ++ l.map (Span.shift offset)), [])

/-- A span that lies in one of the windows. -/
def InWindow (s : Span) : Prop := ∃ n, 4096 * n ≤ s.first ∧ s.last ≤ 4096 * (n + 1)

variable {gap : Nat} {scan : Scan (Connection ρ × List Span) ε}

/-- The windows of a patch, one after another. -/
theorem patchWindows_run {fuel offset : Nat} (written : Nat) (hcalls : Serves calls place)
    (hscan : Finds gap place scan) (h : c.stored place = some u)
    (hlength : u.length = replacement.length) (hvalue : value.length = replacement.length)
    (hsame : ∀ i, offset ≤ i → u[i]? = value[i]?) (hfuel : replacement.length ≤ offset + fuel)
    (hoffset : 4096 ∣ offset) :
    ∃ l, Spans (Differs value replacement) gap (min offset replacement.length)
        replacement.length l ∧ (∀ s ∈ l, InWindow s) ∧
      calls.noted.patchWindows scan replacement fuel offset written (c, n) []
        = (.ok (written + total l), (c.patched place replacement l, n ++ l), []) := by
  have hend : ∀ {offset written : Nat} {c : Connection ρ} {n : List Span},
      replacement.length ≤ offset → ∃ l,
        Spans (Differs value replacement) gap (min offset replacement.length) replacement.length l
          ∧ (∀ s ∈ l, InWindow s) ∧
          (Except.ok written, (c, n), []) = ((.ok (written + total l) : Except ε Nat),
            (c.patched place replacement l, n ++ l), ([] : List (Answer Failure))) := by
    intro offset written c n hle
    refine ⟨[], .nil (by omega), List.forall_mem_nil _, ?_⟩
    rw [patched_nil, List.append_nil]
    rfl
  induction fuel generalizing offset written c u n with
  | zero => exact hend (by omega)
  | succ fuel ih =>
      unfold PatchCalls.patchWindows
      split
      · next hle => exact hend hle
      · next hmore =>
          dsimp only
          generalize hcount : min 4096 (replacement.length - offset) = count
          have hinside : offset + count ≤ value.length := by omega
          obtain ⟨l, hl, hrun⟩ := hscan (n := n) h hlength.symm
            (show offset + count ≤ u.length by omega)
            (length_window hinside)
          have hspans := spans_of_window hl
          have hin : ∀ s ∈ l.map (Span.shift offset), InWindow s := by
            intro s hs
            have hbounds := hspans.bounds s hs
            obtain ⟨k, hk⟩ := hoffset
            exact ⟨k, by omega, by omega⟩
          have hnext := stored_patched_self replacement (l.map (Span.shift offset)) h
          have hnextLength := length_writeSpans replacement (l.map (Span.shift offset)) u
          have hbehind := same_behind hspans hlength.symm (by omega) hsame (by omega)
          obtain ⟨m, hm, hinRest, hrest⟩ := ih (written + total l)
            (n := n ++ l.map (Span.shift offset))
            hnext (by omega) (fun i hi => hbehind i (by omega))
            (show replacement.length ≤ offset + 4096 + fuel by omega)
            ((Nat.dvd_add_right hoffset).2 (Nat.dvd_refl _))
          refine ⟨l.map (Span.shift offset) ++ m, ?_, ?_, ?_⟩
          · rw [show min offset replacement.length = offset by omega]
            rw [show min (offset + 4096) replacement.length = offset + count by omega] at hm
            exact hspans.append hm (by omega) (by omega)
          · intro s hs
            exact (List.mem_append.1 hs).elim (hin s) (hinRest s)
          · have hread : calls.noted.readBlob count offset (c, n) []
                = (.ok (window value offset count), (c, n), []) := by
              have hread := hcalls.readBlob h (show offset + count ≤ u.length by omega)
              rw [window_eq hsame] at hread
              exact Program.beside_run hread n
            rw [Program.bind_run, hread]
            dsimp only
            rw [Program.bind_run,
              show (replacement.drop offset).take count = window replacement offset count from rfl,
              hrun]
            dsimp only
            rw [hrest, patched_append, total_append, total_shift, Nat.add_assoc, List.append_assoc]

/-- **A patch writes the spans of the bytes that differ**, each in one window, and gives how many
bytes it has written. -/
theorem noted_patchBlob_run (mismatch : ε) (hcalls : Serves calls place)
    (hready : calls.ready c [] = (.ok (), c, [])) (hscan : Finds gap place scan)
    (h : c.stored place = some value) (hlength : replacement.length = value.length) :
    ∃ l, Spans (Differs value replacement) gap 0 value.length l ∧ (∀ s ∈ l, InWindow s) ∧
      calls.noted.patchBlob scan mismatch replacement (c, []) []
        = (.ok (total l), (c.patched place replacement l, l), []) := by
  obtain ⟨l, hl, hin, hrun⟩ := patchWindows_run 0 (n := []) hcalls hscan h hlength.symm
    hlength.symm (fun _ _ => rfl) (show replacement.length ≤ 0 + replacement.length by omega)
    (Nat.dvd_zero _)
  rw [Nat.zero_min, hlength] at hl
  refine ⟨l, hl, hin, ?_⟩
  have hbegin : calls.noted.ready (c, []) [] = (.ok (), (c, []), []) :=
    Program.beside_run hready _
  have hopen : calls.noted.openBlob (c, []) [] = (.ok value.length, (c, []), []) :=
    Program.beside_run (hcalls.openBlob h) _
  have hclose : calls.noted.closeBlob (c.patched place replacement l, [] ++ l) []
      = (.ok (), (c.patched place replacement l, l), []) :=
    Program.beside_run (hcalls.closeBlob (stored_patched_self replacement l h)) _
  unfold PatchCalls.patchBlob
  rw [Program.bind_run, hbegin]
  dsimp only
  rw [Program.bind_run, hopen]
  dsimp only
  rw [Program.bind_run, Program.failIf_run (not_not.2 hlength)]
  dsimp only
  rw [Program.bind_run, hrun]
  dsimp only
  rw [Program.bind_run, hclose, Nat.zero_add]
  rfl

/-! ## Patches of the native library -/

/-- The calls of `patch_blob`. -/
def blobCalls (place : BlobPlace) (replacement : Bytes) : PatchCalls (Connection ρ) Error where
  ready := do
    requireOpen
    Program.failIf ((← Program.state).inTransaction = false)
      (invalid "BLOB patches require an explicit transaction")
    Program.failIf (place.table = [] ∨ place.column = [] ∨ 0 ∈ place.table ∨ 0 ∈ place.column
      ∨ maximumInt < replacement.length) (invalid "Invalid BLOB patch")
  openBlob := Sql.openBlob place
  readBlob count offset := do Sql.readBlob place (← toInt count) (← toInt offset)
  writeBlob count offset cursor bytes := do
    Sql.writeBlob place (← toInt count) (← toInt (← add64 offset cursor)) bytes
  closeBlob := Sql.closeBlob

/-- The runs of a window, from a place in it on. -/
def PatchCalls.writeRuns {σ ε : Type} (calls : PatchCalls σ ε) (offset : Nat)
    (before after : Bytes) : Nat → Nat → Nat → Program σ (Answer Failure) ε Nat
  | 0, _, written => pure written
  | fuel + 1, cursor, written => do
      if after.length ≤ cursor then pure written
      else if before[cursor]? = after[cursor]? then
        calls.writeRuns offset before after fuel (cursor + 1) written
      else do
        let count := runLength (before.drop cursor) (after.drop cursor)
        calls.writeBlob count offset cursor ((after.drop cursor).take count)
        calls.writeRuns offset before after fuel (cursor + count) (written + count)

/-- The scan of `patch_blob`. -/
def PatchCalls.runs {σ ε : Type} (calls : PatchCalls σ ε) : Scan σ ε :=
  fun offset count before after => calls.writeRuns offset before after count 0 0

/-- The loop over the runs is that of the shared patch with the calls of a blob. -/
theorem writeRuns_eq (replacement : Bytes) (offset : Nat) (before after : Bytes)
    (fuel cursor written : Nat) :
    Sql.writeRuns place offset before after fuel cursor written
      = (blobCalls (ρ := ρ) place replacement).writeRuns offset before after fuel cursor
        written := by
  induction fuel generalizing cursor written with
  | zero => rfl
  | succ fuel ih =>
      unfold Sql.writeRuns PatchCalls.writeRuns
      split
      · rfl
      · split
        · exact ih _ _
        · unfold blobCalls
          dsimp only
          rw [Program.bind_assoc]
          simp only [Program.bind_assoc, ih]
          rfl

/-- The loop over the windows is that of the shared patch with the calls of a blob. -/
theorem patchPieces_eq (fuel offset written : Nat) :
    Sql.patchPieces place replacement fuel offset written
      = (blobCalls (ρ := ρ) place replacement).patchWindows
          (blobCalls place replacement).runs replacement fuel offset written := by
  induction fuel generalizing offset written with
  | zero => rfl
  | succ fuel ih =>
      unfold Sql.patchPieces PatchCalls.patchWindows PatchCalls.runs
      split
      · rfl
      · simp only [ih, writeRuns_eq replacement]
        rfl

/-- `patch_blob` is the patch with its calls and its scan. -/
theorem patchBlob_eq : Sql.patchBlob place replacement
    = (blobCalls (ρ := ρ) place replacement).patchBlob (blobCalls place replacement).runs
        (invalid "BLOB patch must preserve storage size") replacement := by
  unfold Sql.patchBlob PatchCalls.patchBlob
  rw [patchPieces_eq]
  show _ = (requireOpen >>= fun _ => _) >>= fun _ => _
  rw [Program.bind_assoc]
  refine congrArg (requireOpen >>= ·) (funext fun _ => ?_)
  show _ = (Program.state >>= fun _ => _) >>= fun _ => _
  rw [Program.bind_assoc]
  refine congrArg (Program.state >>= ·) (funext fun c => ?_)
  rw [Program.bind_assoc]
  rfl

/-- Noting what is written does not change the scan for runs. -/
theorem runs_over {σ ε : Type} (calls : PatchCalls σ ε) :
    ScansOver calls.noted.runs calls.runs := by
  intro offset count before after
  have hall : ∀ fuel cursor written, Program.Over Prod.fst
      (calls.noted.writeRuns offset before after fuel cursor written)
      (calls.writeRuns offset before after fuel cursor written) := by
    intro fuel
    induction fuel with
    | zero => exact fun _ written => .pure written
    | succ fuel ih =>
        intro cursor written
        unfold PatchCalls.writeRuns
        split
        · exact .pure written
        · split
          · exact ih _ _
          · exact .bind (noted_writeBlob _ _ _ _) fun _ => ih _ _
  exact hall _ _ _

/-- Every byte of a run differs. -/
theorem differs_of_lt_runLength {before after : Bytes} {k : Nat} (h : k < runLength before after) :
    Differs before after k := by
  unfold runLength at h
  have hp := List.takeWhile_prefix (l := before.zip after) fun b => decide (b.1 ≠ b.2)
  have hzip : k < (before.zip after).length := h.trans_le hp.length_le
  have hne := List.mem_takeWhile_imp (List.getElem_mem h)
  rw [hp.getElem h] at hne
  rw [List.getElem_zip] at hne
  rw [List.length_zip] at hzip
  unfold Differs
  rw [List.getElem?_eq_getElem (by omega), List.getElem?_eq_getElem (by omega)]
  simpa using hne

/-- The runs of one window are written as spans. -/
theorem writeRuns_run {offset count fuel cursor : Nat} {before : Bytes} (written : Nat)
    (hcalls : Serves calls place) (hbefore : before.length = count) (h : c.stored place = some u)
    (hinside : offset + count ≤ u.length) (hsize : replacement.length = u.length)
    (hfuel : count ≤ cursor + fuel) (hcursor : cursor ≤ count) :
    ∃ l, Spans (Differs before (window replacement offset count)) 1 cursor count l ∧
      calls.noted.writeRuns offset before (window replacement offset count) fuel cursor written
          (c, n) []
        = (.ok (written + total l), (c.patched place replacement (l.map (Span.shift offset)),
            n ++ l.map (Span.shift offset)), []) := by
  have hafter : (window replacement offset count).length = count := length_window (by omega)
  have hend : ∀ {cursor written : Nat} {c : Connection ρ} {n : List Span}, count ≤ cursor →
      ∃ l, Spans (Differs before (window replacement offset count)) 1 cursor count l ∧
        (Except.ok written, (c, n), []) = ((.ok (written + total l) : Except ε Nat),
          (c.patched place replacement (l.map (Span.shift offset)), n ++ l.map (Span.shift offset)),
          ([] : List (Answer Failure))) := by
    intro cursor written c n hle
    refine ⟨[], .nil hle, ?_⟩
    rw [List.map_nil, patched_nil, List.append_nil]
    rfl
  induction fuel generalizing cursor written c u n with
  | zero => exact hend (by omega)
  | succ fuel ih =>
      unfold PatchCalls.writeRuns
      split
      · next hle => exact hend (by omega)
      · next hmore =>
          split
          · next hequal =>
              obtain ⟨l, hl, hrun⟩ := ih (n := n) written h hinside hsize (by omega)
                (show cursor + 1 ≤ count by omega)
              exact ⟨l, hl.skip fun hne => hne hequal, hrun⟩
          · next hdiffers =>
              have hrun := runLength_le (before.drop cursor)
                ((window replacement offset count).drop cursor)
              have hpositive := runLength_pos (by omega) (by omega) hdiffers
              rw [List.length_drop, hafter] at hrun
              dsimp only
              generalize hn : runLength (before.drop cursor)
                ((window replacement offset count).drop cursor) = k at hrun hpositive
              have hall : ∀ i, cursor ≤ i → i < cursor + k →
                  Differs before (window replacement offset count) i := by
                intro i hi hlt
                have hd := differs_of_lt_runLength (hn ▸ (show i - cursor < k by omega))
                unfold Differs at hd
                rw [List.getElem?_drop, List.getElem?_drop,
                  show cursor + (i - cursor) = i by omega] at hd
                exact hd
              have hwrite := hcalls.note_writeBlob (n := n) offset cursor k h (by omega) replacement
              rw [← take_drop_window (show cursor + k ≤ count by omega)] at hwrite
              have hnext := stored_patched_self replacement
                [⟨offset + cursor, offset + (cursor + k)⟩] h
              have hnextLength := length_writeSpans replacement
                [⟨offset + cursor, offset + (cursor + k)⟩] u
              obtain ⟨l, hl, hrest⟩ := ih (written + k)
                (n := n ++ [⟨offset + cursor, offset + (cursor + k)⟩]) hnext (by omega) (by omega)
                (show count ≤ cursor + k + fuel by omega) (by omega)
              refine ⟨⟨cursor, cursor + k⟩ :: l, ?_, ?_⟩
              · refine hl.cons rfl (show cursor < cursor + k by omega) (Nat.le_refl _) (by omega)
                  ⟨hall _ (Nat.le_refl _) (show cursor < cursor + k by omega), ?_⟩
                  (fun i hi hlast => ?_) fun i hi hlt => ?_
                · exact hall _ (show cursor ≤ cursor + k - 1 by omega)
                    (show cursor + k - 1 < cursor + k by omega)
                · exact ⟨i, Nat.le_refl _, Nat.lt_succ_self i, hall i hi hlast⟩
                · exact absurd hi (Nat.not_le_of_lt hlt)
              · rw [Program.bind_run, hwrite]
                dsimp only
                rw [hrest, patched_append, total_cons, List.append_assoc, Nat.add_assoc]
                unfold Span.size
                dsimp only
                rw [Nat.add_sub_cancel_left]
                rfl

/-- The scan for runs finds the spans with a gap of one byte. -/
theorem runs_find (hcalls : Serves calls place) : Finds 1 place calls.noted.runs := by
  intro c n u replacement before offset count h hsize hinside hbefore
  obtain ⟨l, hl, hrun⟩ := writeRuns_run (n := n) 0 hcalls hbefore h hinside hsize
    (show count ≤ 0 + count by omega) (Nat.zero_le count)
  rw [Nat.zero_add] at hrun
  exact ⟨l, hl, hrun⟩

/-- The calls of a blob serve the scan. Reading and writing are bounded by the length of the value,
which fits into the numbers of the engine. -/
theorem blobCalls_serve (replacement : Bytes) :
    Serves (blobCalls (ρ := ρ) place replacement) place where
  openBlob h := openBlob_run h
  readBlob {c u offset count} h hinside := by
    have hbound := length_lt_of_stored h
    unfold blobCalls
    dsimp only
    rw [Program.bind_run, toInt_run (by omega)]
    dsimp only
    rw [Program.bind_run, toInt_run (by omega)]
    exact readBlob_run h hinside
  writeBlob {c u offset cursor count} replacement' h hin := by
    have hbound := length_lt_of_stored h
    have hwrite := writeBlob_run replacement' (s := ⟨offset + cursor, offset + (cursor + count)⟩) h
      (show offset + cursor ≤ offset + (cursor + count) by omega) hin
    unfold spanBytes Span.size at hwrite
    dsimp only at hwrite
    rw [show offset + (cursor + count) - (offset + cursor) = count by omega] at hwrite
    unfold blobCalls
    dsimp only
    rw [Program.bind_run, toInt_run (by omega)]
    dsimp only
    rw [Program.bind_run, add64_run (by omega)]
    dsimp only
    rw [Program.bind_run, toInt_run (by omega)]
    exact hwrite
  closeBlob h := closeBlob_run h

/-- What it takes to patch a value: a connection in a transaction, names of a table and a column,
and a replacement as long as the value. -/
structure Patchable (c : Connection ρ) (place : BlobPlace) (value replacement : Bytes) : Prop where
  stored : c.stored place = some value
  transaction : c.inTransaction = true
  names : place.table ≠ [] ∧ place.column ≠ [] ∧ 0 ∉ place.table ∧ 0 ∉ place.column
  length : replacement.length = value.length

/-- Where a patch is possible, its checks pass. The connection is open and has a transaction, the
names are valid, and the length is within the numbers of the engine. -/
theorem Patchable.ready (h : Patchable c place value replacement) :
    (blobCalls place replacement).ready c [] = (.ok (), c, []) := by
  have hbound := length_lt_of_stored h.stored
  obtain ⟨e, he, -⟩ := Option.bind_eq_some_iff.1 h.stored
  have hopen : requireOpen c [] = (.ok (), c, []) := by
    rw [requireOpen, Program.bind_run]
    exact Program.failIf_run (by rw [he]; exact Bool.false_ne_true) _ _ _
  have hnames : ¬ (place.table = [] ∨ place.column = [] ∨ 0 ∈ place.table ∨ 0 ∈ place.column
      ∨ maximumInt < replacement.length) := by
    have hnames := h.names
    have hlength := h.length
    unfold maximumInt
    rintro (hn | hn | hn | hn | hn)
    · exact hnames.1 hn
    · exact hnames.2.1 hn
    · exact hnames.2.2.1 hn
    · exact hnames.2.2.2 hn
    · omega
  have htransaction : ¬ c.inTransaction = false := by
    rw [h.transaction]
    exact Bool.noConfusion
  unfold blobCalls
  dsimp only
  rw [Program.bind_run, hopen]
  dsimp only
  rw [Program.bind_run, show Program.state c [] = (.ok c, c, []) from rfl]
  dsimp only
  rw [Program.bind_run, Program.failIf_run htransaction]
  exact Program.failIf_run hnames _ _ _

/-- `patch_blob`, with a note of each span that is written. -/
def notedPatchBlob (place : BlobPlace) (replacement : Bytes) :
    Program (Connection ρ × List Span) (Answer Failure) Error Nat :=
  (blobCalls place replacement).noted.patchBlob (blobCalls place replacement).noted.runs
    (invalid "BLOB patch must preserve storage size") replacement

/-- Noting what is written does not change the patch. -/
theorem notedPatchBlob_over : Program.Over Prod.fst (notedPatchBlob (ρ := ρ) place replacement)
    (Sql.patchBlob place replacement) := by
  rw [patchBlob_eq]
  exact noted_patchBlob (runs_over _) _ _

/-- A patch of the native library writes the bytes that differ, and no other. -/
theorem notedPatchBlob_run (h : Patchable c place value replacement) :
    ∃ l, Spans (Differs value replacement) 1 0 value.length l ∧
      notedPatchBlob place replacement (c, []) []
        = (.ok (total l), (c.patched place replacement l, l), []) := by
  have hcalls : Serves (blobCalls (ρ := ρ) place replacement) place := blobCalls_serve replacement
  obtain ⟨l, hl, -, hrun⟩ := noted_patchBlob_run
    (invalid "BLOB patch must preserve storage size") hcalls h.ready (runs_find hcalls) h.stored
    h.length
  exact ⟨l, hl, hrun⟩

end Sql

end FileProvider
