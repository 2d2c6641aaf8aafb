import Mathlib.Algebra.Order.BigOperators.Group.List
import FileProvider.Library.WorkerPool
import FileProvider.Object.Reachable

/-!
# Batches and single imports

`importFile` reads its source as a stream while it stores it; `importFiles` has a pool of workers
read every source ahead and splits what they read. Both loops cut a content into the same blocks, so
where the sources do not change a batch stores what its files would store one after the other, and
it stores nothing unless every one of them can be imported.

Sources are read through a stream that may give fewer bytes than were asked for. The loops are
compared by the blocks they store, so neither how a stream is cut nor how the workers are scheduled
shows in what is stored; the pool is that of `Library.WorkerPool`.
-/

namespace FileProvider

open Bytes Fallible Impl

variable {P : Platform} {m : Impl} {db db' : ObjectTables}

/-! ## The loops -/

namespace Impl

/-- The loop over a stream. Each `read` asks for a full chunk and `gcount` is what it got; one that
got less is the last. -/
def streamReads (rest : Bytes) : List Bytes :=
  if rest.take chunkBytes = [] then []
  else if (rest.take chunkBytes).length < chunkBytes then [rest.take chunkBytes]
  else rest.take chunkBytes :: streamReads (rest.drop chunkBytes)
termination_by rest.length
decreasing_by
  have hpos : 0 < chunkBytes := chunkBytes_pos
  simp only [List.length_take, List.length_drop] at *
  omega

/-- The loop over bytes that were read ahead, in steps of a chunk. -/
def spanReads (bytes : Bytes) (offset : Nat) : List Bytes :=
  if offset < bytes.length then
    (bytes.drop offset).take (min chunkBytes (bytes.length - offset))
      :: spanReads bytes (offset + chunkBytes)
  else []
termination_by bytes.length - offset
decreasing_by
  have hpos : 0 < chunkBytes := chunkBytes_pos
  omega

end Impl

/-- What a worker of `readObjectBatch` reads of a file, from an offset on. -/
def readPayload (input : SourceFile) (token : StopToken) (offset poll : Nat) : Fallible Bytes :=
  if offset < input.size then do
    failIf (token poll) "object packaging cancelled"
    let length := min chunkBytes (input.size - offset)
    let bytes := (input.content.drop offset).take length
    failIf (bytes.length ≠ length) "object batch source changed or read failed"
    let rest ← readPayload input token (offset + length) (poll + 1)
    pure (bytes ++ rest)
  else pure []
termination_by input.size - offset
decreasing_by
  have hpos : 0 < chunkBytes := chunkBytes_pos
  omega

/-- The task of a worker for one file. -/
def readSource (input : SourceFile) (token : StopToken) : Fallible Bytes := do
  failIf (token 0) "object packaging cancelled"
  failIf (input.opens = false) "cannot read object batch source"
  let bytes ← readPayload input token 0 1
  failIf (token ((spanReads bytes 0).length + 1)) "object packaging cancelled"
  failIf (input.stable = false) "object batch source changed during read"
  pure bytes

/-- `ObjectSource::inspect`, as far as the size. -/
def inspectSource (input : SourceFile) : Fallible Nat := do
  failIf (input.direct = false) "redirected object source"
  failIf (input.regular = false) "invalid object source handle"
  pure input.size

/-! ## Batches of source files -/

/-- A file of a batch, with what its worker sees of the cancellation. -/
structure BatchFile where
  source : SourceFile
  polled : StopToken
  logicalPath : Bytes
  options : ObjectWriteOptions

namespace BatchFile

/-- The file as `importFiles` meets it. -/
def toImport (f : BatchFile) : ObjectImport where
  inspected := inspectSource f.source
  read := readSource f.source f.polled
  unchanged := f.source.stable
  logicalPath := f.logicalPath
  options := f.options

@[simp] theorem toImport_options (f : BatchFile) : f.toImport.options = f.options := rfl

@[simp] theorem toImport_logicalPath (f : BatchFile) : f.toImport.logicalPath = f.logicalPath := rfl

/-- The bytes of its metadata that count towards the limit of a batch. -/
def metadataBytes (s : ObjectSession) (f : BatchFile) : Nat :=
  s.author.profile.payload.length + (f.options.authorship.map (·.payload.length)).getD 0

/-- No one asks to stop it. -/
def Unstopped (f : BatchFile) : Prop :=
  f.polled = (fun _ => false) ∧ f.options.cancellation = fun _ => false

end BatchFile

/-- A source that stays as it is. A read error cuts its content short. -/
structure SourceFile.Unchanged (f : SourceFile) : Prop where
  stable : f.stable = true
  whole : f.bad = false → f.content.length = f.size
  short : f.bad = true → f.content.length < f.size

/-- The draws of a batch from one of its files on. -/
def Draws.from (draws : Draws) (i : Nat) : Draws :=
  ⟨fun j => draws.random (i + j), fun j => draws.now (i + j)⟩

/-- The files imported by calls of their own, one after the other. -/
def importSequence (P : Platform) (m : Impl) (session : Bytes) (draws : Draws) :
    List BatchFile → Nat → ObjectTables → Fallible (List ObjectRecord × ObjectTables)
  | [], _, db => pure ([], db)
  | f :: files, i, db => do
      let (r, db) ← ObjectStore.importFile P m db f.source f.logicalPath session f.options
        (draws.from i)
      let (records, db) ← importSequence P m session draws files (i + 1) db
      pure (r :: records, db)

/-! ## The loops cut alike -/

/-- A stream is read in whole chunks with a short one at the end. -/
theorem streamReads_eq (content : Bytes) :
    streamReads content = Blocks.split chunkBytes content := by
  induction content using Blocks.induction chunkBytes_pos with
  | nil =>
      rw [streamReads, List.take_nil, if_pos rfl, Blocks.split_nil]
  | block content hne ih =>
      have htake : content.take chunkBytes ≠ [] := by
        rw [Ne, List.take_eq_nil_iff, not_or]
        exact ⟨chunkBytes_pos.ne', hne⟩
      rw [streamReads, if_neg htake, Blocks.split_of_ne_nil chunkBytes_pos hne, ih]
      split
      · next hshort =>
          have hdrop : content.drop chunkBytes = [] := by
            rw [List.length_take] at hshort
            exact List.drop_eq_nil_of_le (by omega)
          rw [hdrop, Blocks.split_nil]
      · rfl

/-- Bytes in memory are read in the same way. -/
theorem spanReads_eq (bytes : Bytes) (offset : Nat) :
    spanReads bytes offset = Blocks.split chunkBytes (bytes.drop offset) := by
  induction offset using spanReads.induct bytes with
  | case1 offset hlt ih =>
      have hne : bytes.drop offset ≠ [] := by
        rw [Ne, List.drop_eq_nil_iff]
        omega
      have htake : (bytes.drop offset).take (min chunkBytes (bytes.length - offset))
          = (bytes.drop offset).take chunkBytes := by
        rw [List.take_eq_take_iff, List.length_drop]
        omega
      rw [spanReads, if_pos hlt, ih, Blocks.split_of_ne_nil chunkBytes_pos hne, List.drop_drop,
        htake]
  | case2 offset hge =>
      rw [spanReads, if_neg hge, List.drop_eq_nil_of_le (Nat.not_lt.1 hge), Blocks.split_nil]

/-! ## Reading ahead -/

/-- A worker reads what is left of a source that is long enough. -/
theorem readPayload_ok {input : SourceFile} {offset poll : Nat}
    (hsize : input.size ≤ input.content.length) :
    readPayload input (fun _ => false) offset poll
      = .ok ((input.content.drop offset).take (input.size - offset)) := by
  induction offset, poll using readPayload.induct input with
  | case1 offset poll hlt ih =>
      generalize hlength : min chunkBytes (input.size - offset) = length at ih
      have hread : ((input.content.drop offset).take length).length = length := by
        rw [List.length_take, List.length_drop]
        omega
      rw [readPayload, if_pos hlt, hlength]
      refine bind_ok.2 ⟨(), rfl, bind_ok.2 ⟨(), failIf_ok.2 (not_not_intro hread),
        bind_ok.2 ⟨_, ih, ?_⟩⟩⟩
      have hrest : input.size - offset = length + (input.size - (offset + length)) := by omega
      rw [hrest, List.take_add, List.drop_drop]
      rfl
  | case2 offset poll hge =>
      rw [readPayload, if_neg hge, Nat.sub_eq_zero_of_le (Nat.not_lt.1 hge), List.take_zero]
      rfl

/-- A worker refuses a source that ends too early. -/
theorem readPayload_short {input : SourceFile} {offset poll : Nat} {bytes : Bytes}
    (hsize : input.content.length < input.size) (hoffset : offset ≤ input.content.length) :
    readPayload input (fun _ => false) offset poll ≠ .ok bytes := by
  induction offset, poll using readPayload.induct input generalizing bytes with
  | case1 offset poll hlt ih =>
      rw [readPayload, if_pos hlt]
      intro h
      simp only [bind_ok, failIf_ok, not_not] at h
      obtain ⟨_, -, _, hlength, rest, hrest, -⟩ := h
      refine ih ?_ hrest
      rw [List.length_take, List.length_drop] at hlength
      omega
  | case2 offset poll hge =>
      omega

/-- A source that can be imported. -/
structure SourceFile.Readable (f : SourceFile) : Prop where
  direct : f.direct = true
  regular : f.regular = true
  opens : f.opens = true
  bad : f.bad = false
  bound : f.size ≤ int64Max

section
variable {f : SourceFile}

/-- A worker reads the content of an unchanged source. -/
theorem readSource_ok (hf : f.Unchanged) {bytes : Bytes} :
    readSource f (fun _ => false) = .ok bytes ↔
      f.opens = true ∧ f.bad = false ∧ bytes = f.content := by
  simp only [readSource, bind_ok, failIf_ok, pure_ok, hf.stable]
  cases hbad : f.bad with
  | true =>
      have hshort : ∀ b, readPayload f (fun _ => false) 0 1 ≠ .ok b := fun b =>
        readPayload_short (hf.short hbad) (Nat.zero_le _)
      constructor
      · rintro ⟨-, -, -, -, b, hb, -⟩
        exact absurd hb (hshort b)
      · rintro ⟨-, hfalse, -⟩
        cases hfalse
  | false =>
      have hwhole := hf.whole hbad
      have hread : readPayload f (fun _ => false) 0 1 = .ok f.content := by
        rw [readPayload_ok hwhole.ge, List.drop_zero, Nat.sub_zero, ← hwhole, List.take_length]
      constructor
      · rintro ⟨-, -, -, hopens, b, hb, -, -, -, -, rfl⟩
        rw [hread, Except.ok.injEq] at hb
        exact ⟨by simpa using hopens, rfl, hb.symm⟩
      · rintro ⟨hopens, -, rfl⟩
        exact ⟨(), Bool.false_ne_true, (), by simp [hopens], _, hread, (), Bool.false_ne_true, (),
          by simp, rfl⟩

/-- An inspected source is a direct regular file, of the size that is reported. -/
theorem inspectSource_ok {size : Nat} :
    inspectSource f = .ok size ↔ f.direct = true ∧ f.regular = true ∧ size = f.size := by
  simp only [inspectSource, bind_ok, failIf_ok, pure_ok, Bool.not_eq_false, exists_const]
  constructor
  · rintro ⟨hdirect, hregular, rfl⟩
    exact ⟨hdirect, hregular, rfl⟩
  · rintro ⟨hdirect, hregular, rfl⟩
    exact ⟨hdirect, hregular, rfl⟩

/-- **A source that is read as a stream is stored as one that was read ahead.** The blocks of the
stream are the content cut at the same places, and what is checked of the stream besides holds of an
unchanged file that can be read. -/
theorem ingest_iff (hf : f.Unchanged) {r : ObjectRecord} {token : StopToken}
    {x : List Chunk × ObjectRecord × ObjectTables} :
    ingest P db f r token = .ok x ↔
      f.Readable ∧ ingestPrepared P db ⟨f.content, f.stable⟩ r token = .ok x := by
  simp only [ingest, ingestPrepared, bind_ok, failIf_ok, pure_ok, Bool.not_eq_false, Nat.not_lt,
    not_or, not_not]
  constructor
  · rintro ⟨_, hdirect, _, hregular, _, hbound, _, hopens, blocks, hblocks, _, hrunning, _,
      ⟨hbad, hsize, hstable⟩, rfl⟩
    rw [← hsize] at hblocks
    exact ⟨⟨hdirect, hregular, hopens, Bool.not_eq_true _ ▸ hbad, hbound⟩, blocks, hblocks, (),
      hrunning, (), hstable, rfl⟩
  · rintro ⟨hr, blocks, hblocks, _, hrunning, _, hstable, rfl⟩
    have hsize := hf.whole hr.bad
    rw [hsize] at hblocks
    exact ⟨(), hr.direct, (), hr.regular, (), hr.bound, (), hr.opens, blocks, hblocks, (),
      hrunning, (), ⟨by simp [hr.bad], hsize, hstable⟩, rfl⟩

/-- **A source is imported from its stream as from what was read ahead.** -/
theorem importFile_iff (hf : f.Unchanged) {path raw : Bytes} {s : ObjectSession}
    {options : ObjectWriteOptions} {random : Fin 16 → UInt8} {now : Int}
    {x : ObjectRecord × ObjectTables} :
    Impl.importFile P m db (.file f) path s options raw random now = .ok x ↔ f.Readable ∧
      Impl.importFile P m db (.prepared ⟨f.content, f.stable⟩) path s options raw random now
        = .ok x := by
  simp only [Impl.importFile, ingestSource, bind_ok, Prod.exists, ingest_iff hf]
  constructor
  · rintro ⟨_, h₁, _, h₂, _, h₃, _, h₄, indexKey, created, hins, parts, r, stored,
      ⟨hr, hing⟩, hpub⟩
    exact ⟨hr, (), h₁, (), h₂, (), h₃, (), h₄, indexKey, created, hins, parts, r, stored, hing,
      hpub⟩
  · rintro ⟨hr, _, h₁, _, h₂, _, h₃, _, h₄, indexKey, created, hins, parts, r, stored, hing,
      hpub⟩
    exact ⟨(), h₁, (), h₂, (), h₃, (), h₄, indexKey, created, hins, parts, r, stored, ⟨hr, hing⟩,
      hpub⟩

end

/-! ## Batches and sequences -/

section
variable {session : Bytes} {draws : Draws} {files : List BatchFile} {s : ObjectSession}

/-- What the workers read of the files. -/
def preparedFiles (files : List BatchFile) : List PreparedObjectSource :=
  files.map fun f => ⟨f.source.content, f.source.stable⟩

/-- A batch publishes what single imports do. The induction is on the files, where the tables after
one file are those that the next one starts from. -/
theorem importPrepared_iff {i : Nat} {records : List ObjectRecord}
    (hsession : getSession db session true = .ok s)
    (hopen : ObjectStore.beginImmediate m = .ok ())
    (hfiles : ∀ f ∈ files, f.source.Unchanged ∧ f.source.Readable ∧ f.Unstopped) :
    ObjectStore.importPrepared P m s draws ((files.map (·.toImport)).zip (preparedFiles files)) i
        db = .ok (records, db') ↔
      importSequence P m session draws files i db = .ok (records, db') := by
  induction files generalizing i db db' records with
  | nil => rfl
  | cons f files ih =>
      obtain ⟨hunchanged, hreadable, -, hrunning⟩ := hfiles f List.mem_cons_self
      have hoptions : { f.options with
          cancellation := StopToken.after f.options.cancellation 3 } = f.options := by
        rw [hrunning]
        show ObjectWriteOptions.mk f.options.authorship f.options.sourceStamp _ = _
        rw [show StopToken.after (fun _ => false) 3 = f.options.cancellation from hrunning.symm]
      have hnext : ∀ {r mid}, Impl.importFile P m db (.prepared ⟨f.source.content,
          f.source.stable⟩) f.logicalPath s f.options [] (draws.random i) (draws.now i)
            = .ok (r, mid) → getSession mid session true = .ok s := by
        intro r mid h
        obtain ⟨_, _, _, hc, -⟩ := importFile_ok h (getSession_self hsession)
        exact hc.getSession hsession
      have hsingle : ∀ {x}, ObjectStore.importFile P m db f.source f.logicalPath session f.options
          (draws.from i) = .ok x ↔ Impl.importFile P m db (.prepared ⟨f.source.content,
            f.source.stable⟩) f.logicalPath s f.options [] (draws.random i) (draws.now i)
              = .ok x := by
        intro x
        simp only [ObjectStore.importFile, hopen, hsession, bind_ok, Except.ok.injEq,
          exists_const, exists_eq_left', true_and]
        exact (importFile_iff hunchanged).trans (and_iff_right hreadable)
      have hrest := fun f hf => hfiles f (List.mem_cons_of_mem _ hf)
      show ObjectStore.importPrepared P m s draws ((f.toImport, _) ::
        (files.map (·.toImport)).zip (preparedFiles files)) i db = _ ↔ _
      simp only [ObjectStore.importPrepared, importSequence, bind_ok, Prod.exists, pure_ok,
        hsingle, BatchFile.toImport_options, BatchFile.toImport_logicalPath, hoptions]
      constructor
      · rintro ⟨_, -, r, mid, hr, records, last, hrecords, heq⟩
        exact ⟨r, mid, hr, records, last, (ih (hnext hr) hrest).1 hrecords, heq⟩
      · rintro ⟨r, mid, hr, records, last, hrecords, heq⟩
        refine ⟨(), ?_, r, mid, hr, records, last, (ih (hnext hr) hrest).2 hrecords, heq⟩
        refine failIf_ok.2 ?_
        rw [hrunning]
        exact Bool.false_ne_true

/-- Files that were imported one after the other can be read. -/
theorem readable_of_sequence {i : Nat} {records : List ObjectRecord}
    (h : importSequence P m session draws files i db = .ok (records, db'))
    (hfiles : ∀ f ∈ files, f.source.Unchanged) : ∀ f ∈ files, f.source.Readable := by
  induction files generalizing i db db' records with
  | nil => exact fun f hf => absurd hf List.not_mem_nil
  | cons f files ih =>
      simp only [importSequence, ObjectStore.importFile, bind_ok, Prod.exists, pure_ok] at h
      obtain ⟨r, mid, ⟨_, -, s, -, himport⟩, _, _, hrest, -⟩ := h
      have hreadable := ((importFile_iff (hfiles f List.mem_cons_self)).1 himport).1
      refine List.forall_mem_cons.2 ⟨hreadable, ih hrest fun f hf => ?_⟩
      exact hfiles f (List.mem_cons_of_mem _ hf)

/-! ## The limits of a batch -/

/-- The budget of contents is kept exactly when all sources are direct regular files and their sizes
add up to it. -/
theorem contentBudget_ok (hfiles : ∀ f ∈ files, f.Unstopped) {remaining left : Nat} :
    ObjectStore.contentBudget (files.map (·.toImport)) remaining = .ok left ↔
      (∀ f ∈ files, f.source.direct = true ∧ f.source.regular = true) ∧
        (files.map (·.source.size)).sum + left = remaining := by
  induction files generalizing remaining with
  | nil =>
      simp only [List.map_nil, ObjectStore.contentBudget, pure_ok, List.sum_nil, Nat.zero_add,
        List.not_mem_nil, IsEmpty.forall_iff, implies_true, true_and]
      exact eq_comm
  | cons f files ih =>
      obtain ⟨-, hrunning⟩ := hfiles f List.mem_cons_self
      have hinspected : f.toImport.inspected = inspectSource f.source := rfl
      simp only [List.map_cons, ObjectStore.contentBudget, bind_ok, failIf_ok, hinspected,
        inspectSource_ok, BatchFile.toImport_options, hrunning,
        ih fun f hf => hfiles f (List.mem_cons_of_mem _ hf), List.sum_cons, List.forall_mem_cons]
      constructor
      · rintro ⟨_, -, size, ⟨hdirect, hregular, rfl⟩, _, hle, hrest, hsum⟩
        exact ⟨⟨⟨hdirect, hregular⟩, hrest⟩, by omega⟩
      · rintro ⟨⟨⟨hdirect, hregular⟩, hrest⟩, hsum⟩
        exact ⟨(), Bool.false_ne_true, _, ⟨hdirect, hregular, rfl⟩, (), by omega, hrest, by omega⟩

/-- The budget of metadata is kept exactly when they add up to it. -/
theorem metadataBudget_ok (hfiles : ∀ f ∈ files, f.Unstopped) {remaining left : Nat} :
    ObjectStore.metadataBudget s (files.map (·.toImport)) remaining = .ok left ↔
      (files.map (·.metadataBytes s)).sum + left = remaining := by
  induction files generalizing remaining with
  | nil =>
      simp only [List.map_nil, ObjectStore.metadataBudget, pure_ok, List.sum_nil, Nat.zero_add]
      exact eq_comm
  | cons f files ih =>
      obtain ⟨-, hrunning⟩ := hfiles f List.mem_cons_self
      simp only [List.map_cons, ObjectStore.metadataBudget, bind_ok, failIf_ok,
        BatchFile.toImport_options, hrunning,
        ih fun f hf => hfiles f (List.mem_cons_of_mem _ hf), List.sum_cons,
        BatchFile.metadataBytes]
      constructor
      · rintro ⟨_, -, _, hactor, _, hprovenance, hsum⟩
        have hprovenance := failIf_ok.1 hprovenance
        omega
      · intro hsum
        exact ⟨(), Bool.false_ne_true, (), by omega, (), failIf_ok.2 (by omega), by omega⟩

/-- The workers read a batch where every file can be read. -/
theorem readFiles_ok (hfiles : ∀ f ∈ files, f.source.Unchanged ∧ f.Unstopped)
    {prepared : List PreparedObjectSource} :
    ((files.map (·.toImport)).mapM fun file => do
        pure (⟨← file.read, file.unchanged⟩ : PreparedObjectSource)) = .ok prepared ↔
      (∀ f ∈ files, f.source.opens = true ∧ f.source.bad = false) ∧
        prepared = preparedFiles files := by
  induction files generalizing prepared with
  | nil =>
      simp only [List.map_nil, List.mapM_nil, pure_ok, List.not_mem_nil, IsEmpty.forall_iff,
        implies_true, true_and]
      exact eq_comm
  | cons f files ih =>
      obtain ⟨hunchanged, hpolled, -⟩ := hfiles f List.mem_cons_self
      have hread : f.toImport.read = readSource f.source f.polled := rfl
      have hstable : f.toImport.unchanged = f.source.stable := rfl
      simp only [List.map_cons, List.mapM_cons, bind_ok, pure_ok, hread, hstable, hpolled,
        readSource_ok hunchanged, ih fun f hf => hfiles f (List.mem_cons_of_mem _ hf),
        List.forall_mem_cons]
      constructor
      · rintro ⟨_, ⟨_, ⟨hopens, hbad, rfl⟩, rfl⟩, _, ⟨hrest, rfl⟩, rfl⟩
        exact ⟨⟨⟨hopens, hbad⟩, hrest⟩, rfl⟩
      · rintro ⟨⟨⟨hopens, hbad⟩, hrest⟩, rfl⟩
        exact ⟨_, ⟨_, ⟨hopens, hbad, rfl⟩, rfl⟩, _, ⟨hrest, rfl⟩, rfl⟩

/-- A batch within its limits, of sources that do not change and that no one stops. -/
structure Admitted (db : ObjectTables) (session : Bytes) (files : List BatchFile) : Prop where
  count : files ≠ [] ∧ files.length ≤ ObjectStore.maximumBatchFiles
  unchanged : ∀ f ∈ files, f.source.Unchanged ∧ f.Unstopped
  bytes : (files.map (·.source.size)).sum ≤ ObjectStore.maximumBatchBytes
  metadata : ∀ s, getSession db session true = .ok s →
    (files.map (·.metadataBytes s)).sum ≤ ObjectStore.maximumBatchMetadataBytes

/-- An admitted batch is read exactly when each source is readable. What is left to check of an
admitted batch are the sizes of its files, whose sum was admitted. -/
theorem Admitted.readObjectBatch_ok (h : Admitted db session files)
    {prepared : List PreparedObjectSource} :
    ObjectStore.readObjectBatch (files.map (·.toImport)) = .ok prepared ↔
      (∀ f ∈ files, f.source.Readable) ∧ prepared = preparedFiles files := by
  have hbound : ∀ f ∈ files, f.source.size ≤ int64Max := by
    intro f hf
    have hle := List.single_le_sum (fun _ _ => Nat.zero_le _) _
      (List.mem_map_of_mem (f := fun f : BatchFile => f.source.size) hf)
    exact (hle.trans h.bytes).trans (by decide)
  have hempty : files.map (·.toImport) ≠ [] := by
    rw [Ne, List.map_eq_nil_iff]
    exact h.count.1
  simp only [ObjectStore.readObjectBatch, bind_ok, failIf_ok, List.length_map,
    readFiles_ok h.unchanged, contentBudget_ok fun f hf => (h.unchanged f hf).2]
  constructor
  · rintro ⟨-, -, left, ⟨hinspected, -⟩, hread, rfl⟩
    refine ⟨fun f hf => ?_, rfl⟩
    obtain ⟨hdirect, hregular⟩ := hinspected f hf
    obtain ⟨hopens, hbad⟩ := hread f hf
    exact ⟨hdirect, hregular, hopens, hbad, hbound f hf⟩
  · rintro ⟨hreadable, rfl⟩
    refine ⟨(), ?_, _, ⟨fun f hf => ⟨(hreadable f hf).direct, (hreadable f hf).regular⟩,
      Nat.add_sub_cancel' h.bytes⟩, fun f hf => ⟨(hreadable f hf).opens, (hreadable f hf).bad⟩, rfl⟩
    rw [not_or, Nat.not_lt]
    exact ⟨hempty, h.count.2⟩

/-- **A batch stores what its files store one after the other.** The session, the opening of the
transaction and the reading of the files are the same for both, and the publication is compared file
by file. -/
theorem Admitted.importFiles_iff (h : Admitted db session files) {records : List ObjectRecord} :
    ObjectStore.importFiles P m db (files.map (·.toImport)) session draws = .ok (records, db') ↔
      importSequence P m session draws files 0 db = .ok (records, db') := by
  have hempty : files.map (·.toImport) ≠ [] := by
    rw [Ne, List.map_eq_nil_iff]
    exact h.count.1
  have hunstopped := fun f hf => (h.unchanged f hf).2
  simp only [ObjectStore.importFiles, bind_ok, failIf_ok, List.length_map, h.readObjectBatch_ok,
    metadataBudget_ok hunstopped, Prod.exists, pure_ok, Prod.mk.injEq]
  constructor
  · rintro ⟨-, -, ⟨⟩, hopen, s, hsession, -, -, prepared, ⟨hreadable, rfl⟩, _, _, hrecords, -, -,
      rfl, rfl⟩
    exact (importPrepared_iff hsession hopen fun f hf =>
      ⟨(h.unchanged f hf).1, hreadable f hf, hunstopped f hf⟩).1 hrecords
  · intro hsequence
    have hreadable := readable_of_sequence hsequence fun f hf => (h.unchanged f hf).1
    obtain ⟨s, hopen, hsession⟩ : ∃ s, ObjectStore.beginImmediate m = .ok () ∧
        getSession db session true = .ok s := by
      obtain ⟨f, rest, rfl⟩ := List.exists_cons_of_ne_nil h.count.1
      simp only [importSequence, ObjectStore.importFile, bind_ok, Prod.exists] at hsequence
      obtain ⟨_, _, ⟨⟨⟩, hopen, s, hsession, -⟩, -⟩ := hsequence
      exact ⟨s, hopen, hsession⟩
    refine ⟨(), ?_, (), hopen, s, hsession, _, Nat.add_sub_cancel' (h.metadata s hsession), _,
      ⟨hreadable, rfl⟩, records, db', ?_, (), ?_, rfl, rfl⟩
    · rw [not_or, Nat.not_lt]
      exact ⟨hempty, h.count.2⟩
    · exact (importPrepared_iff hsession hopen fun f hf =>
        ⟨(h.unchanged f hf).1, hreadable f hf, hunstopped f hf⟩).2 hsequence
    · refine forM_ok.2 fun a ha => failIf_ok.2 ?_
      obtain ⟨f, hf, hfile⟩ := List.mem_map.1 (List.of_mem_zip ha).1
      rw [← hfile, BatchFile.toImport_options, (hunstopped f hf).2]
      exact Bool.false_ne_true

end

/-! ## The workers of a batch -/

/-- The number of workers `readObjectBatch` starts. -/
def batchWorkers (concurrency hardware files : Nat) : Nat :=
  min (min (if concurrency = 0 then max 1 hardware else concurrency) files) 64

/-- The task of the worker that claims a file. -/
def ObjectImport.prepare (file : ObjectImport) : Fallible PreparedObjectSource := do
  pure ⟨← file.read, file.unchanged⟩

/-- The tasks of the workers. -/
def readTasks (files : List ObjectImport) : List (Fallible PreparedObjectSource) :=
  files.map ObjectImport.prepare

/-- `readObjectBatch` once its workers have stopped. -/
def readJoined (files : List ObjectImport) (blank : PreparedObjectSource)
    (s : WorkerPool.State String PreparedObjectSource) : Fallible (List PreparedObjectSource) := do
  failIf (files = [] ∨ ObjectStore.maximumBatchFiles < files.length)
    "invalid object batch read count"
  let _ ← ObjectStore.contentBudget files ObjectStore.maximumBatchBytes
  WorkerPool.collect files.length (fun _ => blank) s.outcomes

/-- **Any number of workers reads what one would**, under every schedule. -/
theorem readJoined_eq {files : List ObjectImport} (hne : files ≠ []) (concurrency hardware : Nat)
    (blank : PreparedObjectSource) {s : WorkerPool.State String PreparedObjectSource}
    (h : Relation.ReflTransGen (WorkerPool.Step (readTasks files))
      (WorkerPool.start _ _ (batchWorkers concurrency hardware files.length)) s)
    (hjoined : s.Joined) : readJoined files blank s = ObjectStore.readObjectBatch files := by
  have hworkers : batchWorkers concurrency hardware files.length ≠ 0 := by
    have hpos := List.length_pos_iff.2 hne
    unfold batchWorkers
    split <;> omega
  have heq := WorkerPool.joined_eq hworkers (fun _ => blank) h hjoined
  have htasks : (readTasks files).mapM id = files.mapM ObjectImport.prepare := by
    unfold readTasks
    rw [List.mapM_map]
    rfl
  rw [htasks, readTasks, List.length_map] at heq
  unfold readJoined
  rw [heq]
  rfl

/-! ## All or nothing -/

section
variable {s : ObjectSession} {draws : Draws} {records : List ObjectRecord}

/-- A batch that is imported has imported each file, unchanged, uncancelled and under a valid path.
-/
theorem importPrepared_all {files : List (ObjectImport × PreparedObjectSource)} {i : Nat}
    (h : ObjectStore.importPrepared P m s draws files i db = .ok (records, db')) :
    records.length = files.length ∧ ∀ f ∈ files, f.2.unchanged = true ∧
      f.1.options.cancellation 2 = false ∧ pathValid f.1.logicalPath = .ok () := by
  induction files generalizing i db db' records with
  | nil =>
      simp only [ObjectStore.importPrepared, pure_ok, Prod.mk.injEq] at h
      obtain ⟨rfl, -⟩ := h
      exact ⟨rfl, fun f hf => absurd hf List.not_mem_nil⟩
  | cons head files ih =>
      obtain ⟨file, input⟩ := head
      simp only [ObjectStore.importPrepared, bind_ok, Prod.exists, pure_ok, Prod.mk.injEq,
        failIf_ok, Bool.not_eq_true] at h
      obtain ⟨_, hrunning, x, mid, hx, rest, last, hrest, rfl, rfl⟩ := h
      obtain ⟨hlength, hall⟩ := ih hrest
      refine ⟨congrArg (· + 1) hlength, List.forall_mem_cons.2 ⟨?_, hall⟩⟩
      simp only [Impl.importFile, ingestSource, ingestPrepared, bind_ok, Prod.exists, failIf_ok,
        Bool.not_eq_false] at hx
      obtain ⟨_, -, _, -, _, hpath, _, -, _, _, -, _, _, _, ⟨_, _, -, _, -, _, hsame, -⟩, -⟩ := hx
      exact ⟨hsame, hrunning, hpath⟩

/-- Where the budget was kept, no file was cancelled and each was inspected. -/
theorem contentBudget_all {files : List ObjectImport} {remaining left : Nat}
    (h : ObjectStore.contentBudget files remaining = .ok left) :
    ∀ file ∈ files, file.options.cancellation 1 = false ∧ ∃ size, file.inspected = .ok size := by
  induction files generalizing remaining with
  | nil => exact fun file hf => absurd hf List.not_mem_nil
  | cons file files ih =>
      simp only [ObjectStore.contentBudget, bind_ok, failIf_ok, Bool.not_eq_true] at h
      obtain ⟨_, hrunning, size, hsize, _, -, hrest⟩ := h
      exact List.forall_mem_cons.2 ⟨⟨hrunning, size, hsize⟩, ih hrest⟩

/-- **A batch that stores anything imported every one of its files.** The records are as many as the
files, and each file has passed the checks that come before its publication. -/
theorem importFiles_all {files : List ObjectImport} {session : Bytes}
    (h : ObjectStore.importFiles P m db files session draws = .ok (records, db')) :
    records.length = files.length ∧ ∀ file ∈ files,
      (∃ size, file.inspected = .ok size) ∧ (∃ content, file.read = .ok content) ∧
      file.unchanged = true ∧ pathValid file.logicalPath = .ok () ∧
      file.options.cancellation 1 = false ∧ file.options.cancellation 2 = false := by
  simp only [ObjectStore.importFiles, bind_ok, Prod.exists, pure_ok, Prod.mk.injEq] at h
  obtain ⟨_, -, _, -, s, -, _, -, prepared, hprepared, records, last, hrecords, _, -, rfl, rfl⟩ := h
  simp only [ObjectStore.readObjectBatch, bind_ok] at hprepared
  obtain ⟨_, -, _, hbudget, hread⟩ := hprepared
  obtain ⟨hlength, hall⟩ := importPrepared_all hrecords
  have hmap := mapM_ok.1 hread
  have hprepared : prepared.length = files.length := by
    have hlengths := congrArg List.length hmap
    rw [List.length_map, List.length_map] at hlengths
    exact hlengths.symm
  refine ⟨by rw [hlength, List.length_zip, hprepared, Nat.min_self], fun file hfile => ?_⟩
  obtain ⟨i, hi, rfl⟩ := List.mem_iff_getElem.1 hfile
  have hi' : i < prepared.length := hprepared ▸ hi
  have hinput : files[i].prepare = .ok prepared[i] := by
    have hget : (files.map ObjectImport.prepare)[i]? = (prepared.map Except.ok)[i]? :=
      congrArg (fun l => l[i]?) hmap
    rwa [List.getElem?_map, List.getElem?_map, List.getElem?_eq_getElem hi,
      List.getElem?_eq_getElem hi', Option.map_some, Option.map_some, Option.some.injEq] at hget
  obtain ⟨content, hcontent, heq⟩ := bind_ok.1 hinput
  have hpair : (files[i], prepared[i]) ∈ files.zip prepared := by
    refine List.mem_iff_getElem?.2 ⟨i, ?_⟩
    rw [List.getElem?_zip_eq_some]
    exact ⟨List.getElem?_eq_getElem hi, List.getElem?_eq_getElem hi'⟩
  obtain ⟨hsame, hrunning, hpath⟩ := hall _ hpair
  obtain ⟨hbudgeted, hsize⟩ := contentBudget_all hbudget _ hfile
  rw [← pure_ok.1 heq] at hsame
  exact ⟨hsize, ⟨content, hcontent⟩, hsame, hpath, hbudgeted, hrunning⟩

end

/-- **Batch import equals sequential import.** Both loops cut a content into the blocks that are
stored; the workers read the files of a batch as one would read them; a batch within its limits, of
unchanged sources, stores what its files store when they are imported one after the other; and one
with a file that fails is not stored. -/
theorem importFiles_exact (P : Platform) (m : Impl) (db : ObjectTables) (session : Bytes)
    (draws : Draws) :
    (∀ content, streamReads content = Blocks.split chunkBytes content ∧
      spanReads content 0 = Blocks.split chunkBytes content) ∧
    (∀ (files : List ObjectImport) (concurrency hardware : Nat) (blank : PreparedObjectSource)
        (s : WorkerPool.State String PreparedObjectSource), files ≠ [] →
      Relation.ReflTransGen (WorkerPool.Step (readTasks files))
        (WorkerPool.start _ _ (batchWorkers concurrency hardware files.length)) s →
      (∃ t, Relation.ReflTransGen (WorkerPool.Step (readTasks files)) s t ∧ t.Joined) ∧
      (s.Joined → readJoined files blank s = ObjectStore.readObjectBatch files)) ∧
    (∀ (files : List BatchFile) (records : List ObjectRecord) (db' : ObjectTables),
      Admitted db session files →
      (ObjectStore.importFiles P m db (files.map (·.toImport)) session draws = .ok (records, db') ↔
        importSequence P m session draws files 0 db = .ok (records, db'))) ∧
    ∀ (files : List ObjectImport) (records : List ObjectRecord) (db' : ObjectTables),
      ObjectStore.importFiles P m db files session draws = .ok (records, db') →
      records.length = files.length ∧ ∀ file ∈ files,
        (∃ size, file.inspected = .ok size) ∧ (∃ content, file.read = .ok content) ∧
        file.unchanged = true ∧ pathValid file.logicalPath = .ok () ∧
        file.options.cancellation 1 = false ∧ file.options.cancellation 2 = false :=
  ⟨fun content => ⟨streamReads_eq content, spanReads_eq content 0⟩,
    fun _ concurrency hardware blank _ hne h =>
      ⟨WorkerPool.joins h, readJoined_eq hne concurrency hardware blank h⟩,
    fun _ _ _ h => h.importFiles_iff, fun _ _ _ h => importFiles_all h⟩

/-- Two files, one of them empty. -/
def sampleBatch : List BatchFile :=
  [⟨.of [1, 2, 3], fun _ => false, ascii "a", .plain⟩, ⟨.of [], fun _ => false, ascii "b", .plain⟩]

/-- The two files are read by a pool of workers and imported. -/
theorem importFiles_exact_sample : ∃ (db db' : ObjectTables) (records : List ObjectRecord)
    (s : WorkerPool.State String PreparedObjectSource), s.Joined ∧
    readJoined (sampleBatch.map (·.toImport)) ⟨[], false⟩ s
      = ObjectStore.readObjectBatch (sampleBatch.map (·.toImport)) ∧
    ObjectStore.importFiles .reference .reference db (sampleBatch.map (·.toImport))
      Package.sampleSession (.numbered 1) = .ok (records, db') ∧ records.length = 2 := by
  have hok : (Package.exec .reference .reference [Package.sampleBegin] (.fresh (ascii "c")) >>=
      fun x => getSession x.2 Package.sampleSession true >>= fun session =>
        importSequence .reference .reference Package.sampleSession (.numbered 1) sampleBatch 0 x.2
          >>= fun _ => failIf (ObjectStore.maximumBatchMetadataBytes
            < (sampleBatch.map (·.metadataBytes session)).sum) "unexpected").isOk = true := by
    decide +kernel
  obtain ⟨u, h⟩ := exists_of_isOk hok
  obtain ⟨⟨responses, db⟩, -, h⟩ := bind_ok.1 h
  obtain ⟨session, hsession, h⟩ := bind_ok.1 h
  obtain ⟨⟨records, db'⟩, hsequence, hmetadata⟩ := bind_ok.1 h
  have hunchanged : ∀ content : Bytes, (SourceFile.of content).Unchanged := fun _ =>
    ⟨rfl, fun _ => rfl, nofun⟩
  have hadmitted : Admitted db Package.sampleSession sampleBatch := by
    refine ⟨⟨List.cons_ne_nil _ _, by decide⟩, ?_, by decide, fun s hs => ?_⟩
    · refine List.forall_mem_cons.2 ⟨⟨hunchanged _, rfl, rfl⟩, ?_⟩
      exact List.forall_mem_cons.2 ⟨⟨hunchanged _, rfl, rfl⟩, nofun⟩
    · rw [hsession, Except.ok.injEq] at hs
      subst hs
      exact Nat.not_lt.1 (failIf_ok.1 hmetadata)
  have hexact := importFiles_exact .reference .reference db Package.sampleSession (.numbered 1)
  have hne : sampleBatch.map (·.toImport) ≠ [] := List.cons_ne_nil _ _
  obtain ⟨⟨s, hs, hjoined⟩, -⟩ := hexact.2.1 _ 0 4 ⟨[], false⟩ _ hne .refl
  have himport := (hexact.2.2.1 sampleBatch records db' hadmitted).2 hsequence
  exact ⟨db, db', records, s, hjoined, (hexact.2.1 _ 0 4 ⟨[], false⟩ s hne hs).2 hjoined, himport,
    (hexact.2.2.2 _ records db' himport).1⟩

end FileProvider
