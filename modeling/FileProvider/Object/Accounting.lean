import FileProvider.Object.Content
import FileProvider.Object.Packaging

/-!
# Packaging accounts for every entry

A call of `package` gives every entry of its inventory one outcome, in order. `Settles` is what a
part of a run did: its outcomes fit their entries, they are what the report counts and the progress
was told, and the revisions that were added are those of the imported and revised entries. Each way
through a round settles the entries it takes, and the loop takes them all.

The outcomes are found in the order in which the loop takes the entries, so the lists of outcomes
are put together by `append`, and the numbers of the report follow. What a call of the store does to
the tables is taken from `Object.Calls`, as the revisions that it adds.
-/

namespace FileProvider

open Bytes Fallible Impl Relation

variable {P : Platform} {m : Impl} {db db' : ObjectTables} {container : Bytes}

/-! ## What the calls of the packager store -/

/-- What a new revision holds of the file it was written from. -/
structure WrittenFrom (P : Platform) (db : ObjectTables) (x : ObjectRecord) (stamp : Bytes)
    (authorship : ObjectMetadata) (content : Bytes) : Prop where
  stamp : x.sourceStamp = stamp
  authorship : x.authorship = authorship
  hash : x.sha256 = P.hash content
  size : x.size = content.length
  stored : StoredContent P db x content

/-- What a record was written from stays so in every extension. -/
theorem WrittenFrom.of_extends {x : ObjectRecord} {stamp content : Bytes}
    {authorship : ObjectMetadata} (h : WrittenFrom P db x stamp authorship content)
    (hext : Extends db db') : WrittenFrom P db' x stamp authorship content :=
  ⟨h.stamp, h.authorship, h.hash, h.size, h.stored.of_extends hext⟩

/-- A change that adds revisions. -/
structure Adds (P : Platform) (m : Impl) (db : ObjectTables) (records : List ObjectRecord)
    (db' : ObjectTables) : Prop where
  changes : ReflTransGen (Change P m) db db'
  revisions : db'.revisions.rows = db.revisions.rows ++ records.map revisionRow

/-- Nothing is added where nothing happens. -/
theorem Adds.nothing (P : Platform) (m : Impl) (db : ObjectTables) : Adds P m db [] db :=
  ⟨.refl, (List.append_nil _).symm⟩

/-- What two parts add, both together add. -/
theorem Adds.trans {records records' : List ObjectRecord} {db'' : ObjectTables}
    (h : Adds P m db records db') (h' : Adds P m db' records' db'') :
    Adds P m db (records ++ records') db'' := by
  refine ⟨h.changes.trans h'.changes, ?_⟩
  rw [h'.revisions, h.revisions, List.map_append, List.append_assoc]

/-- A creation adds its record. -/
theorem Creation.adds {stored : ObjectTables} {r x : ObjectRecord} {s : ObjectSession}
    {parts : List Chunk} {document : Bytes} {now : Int}
    (h : Creation P m db stored r s parts document now x db') : Adds P m db [x] db' := by
  obtain ⟨created, hinsert, hstores⟩ := h.insert
  obtain ⟨-, -, -, objects, -, rfl⟩ := ObjectTables.insertObject_ok hinsert
  refine ⟨.single (.create h), ?_⟩
  rw [Table.rows_insert h.publishes.revisions, hstores.rest]
  rfl

/-- A revision adds its record. -/
theorem Revision.adds {stored : ObjectTables} {old r x : ObjectRecord} {s : ObjectSession}
    {parts : List Chunk} {raw : Option Bytes} {now : Int} {expected : Nat}
    (h : Revision P m db stored expected old r s parts raw now x db') : Adds P m db [x] db' := by
  obtain ⟨_, _, -, -, -, hp⟩ := publish_ok h.publish
  refine ⟨.single (.revise h), ?_⟩
  rw [Table.rows_insert hp.revisions, h.stores.rest]
  rfl

/-- A stream that is stored delivered as many bytes as its file has. -/
theorem ingest_whole {input : SourceFile} {r r' : ObjectRecord} {token : StopToken}
    {parts : List Chunk} (h : ingest P db input r token = .ok (parts, r', db')) :
    input.content.length = input.size := by
  simp only [ingest, bind_ok, Prod.exists, failIf_ok, not_or, not_not] at h
  obtain ⟨-, -, -, -, -, -, -, -, _, _, -, -, -, -, ⟨-, hwhole, -⟩, -⟩ := h
  exact hwhole

/-- What an import stores. The revision is a publication of the created object, and the content was
stored by the ingestion before it. -/
theorem importFile_written {source : ImportSource} {path : Bytes} {s : ObjectSession}
    {options : ObjectWriteOptions} {random : Fin 16 → UInt8} {now : Int} {x : ObjectRecord}
    (h : Impl.importFile P m db source path s options [] random now = .ok (x, db'))
    (hs : getSession db s.key true = .ok s) (hi : HistoryInvariant P m db) :
    Adds P m db [x] db' ∧ x.path = path ∧ WrittenFrom P db' x options.sourceStamp
      (options.authorship.getD .unknown) source.content := by
  obtain ⟨r, parts, stored, hc, hing, -, -, hpath, hhash, hsize, hauthorship, hstamp⟩ :=
    importFile_ok h hs
  have hstored := hc.storedContent hi hing.reads
  obtain ⟨key, hx⟩ := hc.record_eq
  refine ⟨hc.adds, ?_, ?_, ?_, ?_, ?_, hstored⟩
  · rw [hx]
    exact hpath
  · rw [hx]
    exact hstamp
  · rw [hx]
    exact hauthorship
  · rw [hx]
    exact hhash
  · rw [hx]
    exact hsize

/-- What the import of a stream stores. -/
theorem storeImportFile_written {source : SourceFile} {path session : Bytes}
    {options : ObjectWriteOptions} {draws : Draws} {x : ObjectRecord}
    (h : ObjectStore.importFile P m db source path session options draws = .ok (x, db'))
    (hi : HistoryInvariant P m db) :
    Adds P m db [x] db' ∧ x.path = path ∧ source.content.length = source.size ∧
      WrittenFrom P db' x options.sourceStamp (options.authorship.getD .unknown)
        source.content := by
  simp only [ObjectStore.importFile, bind_ok] at h
  obtain ⟨-, -, s, hs, himport⟩ := h
  obtain ⟨hadds, hpath, hwritten⟩ := importFile_written himport (getSession_self hs) hi
  simp only [Impl.importFile, bind_ok, Prod.exists] at himport
  obtain ⟨-, -, -, -, -, -, -, -, _, _, -, _, _, _, hing, -⟩ := himport
  exact ⟨hadds, hpath, ingest_whole hing, hwritten⟩

/-- What a revision stores. The record is that of the version before, with the content, the stamp
and the authorship of the call. -/
theorem reviseFile_written {key session : Bytes} {source : SourceFile} {expected : Nat}
    {options : ObjectWriteOptions} {draws : Draws} {x : ObjectRecord}
    (h : ObjectStore.reviseFile P m db key source expected session options draws = .ok (x, db'))
    (hi : HistoryInvariant P m db) :
    ∃ old, require P m db key expected = .ok old ∧ Adds P m db [x] db' ∧ x.key = key ∧
      x.version = expected + 1 ∧ x.path = old.path ∧ source.content.length = source.size ∧
      WrittenFrom P db' x options.sourceStamp (options.authorship.getD old.authorship)
        source.content := by
  obtain ⟨old, r, s, parts, stored, hkey, -, hr, hing, -, hpath, hlive, hhash, hsize, hauthorship,
    hstamp⟩ := reviseFile_ok h
  have hrequire := hr.require
  rw [hkey] at hrequire
  obtain ⟨hxkey, -, hversion, -⟩ := hr.fields
  have hstored := hr.storedContent hi hlive hing.reads
  obtain ⟨validation, hx⟩ := hr.record_eq
  simp only [ObjectStore.reviseFile, bind_ok, Prod.exists] at h
  obtain ⟨-, -, -, -, -, -, _, -, _, -, _, -, -, -, -, -, _, _, _, hingest, -⟩ := h
  refine ⟨old, hrequire, hr.adds, hxkey.trans hkey, hversion, ?_, ingest_whole hingest, ?_, ?_, ?_,
    ?_, hstored⟩
  · rw [hx]
    exact hpath
  · rw [hx]
    exact hstamp
  · rw [hx]
    exact hauthorship
  · rw [hx]
    exact hhash
  · rw [hx]
    exact hsize

/-! ## Outcomes -/

/-- What became of an entry. -/
inductive PackagingOutcome where
  | done (action : PackagingAction) (record : ObjectRecord)
  | issue (message : String)

namespace PackagingOutcome

/-- The revision that was added for an entry. -/
def added : PackagingOutcome → List ObjectRecord
  | done .skipped _ => []
  | done _ record => [record]
  | issue _ => []

/-- The counter that counted an entry. -/
def action : PackagingOutcome → Option PackagingAction
  | done action _ => some action
  | issue _ => none

/-- What the progress was told about an entry. -/
def progress (entry : PackagingEntry) : PackagingOutcome → List PackagingProgress
  | done action record => [⟨entry, record, action⟩]
  | issue _ => []

def issues (entry : PackagingEntry) : PackagingOutcome → List ObjectPackagingIssue
  | done _ _ => []
  | issue message => [⟨entry.logicalPath, message⟩]

end PackagingOutcome

/-- The entries some rounds took, with what became of them. -/
abbrev PackagingOutcomes := List (PackagingEntry × PackagingOutcome)

namespace PackagingOutcomes

variable (l l' : PackagingOutcomes)

def count (action : PackagingAction) : Nat := l.countP fun p => p.2.action = some action

def added : List ObjectRecord := l.flatMap fun p => p.2.added

def progress : List PackagingProgress := l.flatMap fun p => p.2.progress p.1

def issues : List ObjectPackagingIssue := l.flatMap fun p => p.2.issues p.1

/-- The report once the outcomes are in. -/
def report (r : ObjectPackagingReport) : ObjectPackagingReport where
  imported := r.imported + count l .imported
  revised := r.revised + count l .revised
  skipped := r.skipped + count l .skipped
  issues := r.issues ++ issues l
  cancelled := r.cancelled

section
variable {l l'}

@[simp] theorem count_nil (action : PackagingAction) : count [] action = 0 := rfl

@[simp] theorem count_cons (p : PackagingEntry × PackagingOutcome) (action : PackagingAction) :
    count (p :: l) action = count l action + if p.2.action = some action then 1 else 0 := by
  simp only [count, List.countP_cons, decide_eq_true_eq]

@[simp] theorem issues_nil : issues [] = [] := rfl

@[simp] theorem issues_cons (p : PackagingEntry × PackagingOutcome) :
    issues (p :: l) = p.2.issues p.1 ++ issues l := rfl

end

/-- Every entry is counted once. -/
theorem count_add : count l .imported + count l .revised + count l .skipped + (issues l).length
    = l.length := by
  induction l with
  | nil => rfl
  | cons p l ih =>
      obtain ⟨entry, outcome⟩ := p
      cases outcome with
      | issue message =>
          simp only [count_cons, issues_cons, PackagingOutcome.action, PackagingOutcome.issues,
            List.length_append, List.length_cons, reduceCtorEq, if_false, List.length_nil]
          omega
      | done action record =>
          simp only [count_cons, issues_cons, PackagingOutcome.action, PackagingOutcome.issues,
            List.length_cons, List.nil_append, Option.some.injEq]
          cases action <;> simp only [reduceCtorEq, if_true, if_false] <;> omega

/-- The outcomes of two parts are reported one after the other. -/
theorem report_append (r : ObjectPackagingReport) :
    report (l ++ l') r = report l' (report l r) := by
  simp only [report, count, issues, List.countP_append, List.flatMap_append, Nat.add_assoc,
    List.append_assoc]

/-- The records that two parts add follow each other. -/
theorem added_append : added (l ++ l') = added l ++ added l' := List.flatMap_append

/-- The progress of two parts follows each other. -/
theorem progress_append : progress (l ++ l') = progress l ++ progress l' := List.flatMap_append

/-- Entries that are all done the same way are counted together. -/
theorem report_done (action : PackagingAction) (done : List (PackagingEntry × ObjectRecord))
    (r : ObjectPackagingReport) :
    report (done.map fun p => (p.1, .done action p.2)) r = r.count done.length action := by
  induction done generalizing r with
  | nil => cases action <;> simp [report, ObjectPackagingReport.count]
  | cons head done ih =>
      have hhead : report [(head.1, .done action head.2)] r = r.count 1 action := by
        cases action <;>
          simp [report, PackagingOutcome.action, PackagingOutcome.issues,
            ObjectPackagingReport.count]
      rw [List.map_cons, ← List.singleton_append, report_append, ih, hhead]
      cases action <;> simp [ObjectPackagingReport.count, Nat.add_assoc, Nat.add_comm 1]

/-- Entries that all failed are reported one after the other. -/
theorem report_issue (message : String) (entries : List PackagingEntry)
    (r : ObjectPackagingReport) :
    report (entries.map fun entry => (entry, .issue message)) r = { r with
      issues := r.issues ++ entries.map fun entry => ⟨entry.logicalPath, message⟩ } := by
  induction entries generalizing r with
  | nil => simp [report]
  | cons entry entries ih =>
      have hhead : report [(entry, .issue message)] r = { r with
          issues := r.issues ++ [⟨entry.logicalPath, message⟩] } := by
        simp [report, PackagingOutcome.action, PackagingOutcome.issues]
      rw [List.map_cons, ← List.singleton_append, report_append, ih, hhead]
      simp

end PackagingOutcomes

/-- The content is that of a copy of the entry, which was as in the inventory. -/
def PackagingEntry.Captured (entry : PackagingEntry) (round : Nat) (content : Bytes) : Prop :=
  ∃ copy, entry.capture round = .ok (entry.identity, copy) ∧
    content = copy.content.take copy.size

/-- A copy that was stored as a stream. -/
theorem PackagingEntry.captured_whole {entry : PackagingEntry} {round : Nat} {copy : SourceFile}
    (h : entry.capture round = .ok (entry.identity, copy))
    (hwhole : copy.content.length = copy.size) : entry.Captured round copy.content :=
  ⟨copy, h, by rw [← hwhole, List.take_length]⟩

/-- How an outcome fits an entry, where the tables were the first before the call and are the
second after it. An imported revision is that of a new path, a revised one follows the head that was
found under the path, and both hold what a round got for their own entry: its stamp, the bytes of
its copy, and the authorship, if one was supplied. -/
inductive PackagingOutcome.Fits (P : Platform) (m : Impl) (entry : PackagingEntry)
    (db db' : ObjectTables) : PackagingOutcome → Prop where
  | imported {round : Nat} {supplied : Option ObjectMetadata} {content : Bytes}
      {x : ObjectRecord} :
      entry.authorship round = .ok supplied → entry.Captured round content →
      x.path = entry.logicalPath →
      WrittenFrom P db' x entry.identity.stamp (supplied.getD .unknown) content →
      Fits P m entry db db' (.done .imported x)
  | revised {round : Nat} {supplied : Option ObjectMetadata} {content : Bytes}
      {mid : ObjectTables} {old x : ObjectRecord} :
      ReflTransGen (Change P m) db mid → ReflTransGen (Change P m) mid db' →
      ObjectStore.lookupPath mid entry.logicalPath = .ok (some old) →
      entry.authorship round = .ok supplied → entry.Captured round content →
      x.key = old.key → x.version = old.version + 1 → x.path = old.path →
      WrittenFrom P db' x entry.identity.stamp (supplied.getD old.authorship) content →
      Fits P m entry db db' (.done .revised x)
  | skipped {mid : ObjectTables} {x : ObjectRecord} :
      ReflTransGen (Change P m) db mid → ReflTransGen (Change P m) mid db' →
      ObjectStore.lookupPath mid entry.logicalPath = .ok (some x) →
      x.sourceStamp = entry.identity.stamp → Fits P m entry db db' (.done .skipped x)
  | issue (message : String) : Fits P m entry db db' (.issue message)

/-- An outcome that fits a part of a run fits the whole of it. -/
theorem PackagingOutcome.Fits.widen {entry : PackagingEntry} {outcome : PackagingOutcome}
    {before after : ObjectTables} (h : outcome.Fits P m entry db db')
    (hbefore : ReflTransGen (Change P m) before db) (hafter : ReflTransGen (Change P m) db' after)
    (hext : Extends db' after) : outcome.Fits P m entry before after := by
  cases h with
  | imported ha hc hpath hw => exact .imported ha hc hpath (hw.of_extends hext)
  | revised hto hfrom hfound ha hc hkey hversion hpath hw =>
      exact .revised (hbefore.trans hto) (hfrom.trans hafter) hfound ha hc hkey hversion hpath
        (hw.of_extends hext)
  | skipped hto hfrom hfound hstamp =>
      exact .skipped (hbefore.trans hto) (hfrom.trans hafter) hfound hstamp
  | issue message => exact .issue message

/-- What became of the entries of some rounds is what the tables, the report and the progress say
of them. -/
structure Settles (P : Platform) (m : Impl) (l : PackagingOutcomes) (σ σ' : PackagingState) :
    Prop where
  fits : ∀ p ∈ l, p.2.Fits P m p.1 σ.db σ'.db
  adds : Adds P m σ.db l.added σ'.db
  report : σ'.report = l.report σ.report
  progress : σ'.progress = σ.progress ++ l.progress

namespace Settles

variable {σ σ' σ'' : PackagingState} {l l' : PackagingOutcomes}

/-- Settling nothing leaves the state. -/
theorem nothing (P : Platform) (m : Impl) (σ : PackagingState) : Settles P m [] σ σ := by
  refine ⟨fun _ hp => absurd hp List.not_mem_nil, .nothing P m σ.db, ?_, ?_⟩
  · simp [PackagingOutcomes.report]
  · simp [PackagingOutcomes.progress]

/-- Two parts of the inventory are settled one after the other. -/
theorem trans (h : Settles P m l σ σ') (h' : Settles P m l' σ' σ'')
    (hext : Extends σ'.db σ''.db) : Settles P m (l ++ l') σ σ'' := by
  refine ⟨fun p hp => ?_, ?_, ?_, ?_⟩
  · rcases List.mem_append.1 hp with hp | hp
    · exact (h.fits p hp).widen .refl h'.adds.changes hext
    · exact (h'.fits p hp).widen h.adds.changes .refl (.refl _)
  · rw [PackagingOutcomes.added_append]
    exact h.adds.trans h'.adds
  · rw [h'.report, h.report, PackagingOutcomes.report_append]
  · rw [h'.progress, h.progress, List.append_assoc, PackagingOutcomes.progress_append]

/-- Entries that are done. -/
theorem publish {action : PackagingAction} (done : List (PackagingEntry × ObjectRecord))
    (hfits : ∀ p ∈ done, (PackagingOutcome.done action p.2).Fits P m p.1 σ.db db')
    (hadds : Adds P m σ.db (done.flatMap fun p => (PackagingOutcome.done action p.2).added) db') :
    Settles P m (done.map fun p => (p.1, .done action p.2)) σ (σ.publish db' action done) := by
  refine ⟨fun p hp => ?_, ?_, (PackagingOutcomes.report_done action done σ.report).symm, ?_⟩
  · obtain ⟨q, hq, rfl⟩ := List.mem_map.1 hp
    exact hfits q hq
  · rw [PackagingOutcomes.added, List.flatMap_map]
    exact hadds
  · rw [PackagingOutcomes.progress, List.flatMap_map]
    exact congrArg (σ.progress ++ ·) List.map_eq_flatMap

/-- Entries that failed. -/
theorem fail (P : Platform) (m : Impl) (σ : PackagingState) (entries : List PackagingEntry)
    (message : String) :
    Settles P m (entries.map fun entry => (entry, .issue message)) σ (σ.fail entries message) := by
  refine ⟨fun p hp => ?_, ?_, (PackagingOutcomes.report_issue message entries σ.report).symm, ?_⟩
  · obtain ⟨entry, -, rfl⟩ := List.mem_map.1 hp
    exact .issue message
  · have hadded : PackagingOutcomes.added (entries.map fun entry => (entry, .issue message)) = [] :=
      List.flatMap_eq_nil_iff.2 fun p hp => by
        obtain ⟨entry, -, rfl⟩ := List.mem_map.1 hp
        rfl
    rw [hadded]
    exact .nothing P m σ.db
  · have htold : PackagingOutcomes.progress (entries.map fun entry => (entry, .issue message))
        = [] :=
      List.flatMap_eq_nil_iff.2 fun p hp => by
        obtain ⟨entry, -, rfl⟩ := List.mem_map.1 hp
        rfl
    rw [htold, List.append_nil]
    rfl

end Settles

/-! ## Batches -/

/-- What a batch of files that were read ahead stores. The induction is on the files, and a chunk or
a revision of an earlier file is still there after the later ones. -/
theorem importPrepared_written {s : ObjectSession} {draws : Draws}
    {files : List (ObjectImport × PreparedObjectSource)} {i : Nat} {records : List ObjectRecord}
    (h : ObjectStore.importPrepared P m s draws files i db = .ok (records, db'))
    (hs : getSession db s.key true = .ok s) (hm : m.Opens container)
    (hi : HistoryInvariant P m db) (hpub : Published db) :
    Adds P m db records db' ∧ List.Forall₂ (fun f x => x.path = f.1.logicalPath ∧
      WrittenFrom P db' x f.1.options.sourceStamp (f.1.options.authorship.getD .unknown)
        f.2.bytes) files records := by
  induction files generalizing i db records with
  | nil =>
      simp only [ObjectStore.importPrepared, pure_ok, Prod.mk.injEq] at h
      obtain ⟨rfl, rfl⟩ := h
      exact ⟨.nothing P m db, .nil⟩
  | cons head files ih =>
      obtain ⟨file, input⟩ := head
      simp only [ObjectStore.importPrepared, bind_ok, Prod.exists, pure_ok, Prod.mk.injEq] at h
      obtain ⟨-, -, x, mid, hx, rest, last, hrest, rfl, rfl⟩ := h
      obtain ⟨_, _, _, hc, -⟩ := importFile_ok hx hs
      obtain ⟨hadds, hpath, hwritten⟩ := importFile_written hx hs hi
      obtain ⟨hi', hpub', -⟩ := Package.changes_keep hm hi hpub hadds.changes
      obtain ⟨hadds', hrecords⟩ := ih hrest (hc.getSession hs) hi' hpub'
      obtain ⟨-, -, hext⟩ := Package.changes_keep hm hi' hpub' hadds'.changes
      exact ⟨hadds.trans hadds', .cons ⟨hpath, hwritten.of_extends hext⟩ hrecords⟩

/-- What a worker reads of a file is what is left of as many bytes as it has. -/
theorem readPayload_take {input : SourceFile} {token : StopToken} {offset poll : Nat}
    {bytes : Bytes} (h : readPayload input token offset poll = .ok bytes) :
    bytes = (input.content.drop offset).take (input.size - offset) := by
  induction offset, poll using readPayload.induct input generalizing bytes with
  | case1 offset poll hlt ih =>
      generalize hlength : min chunkBytes (input.size - offset) = length at ih
      rw [readPayload, if_pos hlt, hlength] at h
      simp only [bind_ok, pure_ok] at h
      obtain ⟨-, -, -, -, rest, hrest, rfl⟩ := h
      have hsplit : input.size - offset = length + (input.size - (offset + length)) := by omega
      rw [hsplit, List.take_add, List.drop_drop, ← ih hrest]
  | case2 offset poll hge =>
      rw [readPayload, if_neg hge, pure_ok] at h
      rw [← h, Nat.sub_eq_zero_of_le (Nat.not_lt.1 hge), List.take_zero]

/-- What is read of a source is its content up to the size that was captured. -/
theorem readSource_take {input : SourceFile} {token : StopToken} {bytes : Bytes}
    (h : readSource input token = .ok bytes) : bytes = input.content.take input.size := by
  simp only [readSource, bind_ok, pure_ok] at h
  obtain ⟨-, -, -, -, _, hread, -, -, -, -, rfl⟩ := h
  have hbytes := readPayload_take hread
  rwa [List.drop_zero, Nat.sub_zero] at hbytes

namespace PackagingRun

variable {run : PackagingRun} {work : ObjectSession} {round : Nat}

/-- A member of a batch has the identity of its entry, and the options are those of its round. -/
def Prepared (run : PackagingRun) (round : Nat) (i : PackagingImport) : Prop :=
  i.identity = i.entry.identity ∧ ∃ supplied, i.entry.authorship round = .ok supplied ∧
    i.options = ⟨supplied, i.entry.identity.stamp, run.cancellation round⟩

/-- Preparing an entry appends one import to the batch, of this entry and prepared in this round. -/
theorem prepare_ok {b b' : PackagingBatch} {item : PackagingEntry}
    (h : prepare run work round b item = .ok b') :
    ∃ i, b'.imports = b.imports ++ [i] ∧ i.entry = item ∧ Prepared run round i := by
  simp only [prepare, bind_ok, failIf_ok, pure_ok, not_not] at h
  obtain ⟨-, -, _, -, -, rfl, -, -, _, -, -, -, supplied, ha, -, -, -, -, rfl⟩ := h
  exact ⟨_, rfl, rfl, rfl, supplied, ha, rfl⟩

/-- The loop that looks ahead takes the entries at the front, each into the batch. The induction is
on the entries: the loop stops at the first one that it does not prepare. -/
theorem lookAhead_ok (run : PackagingRun) (work : ObjectSession) (round : Nat)
    (db : ObjectTables) (entries : List PackagingEntry) (b : PackagingBatch)
    (hb : ∀ i ∈ b.imports, Prepared run round i) :
    ∃ taken, entries = taken ++ (lookAhead run work round db entries b).2 ∧
      (lookAhead run work round db entries b).1.imports.map (·.entry)
        = b.imports.map (·.entry) ++ taken ∧
      ∀ i ∈ (lookAhead run work round db entries b).1.imports, Prepared run round i := by
  induction entries generalizing b with
  | nil => exact ⟨[], rfl, (List.append_nil _).symm, hb⟩
  | cons next entries ih =>
      have hstop : ∃ taken, next :: entries = taken ++ (next :: entries) ∧
          b.imports.map (·.entry) = b.imports.map (·.entry) ++ taken ∧
          ∀ i ∈ b.imports, Prepared run round i := ⟨[], rfl, (List.append_nil _).symm, hb⟩
      unfold lookAhead
      split
      · exact hstop
      · split
        · next b' hnext =>
            simp only [prepareNext, bind_ok] at hnext
            obtain ⟨found, -, hnext⟩ := hnext
            split at hnext
            · cases hnext
            · obtain ⟨b'', hprepare, heq⟩ := map_ok.1 hnext
              obtain rfl := Option.some.inj heq
              obtain ⟨i, himports, rfl, hi⟩ := prepare_ok hprepare
              obtain ⟨taken, htaken, hmap, hall⟩ := ih b'' (by
                rw [himports]
                exact List.forall_mem_append.2 ⟨hb, List.forall_mem_singleton.2 hi⟩)
              refine ⟨i.entry :: taken, ?_, ?_, hall⟩
              · rw [List.cons_append, ← htaken]
              · rw [hmap, himports, List.map_append, List.append_assoc]
                rfl
        · exact hstop
        · exact hstop

/-- Each record of a batch fits the member at its place. The lists of the copies, of what was read
and of the records are as long as that of the members, so that one induction goes through all of
them. -/
theorem fits_members {imports : List PackagingImport} {copies : List SourceFile}
    {prepared : List PreparedObjectSource} {records : List ObjectRecord}
    (hprepared : ∀ i ∈ imports, Prepared run round i)
    (hcapture : (imports.map (request round)).mapM (·.capture) = .ok copies)
    (hread : (List.zipWith (run.file round) imports copies).mapM
      (fun f => do pure (⟨← f.read, f.unchanged⟩ : PreparedObjectSource)) = .ok prepared)
    (hwritten : List.Forall₂ (fun f x => x.path = f.1.logicalPath ∧
      WrittenFrom P db' x f.1.options.sourceStamp (f.1.options.authorship.getD .unknown)
        f.2.bytes) ((List.zipWith (run.file round) imports copies).zip prepared) records) :
    List.Forall₂ (fun i x => (PackagingOutcome.done .imported x).Fits P m i.entry db db') imports
      records := by
  induction imports generalizing copies prepared records with
  | nil =>
      obtain rfl := pure_ok.1 hcapture
      cases hwritten
      exact .nil
  | cons i imports ih =>
      obtain ⟨⟨hidentity, supplied, ha, hoptions⟩, hrest⟩ := List.forall_mem_cons.1 hprepared
      rw [List.map_cons, List.mapM_cons] at hcapture
      simp only [bind_ok, pure_ok] at hcapture
      obtain ⟨copy, hcopy, copies, hcopies, rfl⟩ := hcapture
      rw [List.zipWith_cons_cons, List.mapM_cons] at hread
      simp only [bind_ok, pure_ok] at hread
      obtain ⟨input, ⟨bytes, hbytes, rfl⟩, inputs, hinputs, rfl⟩ := hread
      rw [List.zipWith_cons_cons, List.zip_cons_cons] at hwritten
      cases hwritten with
      | cons hx hxs =>
          refine .cons ?_ (ih hrest hcopies hinputs hxs)
          obtain ⟨hpath, hw⟩ := hx
          simp only [request, bind_ok, Prod.exists, failIf_ok, pure_ok, not_not] at hcopy
          obtain ⟨_, _, hcapture, -, rfl, rfl⟩ := hcopy
          rw [hidentity] at hcapture
          have hcaptured : i.entry.Captured round bytes :=
            ⟨_, hcapture, readSource_take hbytes⟩
          refine .imported ha hcaptured hpath ?_
          simp only [file, BatchFile.toImport, hoptions] at hw
          exact hw

/-- What the import of a batch does. -/
theorem importBatch_ok {imports : List PackagingImport} {records : List ObjectRecord}
    (h : importBatch P m run round db imports = .ok (records, db'))
    (hprepared : ∀ i ∈ imports, Prepared run round i) (hm : m.Opens container)
    (hi : HistoryInvariant P m db) (hpub : Published db) :
    Adds P m db records db' ∧ List.Forall₂ (fun i x =>
      (PackagingOutcome.done .imported x).Fits P m i.entry db db') imports records := by
  simp only [importBatch, ObjectSnapshotBatch.capture, ObjectStore.importFiles,
    ObjectStore.readObjectBatch, bind_ok, Prod.exists, pure_ok, Prod.mk.injEq] at h
  obtain ⟨copies, ⟨-, -, -, -, hcapture⟩, -, -, -, -, -, -, s, hs, -, -, prepared,
    ⟨-, -, -, -, hread⟩, _, _, hrecords, -, -, rfl, rfl⟩ := h
  obtain ⟨hadds, hwritten⟩ :=
    importPrepared_written hrecords (getSession_self hs) hm hi hpub
  exact ⟨hadds, fits_members hprepared hcapture hread hwritten⟩

/-- The rounds that settle an entry and those after it that they take: the entries that are left,
and the state. -/
def Takes (P : Platform) (m : Impl) (entry : PackagingEntry) (entries : List PackagingEntry)
    (σ : PackagingState) (rest : List PackagingEntry) (σ' : PackagingState) : Prop :=
  ∃ taken l, entries = taken ++ rest ∧ l.map (·.1) = entry :: taken ∧ Settles P m l σ σ'

section
variable {entry : PackagingEntry} {entries rest : List PackagingEntry} {σ σ' : PackagingState}

/-- An entry that is done by itself. -/
theorem Takes.single {action : PackagingAction} {x : ObjectRecord} (entries : List PackagingEntry)
    (hfits : (PackagingOutcome.done action x).Fits P m entry σ.db db')
    (hadds : Adds P m σ.db (PackagingOutcome.done action x).added db') :
    Takes P m entry entries σ entries (σ.publish db' action [(entry, x)]) := by
  refine ⟨[], [(entry, .done action x)], rfl, rfl, ?_⟩
  refine .publish [(entry, x)] (fun p hp => ?_) ?_
  · rw [List.mem_singleton.1 hp]
    exact hfits
  · rw [List.flatMap_singleton]
    exact hadds

/-- What a batch does: it takes its members off the front of the list, and imports them together or
reports an error for each of them. -/
theorem packageBatch_ok
    (h : packageBatch P m run work round entry entries σ = .ok (rest, σ')) :
    ∃ taken imports, entries = taken ++ rest ∧ imports.map (·.entry) = entry :: taken ∧
      (∀ i ∈ imports, Prepared run round i) ∧
      ((∃ records db', importBatch P m run round σ.db imports = .ok (records, db') ∧
          σ' = σ.publish db' .imported ((imports.map (·.entry)).zip records)) ∨
        ∃ message, σ' = σ.fail (imports.map (·.entry)) message) := by
  simp only [packageBatch, bind_ok] at h
  obtain ⟨first, hfirst, h⟩ := h
  obtain ⟨i, himports, rfl, hprepared⟩ := prepare_ok hfirst
  rw [List.nil_append] at himports
  obtain ⟨taken, htaken, hmembers, hall⟩ := lookAhead_ok run work round σ.db entries first (by
    rw [himports]
    exact List.forall_mem_singleton.2 hprepared)
  generalize lookAhead run work round σ.db entries first = ahead at h htaken hmembers hall
  obtain ⟨b, left⟩ := ahead
  rw [himports, List.map_singleton, List.singleton_append] at hmembers
  dsimp only at h htaken hmembers hall
  cases himport : importBatch P m run round σ.db b.imports with
  | ok result =>
      obtain ⟨records, db'⟩ := result
      rw [himport] at h
      cases h
      exact ⟨taken, b.imports, htaken, hmembers, hall, .inl ⟨records, db', himport, rfl⟩⟩
  | error message =>
      rw [himport] at h
      dsimp only at h
      split at h
      · cases h
      · cases h
        exact ⟨taken, b.imports, htaken, hmembers, hall, .inr ⟨_, rfl⟩⟩

/-- A batch settles its members: they are imported together, or they all fail. On success the
records are those of the members in order, and an error leaves the tables as they were. -/
theorem packageBatch_takes
    (h : packageBatch P m run work round entry entries σ = .ok (rest, σ')) (hm : m.Opens container)
    (hi : HistoryInvariant P m σ.db) (hpub : Published σ.db) :
    Takes P m entry entries σ rest σ' := by
  obtain ⟨taken, imports, htaken, hmembers, hall, h⟩ := packageBatch_ok h
  rcases h with ⟨records, db', himport, rfl⟩ | ⟨message, rfl⟩
  · obtain ⟨hadds, hfits⟩ := importBatch_ok himport hall hm hi hpub
    have hentries : List.Forall₂ (fun entry x =>
        (PackagingOutcome.done .imported x).Fits P m entry σ.db db') (imports.map (·.entry))
        records := List.forall₂_map_left_iff.2 hfits
    obtain ⟨hlength, hfits⟩ := List.forall₂_iff_zip.1 hentries
    refine ⟨taken, _, htaken, ?_, .publish _ (fun p hp => hfits hp) ?_⟩
    · rw [List.map_map]
      exact (List.map_fst_zip hlength.le).trans hmembers
    · have hadded : ((imports.map (·.entry)).zip records).flatMap
          (fun p => (PackagingOutcome.done .imported p.2).added) = records :=
        List.map_eq_flatMap.symm.trans (List.map_snd_zip hlength.ge)
      rw [hadded]
      exact hadds
  · refine ⟨taken, _, htaken, ?_, .fail P m σ _ _⟩
    rw [List.map_map]
    exact (List.map_id _).trans hmembers

/-! ## Rounds -/

/-- What is required under the key of a record that was found under a path is that record. -/
theorem require_found {path : Bytes} {existing old : ObjectRecord} {expected : Nat}
    (hfound : ObjectStore.lookupPath db path = .ok (some existing))
    (h : require P m db existing.key expected = .ok old) : old = existing := by
  obtain ⟨o, ho, -, -, hhead⟩ := lookupPath_ok hfound
  obtain ⟨-, hjoined⟩ := get_ok.1 (require_ok.1 h).1
  rw [(headRecord_ok hhead).1, joined_head ho, hhead] at hjoined
  exact (Option.some.inj hjoined).symm

/-- A new object that is streamed. -/
theorem packageSingle_new (entries : List PackagingEntry)
    (h : packageSingle P m run round entry entry.identity none σ = .ok σ')
    (hi : HistoryInvariant P m σ.db) : Takes P m entry entries σ entries σ' := by
  simp only [packageSingle, bind_ok, Prod.exists, failIf_ok, pure_ok, not_not] at h
  obtain ⟨_, copy, hcapture, -, rfl, supplied, ha, -, -, x, db', himport, rfl⟩ := h
  obtain ⟨hadds, hpath, hwhole, hwritten⟩ := storeImportFile_written himport hi
  exact .single entries (.imported ha (entry.captured_whole hcapture hwhole) hpath hwritten) hadds

/-- The next revision of an object. -/
theorem packageSingle_next {existing : ObjectRecord} {supplied : Option ObjectMetadata}
    (entries : List PackagingEntry)
    (h : packageSingle P m run round entry entry.identity (some (existing, supplied)) σ = .ok σ')
    (hfound : ObjectStore.lookupPath σ.db entry.logicalPath = .ok (some existing))
    (ha : entry.authorship round = .ok supplied) (hi : HistoryInvariant P m σ.db) :
    Takes P m entry entries σ entries σ' := by
  simp only [packageSingle, bind_ok, Prod.exists, failIf_ok, pure_ok, not_not] at h
  obtain ⟨_, copy, hcapture, -, rfl, -, -, x, db', hrevise, rfl⟩ := h
  obtain ⟨old, hrequire, hadds, hkey, hversion, hpath, hwhole, hwritten⟩ :=
    reviseFile_written hrevise hi
  obtain rfl := require_found hfound hrequire
  exact .single entries (.revised .refl hadds.changes hfound ha
    (entry.captured_whole hcapture hwhole) hkey hversion hpath hwritten) hadds

/-- **A round that succeeds settles what it takes.** An object that is found is skipped or taken by
itself, and a new one begins a batch or is written alone. -/
theorem packageEntry_takes
    (h : packageEntry P m run work round entry entries σ = .ok (rest, σ')) (hm : m.Opens container)
    (hi : HistoryInvariant P m σ.db) (hpub : Published σ.db) :
    Takes P m entry entries σ rest σ' := by
  simp only [packageEntry, bind_ok, failIf_ok, not_not] at h
  obtain ⟨-, -, current, -, -, rfl, found, hfound, h⟩ := h
  cases found with
  | some existing =>
      obtain ⟨supplied, ha, h⟩ := bind_ok.1 h
      split at h
      · next hsame =>
          simp only [bind_ok, failIf_ok, pure_ok, Prod.mk.injEq] at h
          obtain ⟨-, -, -, -, rfl, rfl⟩ := h
          exact .single entries (.skipped .refl .refl hfound hsame.1) (.nothing P m σ.db)
      · simp only [bind_ok, pure_ok, Prod.mk.injEq] at h
        obtain ⟨-, -, _, hsingle, rfl, rfl⟩ := h
        exact packageSingle_next entries hsingle hfound ha hi
  | none =>
      obtain ⟨-, -, h⟩ := bind_ok.1 h
      split at h
      · exact packageBatch_takes h hm hi hpub
      · simp only [bind_ok, pure_ok, Prod.mk.injEq] at h
        obtain ⟨_, hsingle, rfl, rfl⟩ := h
        exact packageSingle_new entries hsingle hi

end

/-- **The loop settles every entry**, if nobody cancels it. Each round takes at least the entry it
began with, so that as many rounds as entries are enough. -/
theorem packageEntries_settles (hstops : ∀ round poll, run.stops round poll = false)
    (hm : m.Opens container) {rounds : Nat} {entries : List PackagingEntry} {σ : PackagingState}
    (hrounds : entries.length ≤ rounds) (hi : HistoryInvariant P m σ.db) (hpub : Published σ.db) :
    ∃ l : PackagingOutcomes, l.map (·.1) = entries ∧
      Settles P m l σ (packageEntries P m run work rounds round entries σ) := by
  induction rounds generalizing round entries σ with
  | zero =>
      obtain rfl := List.eq_nil_of_length_eq_zero (Nat.le_zero.1 hrounds)
      exact ⟨[], rfl, .nothing P m σ⟩
  | succ rounds ih =>
      cases entries with
      | nil => exact ⟨[], rfl, .nothing P m σ⟩
      | cons entry entries =>
          -- A round takes its entry at least, and the rounds after it settle what it leaves.
          have hround : ∀ {rest : List PackagingEntry} {σ' : PackagingState},
              Takes P m entry entries σ rest σ' → ∃ l : PackagingOutcomes,
                l.map (·.1) = entry :: entries ∧
                Settles P m l σ (packageEntries P m run work rounds (round + 1) rest σ') := by
            rintro rest σ' ⟨taken, l, rfl, hl, hsettles⟩
            obtain ⟨hi', hpub', -⟩ := Package.changes_keep hm hi hpub hsettles.adds.changes
            have hleft : rest.length ≤ rounds := by
              rw [List.length_cons, List.length_append] at hrounds
              omega
            obtain ⟨l', hl', hsettles'⟩ := ih hleft hi' hpub'
            obtain ⟨-, -, hext⟩ := Package.changes_keep hm hi' hpub' hsettles'.adds.changes
            refine ⟨l ++ l', ?_, hsettles.trans hsettles' hext⟩
            rw [List.map_append, hl, hl', List.cons_append]
          rw [packageEntries, hstops, if_neg Bool.false_ne_true]
          cases hentry : packageEntry P m run work round entry entries σ with
          | ok result => exact hround (packageEntry_takes hentry hm hi hpub)
          | error message =>
              dsimp only
              rw [hstops, if_neg Bool.false_ne_true]
              exact hround ⟨[], [(entry, .issue message)], rfl, rfl, .fail P m σ [entry] message⟩

/-- An entry whose source does not change. -/
def sampleEntry (path content : Bytes) : PackagingEntry where
  logicalPath := path
  identity := ⟨ascii "stamp", content.length⟩
  below := false
  inspect _ _ := .ok ⟨ascii "stamp", content.length⟩
  space _ _ := .ok (2 ^ 40)
  authorship _ := .ok none
  capture _ := .ok (⟨ascii "stamp", content.length⟩, .of content)

/-- The sample's session packages batches of two files. -/
def sample : PackagingRun where
  session := Package.sampleSession
  maximumBatchFiles := 2
  staging := .ok ()
  stops _ _ := false
  cancellation _ _ := false
  write _ := .ok ()
  draws round := .numbered (2 * round + 1)

/-- Two entries that make a batch, and one whose source is gone. -/
def sampleInventory : PackagingInventory :=
  ⟨[sampleEntry (ascii "a") [1, 2, 3], sampleEntry (ascii "b") [4],
    { sampleEntry (ascii "c") [] with inspect := fun _ _ => .error "no such file" }], []⟩

end PackagingRun

end FileProvider
