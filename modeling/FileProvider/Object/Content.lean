import FileProvider.Object.Concurrency

/-!
# Content is append-only

A revision that was produced from source bytes keeps its record, its RAW document and its
chunk list, stays valid and extracts to exactly those bytes, whatever the stores do afterwards.
The bytes are shared: a chunk is stored once for all the revisions that hold it, and a move or
a metadata revision refers to the chunks of the version before. `Stored` is what survives: the
chunk list of the revision reads back as the content.

What is stored is known by a predicate on the tables, `StoredContent`, which every extension of a
package keeps. A call produces such content, from bytes or from an older version, and the runs add
nothing but extensions.
-/

namespace FileProvider

open Bytes Fallible Impl

variable {P : Platform} {m : Impl} {db db' stored : ObjectTables} {container : Bytes}

/-! ## Stored content -/

/-- A live revision whose chunks read back as a content. -/
structure StoredContent (P : Platform) (db : ObjectTables) (x : ObjectRecord)
    (content : Bytes) : Prop where
  record : Impl.get db x.key x.version = .ok (some x)
  positive : x.version ≠ 0
  live : x.deleted = false
  chunks : ∃ parts, Impl.chunks db x.key x.version = .ok parts ∧ Content P db parts content

namespace StoredContent

variable {x : ObjectRecord} {content : Bytes}

/-- A stored content is that of a stored revision. -/
theorem revision (h : StoredContent P db x content) :
    db.revisions.find (x.key, x.version) ≠ none :=
  Extends.revision_of_get h.positive h.record

/-- Stored content stays stored. -/
theorem of_extends (h : StoredContent P db x content) (hext : Extends db db') :
    StoredContent P db' x content where
  record := hext.get h.positive h.record
  positive := h.positive
  live := h.live
  chunks := by
    obtain ⟨parts, hparts, hcontent⟩ := h.chunks
    exact ⟨parts, hext.chunkList h.revision hparts, hext.content hcontent⟩

end StoredContent

/-- Every step on the file system succeeds. -/
structure Destination.Succeeds (destination : Destination) : Prop where
  stage : destination.stage = .ok ()
  writes : ∀ i, destination.writes i = true
  publish : destination.publish = .ok ()

/-- Writing the chunks of a content gives the content. -/
theorem Impl.Content.writeChunks {parts : List Chunk} {content : Bytes}
    (h : Content P db parts content) {destination : Destination}
    (hwrites : ∀ i, destination.writes i = true) (i : Nat) :
    ObjectStore.writeChunks db destination parts i = .ok content := by
  induction h generalizing i with
  | nil => rfl
  | @cons part parts bytes rest _ hholds _ ih =>
      rw [ObjectStore.writeChunks]
      simp only [bind_ok, bindTexts_ok, List.mem_singleton, forall_eq, orFail_ok, failIf_ok,
        pure_ok]
      exact ⟨(), hholds.bound, ⟨part.hash, bytes⟩, hholds.stored, (), by simp [hwrites], rest,
        ih (i + 1), rfl⟩

/-- Extraction from a live revision that is valid: the chunks are written and published. -/
theorem extract_eq {x : ObjectRecord} {parts : List Chunk}
    (hx : Impl.get db x.key x.version = .ok (some x)) (hlive : x.deleted = false)
    (hvalid : validate P m db x.key x.version true = .ok true)
    (hparts : Impl.chunks db x.key x.version = .ok parts) (destination : Destination) :
    ObjectStore.extract P m db x.key x.version destination = (do
      destination.stage
      let content ← ObjectStore.writeChunks db destination parts 0
      destination.publish
      pure content) := by
  unfold ObjectStore.extract
  rw [hvalid, hx, hparts]
  have hguard : failIf (x.deleted = true) "cannot extract absent object content" = .ok () := by
    simp [hlive]
  change (failIf (x.deleted = true) _ >>= fun _ => _) = _
  rw [hguard]
  rfl

/-- **Extracting stored content gives the content.** The chunks are written one after the other, and
the destination succeeds in each step that belongs to it. -/
theorem StoredContent.extract {x : ObjectRecord} {content : Bytes}
    (h : StoredContent P db x content)
    (hvalid : validate P m db x.key x.version true = .ok true) {destination : Destination}
    (hd : destination.Succeeds) :
    ObjectStore.extract P m db x.key x.version destination = .ok content := by
  obtain ⟨parts, hparts, hcontent⟩ := h.chunks
  rw [extract_eq h.record h.live hvalid hparts]
  simp only [bind_ok, pure_ok]
  exact ⟨(), hd.stage, content, hcontent.writeChunks hd.writes 0, (), hd.publish, rfl⟩

/-! ## What a publication stores -/

/-- The created record is stored with the content it was ingested from. -/
theorem Creation.storedContent {r x : ObjectRecord} {s : ObjectSession} {parts : List Chunk}
    {document content : Bytes} {now : Int}
    (h : Creation P m db stored r s parts document now x db') (hi : HistoryInvariant P m db)
    (hcontent : Content P stored parts content) : StoredContent P db' x content where
  record := h.get
  positive := h.publishes.positive
  live := by
    obtain ⟨key, hx⟩ := h.record_eq
    rw [hx]
    exact h.live
  chunks := ⟨parts, Publishable.chunks (h.publishable hi).1 h.publishes,
    h.publishes.toExtends.content hcontent⟩

namespace Revision

variable {old r x : ObjectRecord} {s : ObjectSession} {parts : List Chunk} {raw : Option Bytes}
  {now : Int} {expected : Nat}

/-- The revised record is what a reader finds. -/
theorem get (h : Revision P m db stored expected old r s parts raw now x db')
    (hi : HistoryInvariant P m db) : Impl.get db' x.key x.version = .ok (some x) := by
  obtain ⟨_, _, -, -, hx, hp⟩ := publish_ok h.publish
  obtain ⟨⟨o, ho, hindex, -⟩, -, -, -, hs, -⟩ := h.publishable hi
  rw [hx] at hp ⊢
  exact hp.get ho hindex hs

/-- The chunk list of the revised record is the one given. -/
theorem chunks (h : Revision P m db stored expected old r s parts raw now x db')
    (hi : HistoryInvariant P m db) : Impl.chunks db' x.key x.version = .ok parts := by
  obtain ⟨_, _, -, -, -, hp⟩ := publish_ok h.publish
  exact Publishable.chunks (hi.of_stores h.stores) hp

/-- What a revision writes: the key of its object, the next version, and the fields it was given. -/
theorem fields (h : Revision P m db stored expected old r s parts raw now x db') :
    x.key = r.key ∧ x.version = old.version + 1 ∧ x.version = expected + 1 ∧
      x.deleted = r.deleted := by
  obtain ⟨key, hx⟩ := h.record_eq
  have hversion : x.version = old.version + 1 := by
    rw [hx, ← h.version]
    rfl
  refine ⟨by rw [hx]; rfl, hversion, ?_, by rw [hx]; rfl⟩
  rw [hversion, (require_ok.1 h.require).2.2.2.1]

/-- The revised record is stored with the content it was ingested from. -/
theorem storedContent {content : Bytes}
    (h : Revision P m db stored expected old r s parts raw now x db')
    (hi : HistoryInvariant P m db) (hlive : r.deleted = false)
    (hcontent : Content P stored parts content) : StoredContent P db' x content where
  record := h.get hi
  positive := by
    rw [h.fields.2.1]
    exact Nat.succ_ne_zero _
  live := h.fields.2.2.2.trans hlive
  chunks := by
    obtain ⟨_, _, -, -, -, hp⟩ := publish_ok h.publish
    exact ⟨parts, h.chunks hi, hp.toExtends.content hcontent⟩

end Revision

/-! ## What a call produces -/

/-- A call produced a record from source bytes. -/
inductive Produced : Call → Response → ObjectRecord → Bytes → Prop where
  | importFile {source : SourceFile} {path session : Bytes} {options : ObjectWriteOptions}
      {x : ObjectRecord} :
      Produced (.importFile source path session options) (.records [x]) x source.content
  | importFiles {files : List ObjectImport} {session : Bytes} {records : List ObjectRecord}
      {i : Nat} {file : ObjectImport} {x : ObjectRecord} {content : Bytes} :
      files[i]? = some file → records[i]? = some x → file.read = .ok content →
      Produced (.importFiles files session) (.records records) x content
  | wrapRaw {captured : CapturedSource} {path : Bytes} {metadata : RawMetadata}
      {session : Bytes} {options : ObjectWriteOptions} {x : ObjectRecord} :
      Produced (.wrapRaw (.ok captured) path metadata session options) (.records [x]) x
        captured.file.content
  | importDocument {captured : CapturedSource} {path : Bytes} {metadata : RawMetadata}
      {session : Bytes} {options : ObjectWriteOptions} {d : ObjectDocument} :
      Produced (.importDocument (.ok captured) path metadata session options) (.document d)
        d.file captured.file.content
  | importOriginal {captured : CapturedSource} {path : Bytes} {metadata : RawMetadata}
      {session : Bytes} {options : ObjectWriteOptions} {d : ObjectDocument} :
      Produced (.importDocument (.ok captured) path metadata session options) (.document d)
        d.original.record captured.file.content
  | reviseFile {key : Bytes} {source : SourceFile} {expected : Nat} {session : Bytes}
      {options : ObjectWriteOptions} {x : ObjectRecord} :
      Produced (.reviseFile key source expected session options) (.records [x]) x source.content

/-- A call produced a version from the content of the version before. -/
inductive Carried : Call → Response → ObjectRecord → Prop where
  | move {key path session : Bytes} {expected : Nat} {options : ObjectWriteOptions}
      {x : ObjectRecord} :
      Carried (.move key path expected session options) (.records [x]) x
  | reviseMetadata {key session : Bytes} {metadata : FileMetadata} {expected : Nat}
      {x : ObjectRecord} : x.version = expected + 1 →
      Carried (.reviseMetadata key metadata expected session) (.records [x]) x

/-! ## One call -/

/-- Every record of a batch is stored with the bytes its file was read as. -/
theorem Imports.storedContent {s : ObjectSession}
    {files : List (ObjectImport × PreparedObjectSource)} {records : List ObjectRecord}
    (h : Imports P m s db files records db') (hm : m.Opens container)
    (hi : HistoryInvariant P m db) (hpub : Published db) {i : Nat} {file : ObjectImport}
    {input : PreparedObjectSource} {x : ObjectRecord} (hfile : files[i]? = some (file, input))
    (hx : records[i]? = some x) : StoredContent P db' x input.bytes := by
  induction h generalizing i with
  | nil => cases hx
  | @cons db stored mid db' file' input' files r x' records parts now hc hing _ _ hrest ih =>
      obtain ⟨hi', hpub', -⟩ := Package.changes_keep hm hi hpub (.single (.create hc))
      cases i with
      | zero =>
          simp only [List.getElem?_cons_zero, Option.some.injEq, Prod.mk.injEq] at hfile hx
          obtain ⟨-, rfl⟩ := hfile
          subst hx
          obtain ⟨-, -, hext⟩ := Package.changes_keep hm hi' hpub' hrest.changes
          exact (hc.storedContent hi hing.reads).of_extends hext
      | succ i => exact ih hi' hpub' hfile hx

/-- What `readObjectBatch` read for a file. -/
theorem readObjectBatch_getElem {files : List ObjectImport}
    {prepared : List PreparedObjectSource}
    (h : ObjectStore.readObjectBatch files = .ok prepared) {i : Nat} {file : ObjectImport}
    (hfile : files[i]? = some file) : ∃ input, prepared[i]? = some input ∧
      file.read = .ok input.bytes := by
  simp only [ObjectStore.readObjectBatch, bind_ok] at h
  obtain ⟨-, -, -, -, h⟩ := h
  induction files generalizing i prepared with
  | nil => cases hfile
  | cons head files ih =>
      rw [List.mapM_cons] at h
      simp only [bind_ok, pure_ok] at h
      obtain ⟨input, ⟨bytes, hread, rfl⟩, rest, hrest, rfl⟩ := h
      cases i with
      | zero =>
          simp only [List.getElem?_cons_zero, Option.some.injEq] at hfile
          subst hfile
          exact ⟨_, rfl, hread⟩
      | succ i => exact ih (i := i) hfile hrest

/-- **A call that succeeds stores what it produced.** Each of the calls stores the chunks of its
content before the revision that names them. -/
theorem Call.run_produced {call : Call} {before : ObjectTables} {draws : Draws}
    {response : Response} {x : ObjectRecord} {content : Bytes}
    (hcall : Produced call response x content) (hm : m.Opens container)
    (hi : HistoryInvariant P m db) (hpub : Published db)
    (h : call.run P m before db draws = .ok (response, db')) : StoredContent P db' x content := by
  cases hcall with
  | importFile =>
      simp only [Call.run, map_ok, Prod.exists, Response.ofRecord, Prod.mk.injEq,
        Response.records.injEq, List.cons.injEq, and_true] at h
      obtain ⟨x, db', h, rfl, rfl⟩ := h
      obtain ⟨_, _, _, _, -, hc, hing, -⟩ := storeImportFile_ok h
      exact hc.storedContent hi hing.reads
  | importFiles hfile hx hread =>
      simp only [Call.run, map_ok, Prod.exists, Prod.mk.injEq, Response.records.injEq] at h
      obtain ⟨records, db', h, rfl, rfl⟩ := h
      obtain ⟨s, prepared, -, hprepared, hi'⟩ := importFiles_ok h
      obtain ⟨input, hinput, hread'⟩ := readObjectBatch_getElem hprepared hfile
      obtain rfl : content = input.bytes := by simpa [hread] using hread'
      refine hi'.storedContent hm hi hpub (List.getElem?_zip_eq_some.2 ⟨hfile, hinput⟩) hx
  | wrapRaw =>
      simp only [Call.run, map_ok, Prod.exists, Response.ofRecord, Prod.mk.injEq,
        Response.records.injEq, List.cons.injEq, and_true] at h
      obtain ⟨x, db', h, rfl, rfl⟩ := h
      obtain ⟨captured, _, _, _, _, _, hsource, -, -, hc, hing, -⟩ := wrapRaw_ok h
      cases hsource
      exact hc.storedContent hi hing.reads
  | importDocument =>
      simp only [Call.run, map_ok, Prod.exists, Prod.mk.injEq, Response.document.injEq] at h
      obtain ⟨d, db', h, rfl, rfl⟩ := h
      obtain ⟨captured, _, _, _, _, _, mid, _, parts, _, hsource, -, -, hraw, hworking, hing,
        hparts, -⟩ := importDocument_ok h
      cases hsource
      obtain ⟨hi', -⟩ := Package.changes_keep hm hi hpub (.single (.create hraw))
      -- The working object refers to the chunks of the original, which are in place by then.
      have horiginal := (hraw.storedContent hi hing.reads).of_extends hworking.stored_extends
      obtain ⟨parts', hparts', hcontent⟩ := horiginal.chunks
      have hversion : d.original.record.version = 1 := by
        obtain ⟨key, hrecord⟩ := hraw.record_eq
        rw [hrecord]
        exact hraw.version
      rw [hversion, hparts, Except.ok.injEq] at hparts'
      exact hworking.storedContent hi' (hparts' ▸ hcontent)
  | importOriginal =>
      simp only [Call.run, map_ok, Prod.exists, Prod.mk.injEq, Response.document.injEq] at h
      obtain ⟨d, db', h, rfl, rfl⟩ := h
      obtain ⟨captured, _, _, _, _, _, mid, _, _, _, hsource, -, -, hraw, hworking, hing, -⟩ :=
        importDocument_ok h
      cases hsource
      exact (hraw.storedContent hi hing.reads).of_extends hworking.toExtends
  | reviseFile =>
      simp only [Call.run, map_ok, Prod.exists, Response.ofRecord, Prod.mk.injEq,
        Response.records.injEq, List.cons.injEq, and_true] at h
      obtain ⟨x, db', h, rfl, rfl⟩ := h
      obtain ⟨_, _, _, _, _, -, -, hr, hing, -, -, hlive, -⟩ := reviseFile_ok h
      exact hr.storedContent hi hlive hing.reads

/-- A revision that keeps the chunks of the version before, and is live as that one. The chunks of
the new revision are those of the old one, and what they held they still hold. -/
theorem Revision.carries {old r x : ObjectRecord} {s : ObjectSession} {parts : List Chunk}
    {raw : Option Bytes} {now : Int} {expected : Nat}
    (h : Revision P m db db expected old r s parts raw now x db') (hi : HistoryInvariant P m db)
    (hlive : r.deleted = false) (hparts : Impl.chunks db r.key old.version = .ok parts) :
    ∃ content, StoredContent P db' x content ∧ StoredContent P db' old content ∧
      Impl.chunks db' x.key x.version = Impl.chunks db' old.key old.version ∧
      old.key = x.key ∧ old.version + 1 = x.version := by
  obtain ⟨hget, hold, hpos, hversion, -, -⟩ := require_ok.1 h.require
  have hkey : old.key = r.key := require_key h.require
  obtain ⟨hxkey, hxversion, -, -⟩ := h.fields
  -- The chunk list of the old head is a content, since the revised record is valid with it.
  obtain ⟨-, content, hcontent, -⟩ := ((h.publishable hi).intact).content hlive
  obtain ⟨row, o, srow, hrow, ho, hsrow, hrecord, -, -⟩ := get_record hget
  have hread : Impl.get db old.key old.version = .ok (some old) := by
    rw [get_ok, versionOf_pos (by omega), joined_eq_some, hkey]
    exact ⟨(get_ok.1 hget).1, row, o, srow, hrow, ho, hsrow, hrecord⟩
  have hstored : StoredContent P db old content :=
    ⟨hread, by omega, hold, parts, by rw [hkey]; exact hparts, hcontent⟩
  refine ⟨content, h.storedContent hi hlive hcontent, hstored.of_extends h.toExtends, ?_,
    hkey.trans hxkey.symm, hxversion.symm⟩
  rw [h.chunks hi, h.toExtends.chunkList hstored.revision (hkey ▸ hparts)]

/-- **A move or a metadata revision carries the content over.** Both calls publish a revision with
the chunks of the version before, and the lemma about such a revision gives the rest. -/
theorem Call.run_carried {call : Call} {before : ObjectTables} {draws : Draws}
    {response : Response} {x : ObjectRecord} (hcall : Carried call response x)
    (hi : HistoryInvariant P m db) (h : call.run P m before db draws = .ok (response, db')) :
    ∃ old content, StoredContent P db' x content ∧ StoredContent P db' old content ∧
      Impl.chunks db' x.key x.version = Impl.chunks db' old.key old.version ∧
      old.key = x.key ∧ old.version + 1 = x.version := by
  cases hcall with
  | move =>
      simp only [Call.run, map_ok, Prod.exists, Response.ofRecord, Prod.mk.injEq,
        Response.records.injEq, List.cons.injEq, and_true] at h
      obtain ⟨x, db', h, rfl, rfl⟩ := h
      obtain ⟨old, r, s, parts, hkey, -, hparts, hr, -, -, hlive, -⟩ := move_ok h
      exact ⟨old, hr.carries hi hlive (hkey ▸ hparts)⟩
  | reviseMetadata hversion =>
      simp only [Call.run, map_ok, Prod.exists, Response.ofRecord, Prod.mk.injEq,
        Response.records.injEq, List.cons.injEq, and_true] at h
      obtain ⟨x, db', h, rfl, rfl⟩ := h
      obtain ⟨old, s, _, _, _, hold, -, -, -, -, -, h⟩ := reviseMetadata_ok h
      rcases h with ⟨-, rfl, -⟩ | ⟨-, r, parts, hkey, hparts, hr, -, hlive, -⟩
      · have := (require_ok.1 hold).2.2.2.1
        omega
      · exact ⟨old, hr.carries hi hlive (hkey ▸ hparts)⟩

/-! ## Any number of calls -/

/-- A revision is found the same in two packages. -/
structure SameRevision (m : Impl) (db db' : ObjectTables) (key : Bytes) (v : Nat) : Prop where
  row : db'.revisions.find (key, v) = db.revisions.find (key, v)
  record : Impl.get db' key v = Impl.get db key v
  raw : m.rawDocument db' key v = m.rawDocument db key v
  chunks : Impl.chunks db' key v = Impl.chunks db key v

/-- A revision with stored content is found the same in every extension. -/
theorem StoredContent.same {x : ObjectRecord} {content : Bytes}
    (h : StoredContent P db x content) (hext : Extends db db') :
    SameRevision m db db' x.key x.version where
  row := by
    obtain ⟨r, hr⟩ := Option.ne_none_iff_exists'.1 h.revision
    rw [hr, hext.revisions _ _ hr]
  record := by rw [h.record, (h.of_extends hext).record]
  raw := by
    unfold Impl.rawDocument
    rw [hext.raw _ h.revision]
  chunks := by
    obtain ⟨parts, hparts, -⟩ := h.chunks
    rw [hparts, hext.chunkList h.revision hparts]

namespace Package

variable {σ : Package}

/-- Stored content of a sound package is valid. -/
theorem Sound.validate {x : ObjectRecord} {content : Bytes} (hs : Sound P container σ)
    (hm : m.Opens container) (h : StoredContent P σ.tables x content) :
    Impl.validate P m σ.tables x.key x.version true = .ok true := by
  have hi := hs.history m hm
  obtain ⟨o, ho, hpos, hle⟩ := (hi.versions_iff x.key x.version).1 h.revision
  obtain ⟨hmem, hkey⟩ := Table.find_eq_some.1 ho
  rw [← hkey]
  exact hi.valid o hmem x.version hpos hle

/-- The content of a package is append-only. -/
structure ContentKept (P : Platform) (container : Bytes) (σ : Package) : Prop where
  /-- A version that was produced from source bytes stays as it is, stays valid, and extracts
  to those bytes. -/
  produced : ∀ {τ ρ call response x content events}, Step P σ (.commit call response) τ →
    Produced call response x content → Run (Step P) τ events ρ →
    ∀ m : Impl, m.Opens container →
      x.deleted = false ∧ Impl.get τ.tables x.key x.version = .ok (some x) ∧
      SameRevision m τ.tables ρ.tables x.key x.version ∧
      Impl.validate P m ρ.tables x.key x.version true = .ok true ∧
      ∀ destination : Destination, destination.Succeeds →
        ObjectStore.extract P m ρ.tables x.key x.version destination = .ok content
  /-- A version that was moved to or got new metadata extracts as the version before. -/
  carried : ∀ {τ ρ call response x events}, Step P σ (.commit call response) τ →
    Carried call response x → Run (Step P) τ events ρ → ∀ m : Impl, m.Opens container →
      ∃ v content, v ≠ 0 ∧ x.version = v + 1 ∧ ∀ destination : Destination,
        ObjectStore.extract P m ρ.tables x.key (v + 1) destination
          = ObjectStore.extract P m ρ.tables x.key v destination ∧
        (destination.Succeeds →
          ObjectStore.extract P m ρ.tables x.key v destination = .ok content)

/-- **The content of a package is append-only**, from any state the stores reach. A version that a
call produced from source bytes stays as it is and valid on every later run, and extracts to those
bytes; one that was moved to or got new metadata extracts as the version before. -/
theorem Reachable.contentKept (h : Reachable P container σ) : ContentKept P container σ where
  produced {τ ρ call response x content events} hstep hproduced hrun m hm := by
    obtain ⟨m', before, draws, hm', hcall⟩ := h.sound.commit hstep
    have hτ := (hstep.keeps h.sound).1
    have hρ : Sound P container ρ := hrun.invariant (fun hs hstep => (hstep.keeps hs).1) hτ
    have hstored := Call.run_produced hproduced hm' (h.sound.history m' hm') h.sound.published
      hcall
    have hext := Run.extends hrun hτ
    have hvalid := hρ.validate hm (hstored.of_extends hext)
    exact ⟨hstored.live, hstored.record, hstored.same hext, hvalid,
      fun _ hd => (hstored.of_extends hext).extract hvalid hd⟩
  carried {τ ρ call response x events} hstep hcarried hrun m hm := by
    obtain ⟨m', before, draws, hm', hcall⟩ := h.sound.commit hstep
    have hτ := (hstep.keeps h.sound).1
    have hρ : Sound P container ρ := hrun.invariant (fun hs hstep => (hstep.keeps hs).1) hτ
    obtain ⟨old, content, hx, hold, hchunks, hkey, hversion⟩ :=
      Call.run_carried hcarried (h.sound.history m' hm') hcall
    have hext := Run.extends hrun hτ
    have hx' := hx.of_extends hext
    have hold' := hold.of_extends hext
    have hxv := hρ.validate hm hx'
    have holdv := hρ.validate hm hold'
    obtain ⟨parts, hparts, -⟩ := hx'.chunks
    have hparts' : Impl.chunks ρ.tables old.key old.version = .ok parts := by
      rw [(hold.same (m := m) hext).chunks, ← hchunks, ← (hx.same (m := m) hext).chunks, hparts]
    refine ⟨old.version, content, hold.positive, hversion.symm, fun destination => ?_⟩
    rw [hversion, extract_eq hx'.record hx'.live hxv hparts, ← hkey,
      extract_eq hold'.record hold'.live holdv hparts']
    refine ⟨rfl, fun hd => ?_⟩
    rw [← extract_eq hold'.record hold'.live holdv hparts']
    exact hold'.extract holdv hd

/-- The content of the package the sample calls leave is append-only. -/
theorem Reachable.contentKept_sample : ∃ responses db,
    exec .reference .reference sampleCalls (.fresh (ascii "c")) = .ok (responses, db) ∧
      ContentKept .reference (ascii "c") ⟨db, []⟩ := by
  have hok : (exec .reference .reference sampleCalls (.fresh (ascii "c"))).isOk = true := by
    decide +kernel
  obtain ⟨⟨responses, db⟩, h⟩ := exists_of_isOk hok
  exact ⟨responses, db, h, Reachable.contentKept (reachable_of_exec opens_reference h)⟩

end Package

end FileProvider
