import FileProvider.Object.History
import FileProvider.Object.System

/-!
# What the calls do

Each writing call that succeeds is a short sequence of changes: a session that begins or ends,
the creation of an object, or the publication of its next revision. A creation or a revision
says where its content comes from: it was ingested, it is kept from a revision that is there,
or there is none because the object is erased. Facts about all calls are proved for the four
changes.

`Call.run_cases` is the inversion of a call, proved once from the source of each; what a run of
calls keeps is then proved for four changes and not for every call. A call in a session that has
ended is none of them, which `ActiveChange` records.
-/

namespace FileProvider

open Bytes Fallible Impl

variable {P : Platform} {m : Impl} {db db' stored : ObjectTables}

/-! ## The changes -/

/-- Where the content of a record comes from. -/
inductive Sourced (P : Platform) (db stored : ObjectTables) (r : ObjectRecord)
    (parts : List Chunk) : Prop where
  | ingested (content : Bytes) : Ingested P stored content parts → r.sha256 = P.hash content →
      r.size = content.length → r.deleted = false → Sourced P db stored r parts
  | kept (old : ObjectRecord) : Impl.get db old.key old.version = .ok (some old) →
      old.version ≠ 0 → chunks db old.key old.version = .ok parts → r.sha256 = old.sha256 →
      r.size = old.size → old.deleted = false → r.deleted = false → Sourced P db stored r parts
  | erased : r.deleted = true → parts = [] → Sourced P db stored r parts

/-- The creation of an object with its first revision. `stored` are the tables once the row of
the object and the chunks are in. -/
structure Creation (P : Platform) (m : Impl) (db stored : ObjectTables) (r : ObjectRecord)
    (s : ObjectSession) (parts : List Chunk) (document : Bytes) (now : Int) (x : ObjectRecord)
    (db' : ObjectTables) : Prop where
  publish : publish P m stored r s parts (some document) now = .ok (x, db')
  session : getSession db s.key true = .ok s
  insert : ∃ created, db.insertObject r.key r.path = .ok (r.indexKey, created) ∧
    Stores created stored
  version : r.version = 1
  parent : r.parentValidationKey = []
  live : r.deleted = false
  source : Sourced P db stored r parts

/-- The publication of the next revision of an object. -/
structure Revision (P : Platform) (m : Impl) (db stored : ObjectTables) (expected : Nat)
    (old r : ObjectRecord) (s : ObjectSession) (parts : List Chunk) (raw : Option Bytes)
    (now : Int) (x : ObjectRecord) (db' : ObjectTables) : Prop where
  publish : publish P m stored r s parts raw now = .ok (x, db')
  require : require P m db r.key expected = .ok old
  session : getSession db s.key true = .ok s
  stores : Stores db stored
  indexKey : r.indexKey = old.indexKey
  version : r.version = old.version + 1
  parent : r.parentValidationKey = old.validationKey
  source : Sourced P db stored r parts
  /-- Only an object with a RAW document is given another one. -/
  document : raw ≠ none → ∃ previous, m.rawDocument db r.key old.version = .ok previous ∧
    previous ≠ []

/-- A change of the tables. -/
inductive Change (P : Platform) (m : Impl) : ObjectTables → ObjectTables → Prop where
  | beginSession {db mid db' : ObjectTables} {row : SessionRow} {context : Bytes} :
      db.insertSession row = .ok mid → mid.insertWorkSession row.sessionKey context = .ok db' →
      Change P m db db'
  | endSession {db db' : ObjectTables} {key : Bytes} {ended : Int} :
      db.setEnded key ended = .ok db' → Change P m db db'
  | create {db stored db' : ObjectTables} {r x : ObjectRecord} {s : ObjectSession}
      {parts : List Chunk} {document : Bytes} {now : Int} :
      Creation P m db stored r s parts document now x db' → Change P m db db'
  | revise {db stored db' : ObjectTables} {expected : Nat} {old r x : ObjectRecord}
      {s : ObjectSession} {parts : List Chunk} {raw : Option Bytes} {now : Int} :
      Revision P m db stored expected old r s parts raw now x db' → Change P m db db'

/-! ## Reading a live object -/

/-- A session that is found has the key that was asked for. -/
theorem getSession_key {key : Bytes} {active : Bool} {s : ObjectSession}
    (h : getSession db key active = .ok s) : s.key = key := by
  obtain ⟨-, row, hrow, -, rfl⟩ := getSession_ok.1 h
  have hkey : row.sessionKey = key := Table.key_of_find hrow
  exact hkey

/-- A session read as active is read under its own key. -/
theorem getSession_self {key : Bytes} {s : ObjectSession}
    (h : getSession db key true = .ok s) : getSession db s.key true = .ok s := by
  rwa [getSession_key h]

/-- What a reader knows about a record it found. -/
theorem get_record {key : Bytes} {v : Nat} {x : ObjectRecord}
    (h : Impl.get db key v = .ok (some x)) : ∃ r o s,
      db.revisions.find (key, x.version) = some r ∧ db.objects.find key = some o ∧
      db.sessions.find r.sessionKey = some s ∧ record r o s = x ∧ x.key = key ∧
      x.version = (if v = 0 then o.head else v) := by
  obtain ⟨-, hjoin⟩ := get_ok.1 h
  obtain ⟨r, o, s, hr, ho, hs, rfl⟩ := joined_eq_some.1 hjoin
  have hid : r.id = (key, versionOf db key v) := Table.key_of_find hr
  obtain ⟨hkey, hversion⟩ := Prod.mk.inj hid
  refine ⟨r, o, s, ?_, ho, hs, rfl, hkey, ?_⟩
  · change db.revisions.find (key, r.version) = some r
    rw [hversion]
    exact hr
  · change r.version = _
    rw [hversion, versionOf, ho]
    rfl

/-- A required head is the live one of the expected version, with content that validates. -/
theorem require_ok {key : Bytes} {expected : Nat} {r : ObjectRecord} :
    require P m db key expected = .ok r ↔ Impl.get db key 0 = .ok (some r) ∧
      r.deleted = false ∧ expected ≠ 0 ∧ r.version = expected ∧ expected < int64Max ∧
      Impl.validate P m db key r.version false = .ok true := by
  unfold require
  simp only [bind_ok]
  constructor
  · rintro ⟨o, ho, h⟩
    cases o with
    | none => cases h
    | some x =>
        simp only [bind_ok, failIf_ok, pure_ok, not_or, not_le, Bool.not_eq_true,
          Bool.not_eq_false] at h
        obtain ⟨-, hlive, -, hversion, valid, hvalid, -, rfl, rfl⟩ := h
        exact ⟨ho, hlive, hversion.1, by simpa using hversion.2.1, hversion.2.2, hvalid⟩
  · rintro ⟨hget, hlive, hpos, hversion, hmax, hvalid⟩
    refine ⟨some r, hget, ?_⟩
    simp only [bind_ok, failIf_ok, pure_ok]
    exact ⟨(), by simp [hlive], (), by omega, true, hvalid, (), by simp⟩

/-- The record of the head of an object. -/
theorem headRecord_ok {o : ObjectRow} {x : ObjectRecord}
    (h : ObjectStore.headRecord db o = some x) :
    x.key = o.objectKey ∧ x.version = o.head ∧ x.indexKey = o.indexKey ∧
      db.revisions.find (o.objectKey, o.head) ≠ none := by
  simp only [ObjectStore.headRecord, Option.bind_eq_bind, Option.bind_eq_some_iff,
    Option.pure_def, Option.some.injEq] at h
  obtain ⟨r, hr, s, -, rfl⟩ := h
  have hid : r.id = (o.objectKey, o.head) := Table.key_of_find hr
  obtain ⟨hkey, hversion⟩ := Prod.mk.inj hid
  exact ⟨hkey, hversion, rfl, hr ▸ Option.some_ne_none r⟩

/-- The key of an object gives the record its path gives. -/
theorem joined_head {o : ObjectRow} (ho : o ∈ db.objects) :
    joined db o.objectKey (versionOf db o.objectKey 0) = ObjectStore.headRecord db o := by
  have hrow : db.objects.find o.objectKey = some o := Table.mem_iff_find.1 ho
  have hversion : versionOf db o.objectKey 0 = o.head := by
    unfold versionOf
    rw [if_pos rfl, hrow]
    rfl
  unfold joined ObjectStore.headRecord
  rw [hversion]
  cases hr : db.revisions.find (o.objectKey, o.head) with
  | none => rfl
  | some r =>
      have hid : r.id = (o.objectKey, o.head) := Table.key_of_find hr
      obtain ⟨hkey, -⟩ := Prod.mk.inj hid
      have hown : db.objects.find r.objectKey = some o := hkey ▸ hrow
      simp only [Option.bind_eq_bind, Option.bind_some, hown]

/-- What is found under a path is the head of a live object of that path. -/
theorem lookupPath_ok {path : Bytes} {x : ObjectRecord}
    (h : ObjectStore.lookupPath db path = .ok (some x)) :
    ∃ o ∈ db.objects, o.path = path ∧ o.deleted = false ∧
      ObjectStore.headRecord db o = some x := by
  simp only [ObjectStore.lookupPath, bind_ok, pure_ok] at h
  obtain ⟨-, -, hsome⟩ := h
  obtain ⟨o, ho, hrecord⟩ := List.exists_of_findSome?_eq_some hsome
  obtain ⟨hobject, ho⟩ := List.mem_filter.1 ho
  obtain ⟨hpath, hlive⟩ := of_decide_eq_true ho
  exact ⟨o, hobject, hpath, hlive, hrecord⟩

/-! ## What each call does -/

/-- An import that returns has stored the source's content and created an object with it, at a valid
path. -/
theorem importFile_ok {source : ImportSource} {path raw : Bytes} {s : ObjectSession}
    {options : ObjectWriteOptions} {random : Fin 16 → UInt8} {now : Int} {x : ObjectRecord}
    (h : Impl.importFile P m db source path s options raw random now = .ok (x, db'))
    (hs : getSession db s.key true = .ok s) :
    ∃ r parts stored, Creation P m db stored r s parts raw now x db' ∧
      Ingested P stored source.content parts ∧ pathValid path = .ok () ∧
      r.key = uniqueKey random (ascii "object-") ∧ r.path = path ∧
      r.sha256 = P.hash source.content ∧ r.size = source.content.length ∧
      r.authorship = options.authorship.getD .unknown ∧ r.sourceStamp = options.sourceStamp := by
  simp only [Impl.importFile, bind_ok, Prod.exists] at h
  obtain ⟨-, -, -, -, u, hpath, -, -, indexKey, created, hins, parts, r, stored, hing, hpub⟩ := h
  obtain ⟨hstores, hcontent, rfl⟩ := ingestSource_ok hing
  refine ⟨_, parts, stored, ⟨hpub, hs, ⟨created, hins, hstores⟩, rfl, rfl, rfl, ?_⟩, hcontent,
    hpath, rfl, rfl, rfl, rfl, rfl, rfl⟩
  exact .ingested source.content hcontent rfl rfl rfl

namespace Creation

variable {r x : ObjectRecord} {s : ObjectSession} {parts : List Chunk} {document : Bytes}
  {now : Int}

/-- What was stored before the publication. -/
theorem stored_extends (h : Creation P m db stored r s parts document now x db') :
    Extends db stored := by
  obtain ⟨created, hins, hstores⟩ := h.insert
  exact (insertObject_extends hins).trans hstores.toExtends

/-- What is stored before a creation leaves the sessions. -/
theorem stored_sessions (h : Creation P m db stored r s parts document now x db') :
    stored.sessions = db.sessions := by
  obtain ⟨created, hins, hstores⟩ := h.insert
  obtain ⟨-, -, -, objects, -, rfl⟩ := ObjectTables.insertObject_ok hins
  rw [hstores.rest]

/-- A creation ends in a publication. -/
theorem publishes (h : Creation P m db stored r s parts document now x db') :
    Publishes stored x parts document db' := by
  obtain ⟨d, -, hd, -, -, hp⟩ := publish_ok h.publish
  obtain rfl := pure_ok.1 hd
  exact hp

/-- A creation extends the package. -/
theorem toExtends (h : Creation P m db stored r s parts document now x db') : Extends db db' :=
  h.stored_extends.trans h.publishes.toExtends

/-- A creation leaves the sessions. -/
theorem sessions (h : Creation P m db stored r s parts document now x db') :
    db'.sessions = db.sessions :=
  h.publishes.sessions.trans h.stored_sessions

/-- A session that was active before a creation is active after it. -/
theorem getSession (h : Creation P m db stored r s parts document now x db') {key : Bytes}
    {active : Bool} {s' : ObjectSession} (hs : Impl.getSession db key active = .ok s') :
    Impl.getSession db' key active = .ok s' := by
  rw [getSession_ok] at hs ⊢
  rwa [h.sessions]

/-- What publication makes of a record. -/
theorem record_eq (h : Creation P m db stored r s parts document now x db') :
    ∃ key, x = (r.stamped s now).withKey key := by
  obtain ⟨_, _, -, -, hx, -⟩ := publish_ok h.publish
  exact ⟨_, hx⟩

/-- The row of the new object once its content is stored. -/
theorem stored_object (h : Creation P m db stored r s parts document now x db') :
    stored.objects.find r.key = some ⟨r.indexKey, r.key, 0, r.path, false⟩ := by
  obtain ⟨created, hins, hstores⟩ := h.insert
  obtain ⟨-, -, -, objects, hrow, rfl⟩ := ObjectTables.insertObject_ok hins
  rw [hstores.rest, (Table.find_insert hrow).2]
  exact if_pos rfl

/-- The created record is what a reader finds. -/
theorem get (h : Creation P m db stored r s parts document now x db') :
    Impl.get db' x.key x.version = .ok (some x) := by
  obtain ⟨key, hx⟩ := h.record_eq
  have hp := h.publishes
  have hs := h.session
  rw [getSession_ok, ← h.stored_sessions, ← getSession_ok] at hs
  rw [hx] at hp ⊢
  exact hp.get h.stored_object rfl hs

end Creation

/-- A first version carries no document over. -/
theorem publish_first {r : ObjectRecord} {s : ObjectSession} {parts : List Chunk} {now : Int}
    (hr : r.version = 1) : publish P m db r s parts none now
      = publish P m db r s parts (some []) now := by
  have hdoc : carriedDocument m db r none = carriedDocument m db r (some []) := by
    simp only [carriedDocument]
    exact if_neg (by omega)
  rw [publish, publish, hdoc]

namespace Revision

variable {old r x : ObjectRecord} {s : ObjectSession} {parts : List Chunk}
  {raw : Option Bytes} {now : Int} {expected : Nat}

/-- A revision extends the package. -/
theorem toExtends (h : Revision P m db stored expected old r s parts raw now x db') :
    Extends db db' := by
  obtain ⟨_, _, -, -, -, hp⟩ := publish_ok h.publish
  exact h.stores.toExtends.trans hp.toExtends

/-- What publication makes of a record. -/
theorem record_eq (h : Revision P m db stored expected old r s parts raw now x db') :
    ∃ key, x = (r.stamped s now).withKey key := by
  obtain ⟨_, _, -, -, hx, -⟩ := publish_ok h.publish
  exact ⟨_, hx⟩

end Revision

/-- Beginning a session inserts its row and, with its context, that of its working session. -/
theorem beginSession_ok {author : ObjectAuthor} {device description : Bytes}
    {context : ObjectSessionContext} {draws : Draws} {s : ObjectSession}
    (h : ObjectStore.beginSession P m db author device description context draws
      = .ok (s, db')) :
    ∃ row mid document, MetadataCodec.encodeSessionContext P.json context = .ok document ∧
      db.insertSession row = .ok mid ∧
      mid.insertWorkSession row.sessionKey document = .ok db' := by
  simp only [ObjectStore.beginSession, bind_ok, pure_ok, Prod.mk.injEq] at h
  obtain ⟨-, -, -, -, -, -, document, hencode, -, -, -, -, mid, hmid, last, hlast, -, rfl⟩ := h
  exact ⟨_, mid, document, hencode, hmid, hlast⟩

/-- A session that is ended was active, and its end is the time that was drawn. -/
theorem endSession_ok {key : Bytes} {draws : Draws}
    (h : ObjectStore.endSession m db key draws = .ok db') :
    (∃ s, getSession db key true = .ok s) ∧ db.setEnded key (draws.now 0) = .ok db' := by
  simp only [ObjectStore.endSession, bind_ok] at h
  obtain ⟨-, -, s, hs, h⟩ := h
  exact ⟨⟨s, hs⟩, h⟩

/-- Wrapping a RAW file creates an object with the captured content and the encoded metadata. -/
theorem wrapRaw_ok {before : ObjectTables} {source : Fallible CapturedSource}
    {path session : Bytes} {metadata : RawMetadata} {options : ObjectWriteOptions}
    {draws : Draws} {x : ObjectRecord}
    (h : ObjectStore.wrapRaw P m before db source path metadata session options draws
      = .ok (x, db')) :
    ∃ captured document r s parts stored, source = .ok captured ∧
      MetadataCodec.encodeRawMetadata P.json metadata = .ok document ∧
      getSession db session true = .ok s ∧
      Creation P m db stored r s parts document (draws.now 0) x db' ∧
      Ingested P stored captured.file.content parts ∧ pathValid path = .ok () ∧
      r.path = path := by
  simp only [ObjectStore.wrapRaw, bind_ok] at h
  obtain ⟨document, hdoc, -, -, -, -, -, -, -, -, -, -, captured, hsource, -, -, s, hs, h⟩ := h
  obtain ⟨r, parts, stored, hc, hi, hpath, -, hr, -⟩ := importFile_ok h (getSession_self hs)
  exact ⟨captured, document, r, s, parts, stored, hsource, hdoc, hs, hc, hi, hpath, hr⟩

/-- Importing a document creates two objects: the RAW original, and the document with its working
copy. -/
theorem importDocument_ok {before : ObjectTables} {source : Fallible CapturedSource}
    {path session : Bytes} {metadata : RawMetadata} {options : ObjectWriteOptions}
    {draws : Draws} {d : ObjectDocument}
    (h : ObjectStore.importDocument P m before db source path metadata session options draws
      = .ok (d, db')) :
    ∃ captured document s rawRecord rawParts rawStored mid r parts stored,
      source = .ok captured ∧
      MetadataCodec.encodeRawMetadata P.json metadata = .ok document ∧
      getSession db session true = .ok s ∧
      Creation P m db rawStored rawRecord s rawParts document (draws.now 0) d.original.record
        mid ∧
      Creation P m mid stored r s parts [] (draws.now 1) d.file db' ∧
      Ingested P rawStored captured.file.content rawParts ∧
      chunks stored d.original.record.key 1 = .ok parts ∧
      r.key = uniqueKey (draws.random 0) (ascii "object-") ∧ r.path = path ∧
      rawRecord.path = ObjectStore.originals ++ r.key ∧
      ¬ ObjectStore.originals <+: path ∧ pathValid path = .ok () ∧
      d.original.metadata = metadata ∧ r.sha256 = rawRecord.sha256 ∧
      r.size = rawRecord.size := by
  simp only [ObjectStore.importDocument, bind_ok, Prod.exists, pure_ok, Prod.mk.injEq,
    failIf_ok] at h
  obtain ⟨document, hdoc, u, hpath, -, hprefix, -, -, -, -, -, -, -, -, captured, hsource, -, -,
    s, hs, rawRecord', mid, hraw, indexKey, created, hins, parts, hparts, working, last, hpub,
    -, -, rfl, rfl⟩ := h
  obtain ⟨rawRecord, rawParts, rawStored, hc, hi, -, -, hrpath, hsha, hsize, -⟩ :=
    importFile_ok hraw (getSession_self hs)
  obtain ⟨key, hrecord⟩ := hc.record_eq
  have hversion : rawRecord'.version = 1 := by rw [hrecord]; exact hc.version
  have hlive : rawRecord'.deleted = false := by rw [hrecord]; exact hc.live
  have hread := hc.get
  rw [hversion] at hread hparts
  rw [publish_first rfl] at hpub
  have hsource : ∀ r : ObjectRecord, r.sha256 = rawRecord'.sha256 → r.size = rawRecord'.size →
      r.deleted = false → Sourced P mid created r parts := by
    intro r hr₁ hr₂ hr₃
    refine .kept rawRecord' (hversion ▸ hread) (by omega) ?_ hr₁ hr₂ hlive hr₃
    obtain ⟨-, -, -, objects, -, rfl⟩ := ObjectTables.insertObject_ok hins
    rw [hversion]
    exact hparts
  refine ⟨captured, document, s, rawRecord, rawParts, rawStored, mid, _, parts, created, ‹_›,
    hdoc, hs, hc, ⟨hpub, hc.getSession (getSession_self hs), ⟨created, hins, .refl _⟩, rfl, rfl,
      rfl, ?_⟩, hi, hparts, rfl, rfl, hrpath, hprefix, hpath, rfl, ?_, ?_⟩
  · exact hsource _ rfl rfl rfl
  · rw [hrecord]
    rfl
  · rw [hrecord]
    rfl

/-- Importing a file creates an object with the content of the source. -/
theorem storeImportFile_ok {source : SourceFile} {path session : Bytes}
    {options : ObjectWriteOptions} {draws : Draws} {x : ObjectRecord}
    (h : ObjectStore.importFile P m db source path session options draws = .ok (x, db')) :
    ∃ r s parts stored, getSession db session true = .ok s ∧
      Creation P m db stored r s parts [] (draws.now 0) x db' ∧
      Ingested P stored source.content parts ∧ pathValid path = .ok () ∧ r.path = path := by
  simp only [ObjectStore.importFile, bind_ok] at h
  obtain ⟨-, -, s, hs, h⟩ := h
  obtain ⟨r, parts, stored, hc, hi, hpath, -, hr, -⟩ := importFile_ok h (getSession_self hs)
  exact ⟨r, s, parts, stored, hs, hc, hi, hpath, hr⟩

/-- The creations of a batch, one after the other. -/
inductive Imports (P : Platform) (m : Impl) (s : ObjectSession) :
    ObjectTables → List (ObjectImport × PreparedObjectSource) → List ObjectRecord →
      ObjectTables → Prop where
  | nil (db : ObjectTables) : Imports P m s db [] [] db
  | cons {db stored mid db' : ObjectTables} {file : ObjectImport}
      {input : PreparedObjectSource} {files : List (ObjectImport × PreparedObjectSource)}
      {r x : ObjectRecord} {records : List ObjectRecord} {parts : List Chunk} {now : Int} :
      Creation P m db stored r s parts [] now x mid → Ingested P stored input.bytes parts →
      pathValid file.logicalPath = .ok () → r.path = file.logicalPath →
      Imports P m s mid files records db' →
      Imports P m s db ((file, input) :: files) (x :: records) db'

/-- The loop over prepared sources imports them one by one, by induction on the list. -/
theorem importPrepared_ok {s : ObjectSession} {draws : Draws}
    {files : List (ObjectImport × PreparedObjectSource)} {i : Nat} {records : List ObjectRecord}
    (h : ObjectStore.importPrepared P m s draws files i db = .ok (records, db'))
    (hs : getSession db s.key true = .ok s) : Imports P m s db files records db' := by
  induction files generalizing i db records with
  | nil =>
      simp only [ObjectStore.importPrepared, pure_ok, Prod.mk.injEq] at h
      obtain ⟨rfl, rfl⟩ := h
      exact .nil db
  | cons head files ih =>
      obtain ⟨file, input⟩ := head
      simp only [ObjectStore.importPrepared, bind_ok, Prod.exists, pure_ok, Prod.mk.injEq] at h
      obtain ⟨-, -, x, mid, hx, rest, last, hrest, rfl, rfl⟩ := h
      obtain ⟨r, parts, stored, hc, hi, hpath, -, hr, -⟩ := importFile_ok hx hs
      exact .cons hc hi hpath hr (ih hrest (hc.getSession hs))

/-- A batch prepares its sources and imports them one by one. -/
theorem importFiles_ok {files : List ObjectImport} {session : Bytes} {draws : Draws}
    {records : List ObjectRecord}
    (h : ObjectStore.importFiles P m db files session draws = .ok (records, db')) :
    ∃ s prepared, getSession db session true = .ok s ∧
      ObjectStore.readObjectBatch files = .ok prepared ∧
      Imports P m s db (files.zip prepared) records db' := by
  simp only [ObjectStore.importFiles, bind_ok, Prod.exists, pure_ok, Prod.mk.injEq] at h
  obtain ⟨-, -, -, -, s, hs, -, -, prepared, hprepared, records, last, hrecords, -, -, rfl,
    rfl⟩ := h
  exact ⟨s, prepared, hs, hprepared, importPrepared_ok hrecords (getSession_self hs)⟩

/-- The content of a record that `require` found is kept by a record of the same size and
hash. -/
theorem Sourced.of_require {key : Bytes} {expected : Nat} {old r : ObjectRecord}
    {parts : List Chunk} (h : require P m db key expected = .ok old)
    (hparts : chunks db key old.version = .ok parts) (hsha : r.sha256 = old.sha256)
    (hsize : r.size = old.size) (hlive : r.deleted = false) : Sourced P db db r parts := by
  obtain ⟨hget, hold, hpos, hversion, -, -⟩ := require_ok.1 h
  obtain ⟨row, o, srow, hrow, ho, hsrow, hrecord, hkey, -⟩ := get_record hget
  have hread : Impl.get db old.key old.version = .ok (some old) := by
    rw [get_ok, versionOf_pos (by omega), joined_eq_some, hkey]
    exact ⟨(get_ok.1 hget).1, row, o, srow, hrow, ho, hsrow, hrecord⟩
  exact .kept old hread (by omega) (hkey ▸ hparts) hsha hsize hold hlive

/-- A required head is that of the key that was asked for. -/
theorem require_key {key : Bytes} {expected : Nat} {old : ObjectRecord}
    (h : require P m db key expected = .ok old) : old.key = key := by
  obtain ⟨_, _, _, -, -, -, -, hkey, -⟩ := get_record (require_ok.1 h).1
  exact hkey

/-- Revising a file adds a revision with the content of the source. The old record is required
first, then the content is ingested, and the new revision has what was stored of it. -/
theorem reviseFile_ok {key session : Bytes} {source : SourceFile} {expected : Nat}
    {options : ObjectWriteOptions} {draws : Draws} {x : ObjectRecord}
    (h : ObjectStore.reviseFile P m db key source expected session options draws
      = .ok (x, db')) :
    ∃ old r s parts stored, r.key = key ∧ getSession db session true = .ok s ∧
      Revision P m db stored expected old r s parts none (draws.now 0) x db' ∧
      Ingested P stored source.content parts ∧ m.rawDocument db key old.version = .ok [] ∧
      r.path = old.path ∧ r.deleted = false ∧ r.sha256 = P.hash source.content ∧
      r.size = source.content.length ∧ r.authorship = options.authorship.getD old.authorship ∧
      r.sourceStamp = options.sourceStamp := by
  simp only [ObjectStore.reviseFile, bind_ok, Prod.exists, failIf_ok, not_not] at h
  obtain ⟨-, -, -, -, -, -, old, hold, s, hs, raw, hraw, -, rfl, -, -, parts, r, stored, hing,
    hpub⟩ := h
  have hing : ingestSource P db (.file source) _ options.cancellation = .ok (parts, r, stored) :=
    hing
  obtain ⟨hstores, hcontent, rfl⟩ := ingestSource_ok hing
  have hkey := require_key hold
  have hlive := (require_ok.1 hold).2.1
  refine ⟨old, _, s, parts, stored, ?_, hs, ⟨hpub, ?_, getSession_self hs, hstores, rfl, rfl,
    rfl, .ingested source.content hcontent rfl rfl hlive, fun h => absurd rfl h⟩, hcontent, hraw,
    rfl, hlive, rfl, rfl, rfl, rfl⟩
  · exact hkey
  · exact hkey ▸ hold

/-- Revising the metadata adds a revision with the content as before and a new document. Where the
document stays what it was nothing is stored, and otherwise it is stored with the chunks as they
were. -/
theorem reviseMetadata_ok {key session : Bytes} {metadata : FileMetadata} {expected : Nat}
    {draws : Draws} {x : ObjectRecord}
    (h : ObjectStore.reviseMetadata P m db key metadata expected session draws = .ok (x, db')) :
    ∃ old s previous raw document, require P m db key expected = .ok old ∧
      getSession db session true = .ok s ∧
      m.rawDocument db key old.version = .ok previous ∧ previous ≠ [] ∧
      MetadataCodec.decodeRawMetadata P.json previous = .ok raw ∧
      MetadataCodec.encodeRawMetadata P.json { raw with annotations := metadata }
        = .ok document ∧
      ((document = previous ∧ x = old ∧ db' = db) ∨ (document ≠ previous ∧
        ∃ r parts, r.key = key ∧ chunks db key old.version = .ok parts ∧
          Revision P m db db expected old r s parts (some document) (draws.now 0) x db' ∧
          r.path = old.path ∧ r.deleted = false ∧ r.sha256 = old.sha256 ∧
          r.size = old.size)) := by
  simp only [ObjectStore.reviseMetadata, bind_ok, failIf_ok] at h
  obtain ⟨-, -, -, -, old, hold, s, hs, previous, hprevious, -, hne, raw, hraw, document, hdoc,
    h⟩ := h
  refine ⟨old, s, previous, raw, document, hold, hs, hprevious, hne, hraw, hdoc, ?_⟩
  have hkey := require_key hold
  have hlive := (require_ok.1 hold).2.1
  split at h
  · next heq =>
      simp only [pure_ok, Prod.mk.injEq] at h
      exact .inl ⟨heq, h.1.symm, h.2.symm⟩
  · next hneq =>
      simp only [bind_ok] at h
      obtain ⟨parts, hparts, hpub⟩ := h
      have hsource := Sourced.of_require (r := { old with
        parentValidationKey := old.validationKey, version := old.version + 1,
        operation := ascii "metadata" }) hold hparts rfl rfl hlive
      refine .inr ⟨hneq, _, parts, ?_, hparts, ⟨hpub, ?_, getSession_self hs, .refl db, rfl, rfl,
        rfl, hsource, fun _ => ⟨previous, ?_, hne⟩⟩, rfl, hlive, rfl, rfl⟩
      · exact hkey
      · exact hkey ▸ hold
      · exact hkey ▸ hprevious

/-- Moving adds a revision with the content as before under another path. -/
theorem move_ok {key path session : Bytes} {expected : Nat} {options : ObjectWriteOptions}
    {draws : Draws} {x : ObjectRecord}
    (h : ObjectStore.move P m db key path expected session options draws = .ok (x, db')) :
    ∃ old r s parts, r.key = key ∧ getSession db session true = .ok s ∧
      chunks db key old.version = .ok parts ∧
      Revision P m db db expected old r s parts none (draws.now 0) x db' ∧
      r.path = path ∧ pathValid path = .ok () ∧ r.deleted = false ∧ r.sha256 = old.sha256 ∧
      r.size = old.size := by
  simp only [ObjectStore.move, bind_ok] at h
  obtain ⟨-, -, -, -, -, -, u, hpath, -, -, old, hold, s, hs, parts, hparts, hpub⟩ := h
  have hkey := require_key hold
  have hlive := (require_ok.1 hold).2.1
  have hsource := Sourced.of_require (r := { old with
    sourceStamp := if options.sourceStamp ≠ [] then options.sourceStamp else old.sourceStamp,
    path, parentValidationKey := old.validationKey, version := old.version + 1,
    operation := ascii "move" }) hold hparts rfl rfl hlive
  refine ⟨old, _, s, parts, ?_, hs, hparts, ⟨hpub, ?_, getSession_self hs, .refl db, rfl, rfl,
    rfl, hsource, fun h => absurd rfl h⟩, rfl, hpath, hlive, rfl, rfl⟩
  · exact hkey
  · exact hkey ▸ hold

/-- Erasing adds a revision without content, marked as deleted. -/
theorem erase_ok {key session : Bytes} {expected : Nat} {draws : Draws} {x : ObjectRecord}
    (h : ObjectStore.erase P m db key expected session draws = .ok (x, db')) :
    ∃ old r s, r.key = key ∧ getSession db session true = .ok s ∧
      Revision P m db db expected old r s [] none (draws.now 0) x db' ∧
      r.path = old.path ∧ r.deleted = true := by
  simp only [ObjectStore.erase, bind_ok] at h
  obtain ⟨-, -, old, hold, s, hs, hpub⟩ := h
  have hkey := require_key hold
  refine ⟨old, _, s, ?_, hs, ⟨hpub, ?_, getSession_self hs, .refl db, rfl, rfl, rfl,
    .erased rfl rfl, fun h => absurd rfl h⟩, rfl, rfl⟩
  · exact hkey
  · exact hkey ▸ hold

/-! ## All calls -/

/-- A change in a session that has not ended. -/
inductive ActiveChange (P : Platform) (m : Impl) : ObjectTables → ObjectTables → Prop where
  | beginSession {db mid db' : ObjectTables} {row : SessionRow} {context : Bytes} :
      db.insertSession row = .ok mid → mid.insertWorkSession row.sessionKey context = .ok db' →
      ActiveChange P m db db'
  | endSession {db db' : ObjectTables} {key : Bytes} {s : ObjectSession} {ended : Int} :
      Impl.getSession db key true = .ok s → db.setEnded key ended = .ok db' →
      ActiveChange P m db db'
  | create {db stored db' : ObjectTables} {r x : ObjectRecord} {s : ObjectSession}
      {parts : List Chunk} {document : Bytes} {now : Int} :
      Creation P m db stored r s parts document now x db' → ActiveChange P m db db'
  | revise {db stored db' : ObjectTables} {expected : Nat} {old r x : ObjectRecord}
      {s : ObjectSession} {parts : List Chunk} {raw : Option Bytes} {now : Int} :
      Revision P m db stored expected old r s parts raw now x db' → ActiveChange P m db db'

/-- A change in an active session is a change. -/
theorem ActiveChange.change (h : ActiveChange P m db db') : Change P m db db' := by
  cases h with
  | beginSession h h' => exact .beginSession h h'
  | endSession _ h => exact .endSession h
  | create h => exact .create h
  | revise h => exact .revise h

/-- An object is created or revised in a session that has not ended. -/
inductive Publication (P : Platform) (m : Impl) : ObjectTables → ObjectTables → Prop where
  | create {db stored db' : ObjectTables} {r x : ObjectRecord} {s : ObjectSession}
      {parts : List Chunk} {document : Bytes} {now : Int} :
      Creation P m db stored r s parts document now x db' → Publication P m db db'
  | revise {db stored db' : ObjectTables} {expected : Nat} {old r x : ObjectRecord}
      {s : ObjectSession} {parts : List Chunk} {raw : Option Bytes} {now : Int} :
      Revision P m db stored expected old r s parts raw now x db' → Publication P m db db'

/-- Each publishing call is a change in an active session. -/
theorem Publication.activeChange (h : Publication P m db db') : ActiveChange P m db db' := by
  cases h with
  | create h => exact .create h
  | revise h => exact .revise h

open Relation in
/-- The creations of a batch are publications. -/
theorem Imports.publications {s : ObjectSession}
    {files : List (ObjectImport × PreparedObjectSource)} {records : List ObjectRecord}
    (h : Imports P m s db files records db') : ReflTransGen (Publication P m) db db' := by
  induction h with
  | nil => exact .refl
  | cons hc _ _ _ _ ih => exact .head (.create hc) ih

open Relation in
/-- The creations of a batch are changes. -/
theorem Imports.changes {s : ObjectSession}
    {files : List (ObjectImport × PreparedObjectSource)} {records : List ObjectRecord}
    (h : Imports P m s db files records db') : ReflTransGen (Change P m) db db' :=
  h.publications.lift id fun _ _ hc => hc.activeChange.change

open Relation in
/-- **Every call begins a session, ends one, or is a sequence of publications.** The calls are taken
apart one by one; those that publish do so once, or once for each part of what they write. -/
theorem Call.run_cases {call : Call} {before : ObjectTables} {draws : Draws}
    {response : Response} (h : call.run P m before db draws = .ok (response, db')) :
    (∃ author device description context s,
      ObjectStore.beginSession P m db author device description context draws = .ok (s, db')) ∨
    (∃ key, ObjectStore.endSession m db key draws = .ok db') ∨
    ReflTransGen (Publication P m) db db' := by
  cases call with
  | beginSession author device description context =>
      simp only [Call.run, map_ok, Prod.exists, Prod.mk.injEq] at h
      obtain ⟨s, db', h, -, rfl⟩ := h
      exact .inl ⟨author, device, description, context, s, h⟩
  | endSession key =>
      simp only [Call.run, map_ok, Prod.mk.injEq] at h
      obtain ⟨db', h, -, rfl⟩ := h
      exact .inr (.inl ⟨key, h⟩)
  | importFile source path session options =>
      simp only [Call.run, map_ok, Prod.exists, Response.ofRecord, Prod.mk.injEq] at h
      obtain ⟨x, db', h, -, rfl⟩ := h
      obtain ⟨r, s, parts, stored, -, hc, -⟩ := storeImportFile_ok h
      exact .inr (.inr (.single (.create hc)))
  | importFiles files session =>
      simp only [Call.run, map_ok, Prod.exists, Prod.mk.injEq] at h
      obtain ⟨x, db', h, -, rfl⟩ := h
      obtain ⟨s, prepared, -, -, hi⟩ := importFiles_ok h
      exact .inr (.inr hi.publications)
  | wrapRaw source path metadata session options =>
      simp only [Call.run, map_ok, Prod.exists, Response.ofRecord, Prod.mk.injEq] at h
      obtain ⟨x, db', h, -, rfl⟩ := h
      obtain ⟨_, _, r, s, parts, stored, -, -, -, hc, -⟩ := wrapRaw_ok h
      exact .inr (.inr (.single (.create hc)))
  | importDocument source path metadata session options =>
      simp only [Call.run, map_ok, Prod.exists, Prod.mk.injEq] at h
      obtain ⟨x, db', h, -, rfl⟩ := h
      obtain ⟨_, _, s, _, _, _, mid, _, _, _, -, -, -, hraw, hworking, -⟩ := importDocument_ok h
      exact .inr (.inr (.tail (.single (.create hraw)) (.create hworking)))
  | reviseFile key source expected session options =>
      simp only [Call.run, map_ok, Prod.exists, Response.ofRecord, Prod.mk.injEq] at h
      obtain ⟨x, db', h, -, rfl⟩ := h
      obtain ⟨_, _, _, _, _, -, -, hr, -⟩ := reviseFile_ok h
      exact .inr (.inr (.single (.revise hr)))
  | reviseMetadata key metadata expected session =>
      simp only [Call.run, map_ok, Prod.exists, Response.ofRecord, Prod.mk.injEq] at h
      obtain ⟨x, db', h, -, rfl⟩ := h
      obtain ⟨_, _, _, _, _, -, -, -, -, -, -, h⟩ := reviseMetadata_ok h
      rcases h with ⟨-, -, rfl⟩ | ⟨-, _, _, -, -, hr, -⟩
      · exact .inr (.inr .refl)
      · exact .inr (.inr (.single (.revise hr)))
  | move key path expected session options =>
      simp only [Call.run, map_ok, Prod.exists, Response.ofRecord, Prod.mk.injEq] at h
      obtain ⟨x, db', h, -, rfl⟩ := h
      obtain ⟨_, _, _, _, -, -, -, hr, -⟩ := move_ok h
      exact .inr (.inr (.single (.revise hr)))
  | erase key expected session =>
      simp only [Call.run, map_ok, Prod.exists, Response.ofRecord, Prod.mk.injEq] at h
      obtain ⟨x, db', h, -, rfl⟩ := h
      obtain ⟨_, _, _, -, -, hr, -⟩ := erase_ok h
      exact .inr (.inr (.single (.revise hr)))

open Relation in
/-- **Every call is a sequence of changes in sessions that have not ended.** -/
theorem Call.run_activeChanges {call : Call} {before : ObjectTables} {draws : Draws}
    {response : Response} (h : call.run P m before db draws = .ok (response, db')) :
    ReflTransGen (ActiveChange P m) db db' := by
  rcases Call.run_cases h with ⟨_, _, _, _, _, h⟩ | ⟨_, h⟩ | h
  · obtain ⟨_, _, _, -, hmid, hlast⟩ := beginSession_ok h
    exact .single (.beginSession hmid hlast)
  · obtain ⟨⟨_, hs⟩, hended⟩ := endSession_ok h
    exact .single (.endSession hs hended)
  · exact h.lift id fun _ _ hc => hc.activeChange

open Relation in
/-- **Every call is a sequence of changes.** -/
theorem Call.run_changes {call : Call} {before : ObjectTables} {draws : Draws}
    {response : Response} (h : call.run P m before db draws = .ok (response, db')) :
    ReflTransGen (Change P m) db db' :=
  (Call.run_activeChanges h).lift id fun _ _ hc => hc.change

end FileProvider
