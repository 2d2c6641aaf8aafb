import FileProvider.Object.Documents
import FileProvider.Object.Originals

/-!
# RAW envelopes are immutable originals

An object that was created with a RAW document keeps it: every later version carries a document of
the same names, and every later live version has the content of the first one. `publish` carries
the document over by default; `reviseFile` refuses an object that has one, `move` and
`reviseMetadata` keep the chunk list, and `reviseMetadata` alone replaces the annotations. The
proof knows of each change what it does to the document and the content.

The invariant speaks of all versions of an object at once, by their numbers. What one call does to
envelopes is stated as a change with its document, so that the runs need no knowledge of the calls.
-/

namespace FileProvider

open Bytes Fallible Impl Relation

variable {P : Platform} {m : Impl} {db db' stored : ObjectTables} {container : Bytes}

/-! ## Changes of envelopes -/

/-- The next revision has the content of the one before. -/
structure KeepsContent (db : ObjectTables) (old r : ObjectRecord) (parts : List Chunk) : Prop where
  sha256 : r.sha256 = old.sha256
  size : r.size = old.size
  chunks : Impl.chunks db r.key old.version = .ok parts

/-- A change, with what it does to a RAW document and the content it stands for. Only where
`edits` allows it a document is replaced. -/
inductive EnvelopeChange (P : Platform) (m : Impl) (edits : Prop) :
    ObjectTables → ObjectTables → Prop where
  | quiet {db db' : ObjectTables} : Change P m db db' → db'.revisions = db.revisions →
      db'.rawRevisions = db.rawRevisions → EnvelopeChange P m edits db db'
  | create {db stored db' : ObjectTables} {r x : ObjectRecord} {s : ObjectSession}
      {parts : List Chunk} {document : Bytes} {now : Int} :
      Creation P m db stored r s parts document now x db' →
      (document ≠ [] → ∃ raw, MetadataCodec.encodeRawMetadata P.json raw = .ok document) →
      EnvelopeChange P m edits db db'
  | carry {db stored db' : ObjectTables} {expected : Nat} {old r x : ObjectRecord}
      {s : ObjectSession} {parts : List Chunk} {now : Int} :
      Revision P m db stored expected old r s parts none now x db' →
      (m.rawDocument db r.key old.version = .ok [] ∨ r.deleted = true ∨
        KeepsContent db old r parts) → EnvelopeChange P m edits db db'
  | edit {db db' : ObjectTables} {expected : Nat} {old r x : ObjectRecord} {s : ObjectSession}
      {parts : List Chunk} {previous document : Bytes} {raw : RawMetadata}
      {annotations : FileMetadata} {now : Int} : edits →
      Revision P m db db expected old r s parts (some document) now x db' →
      m.rawDocument db r.key old.version = .ok previous →
      MetadataCodec.decodeRawMetadata P.json previous = .ok raw →
      MetadataCodec.encodeRawMetadata P.json { raw with annotations } = .ok document →
      KeepsContent db old r parts → EnvelopeChange P m edits db db'

/-- A change of envelopes is a change. -/
theorem EnvelopeChange.change {edits : Prop} (h : EnvelopeChange P m edits db db') :
    Change P m db db' := by
  cases h with
  | quiet hchange _ _ => exact hchange
  | create hc _ => exact .create hc
  | carry hr _ => exact .revise hr
  | edit _ hr _ _ _ _ => exact .revise hr

/-- The calls that replace the annotations of a RAW document. -/
def Call.revisesMetadata : Call → Prop
  | .reviseMetadata _ _ _ _ => True
  | _ => False

/-- The creations of a batch have no document. -/
theorem Imports.envelopeChanges {edits : Prop} {s : ObjectSession}
    {files : List (ObjectImport × PreparedObjectSource)} {records : List ObjectRecord}
    (h : Imports P m s db files records db') :
    ReflTransGen (EnvelopeChange P m edits) db db' := by
  induction h with
  | nil => exact .refl
  | cons hc _ _ _ _ ih => exact .head (.create hc fun hne => absurd rfl hne) ih

/-- **What each call does to envelopes.** Only a metadata revision edits a document; every other
revision carries it over, and a creation has the one it was given. -/
theorem Call.run_envelopeChanges {call : Call} {before : ObjectTables} {draws : Draws}
    {response : Response} (h : call.run P m before db draws = .ok (response, db')) :
    ReflTransGen (EnvelopeChange P m call.revisesMetadata) db db' := by
  cases call with
  | beginSession author device description context =>
      simp only [Call.run, map_ok, Prod.exists, Prod.mk.injEq] at h
      obtain ⟨s, db', h, -, rfl⟩ := h
      obtain ⟨row, mid, document, -, hmid, hlast⟩ := beginSession_ok h
      have hchange : Change P m db db' := .beginSession hmid hlast
      obtain ⟨-, sessions, -, rfl⟩ := ObjectTables.insertSession_ok hmid
      obtain ⟨-, workSessions, -, rfl⟩ := ObjectTables.insertWorkSession_ok hlast
      exact .single (.quiet hchange rfl rfl)
  | endSession key =>
      simp only [Call.run, map_ok, Prod.mk.injEq] at h
      obtain ⟨db', h, -, rfl⟩ := h
      obtain ⟨-, hended⟩ := endSession_ok h
      have hchange : Change P m db db' := .endSession hended
      obtain rfl := ObjectTables.setEnded_ok hended
      exact .single (.quiet hchange rfl rfl)
  | importFile source path session options =>
      simp only [Call.run, map_ok, Prod.exists, Response.ofRecord, Prod.mk.injEq] at h
      obtain ⟨x, db', h, -, rfl⟩ := h
      obtain ⟨_, _, _, _, -, hc, -⟩ := storeImportFile_ok h
      exact .single (.create hc fun hne => absurd rfl hne)
  | importFiles files session =>
      simp only [Call.run, map_ok, Prod.exists, Prod.mk.injEq] at h
      obtain ⟨x, db', h, -, rfl⟩ := h
      obtain ⟨_, _, -, -, himports⟩ := importFiles_ok h
      exact himports.envelopeChanges
  | wrapRaw source path metadata session options =>
      simp only [Call.run, map_ok, Prod.exists, Response.ofRecord, Prod.mk.injEq] at h
      obtain ⟨x, db', h, -, rfl⟩ := h
      obtain ⟨_, _, _, _, _, _, -, hdocument, -, hc, -⟩ := wrapRaw_ok h
      exact .single (.create hc fun _ => ⟨metadata, hdocument⟩)
  | importDocument source path metadata session options =>
      simp only [Call.run, map_ok, Prod.exists, Prod.mk.injEq] at h
      obtain ⟨x, db', h, -, rfl⟩ := h
      obtain ⟨_, _, _, _, _, _, _, _, _, _, -, hdocument, -, hraw, hworking, -⟩ :=
        importDocument_ok h
      exact .tail (.single (.create hraw fun _ => ⟨metadata, hdocument⟩))
        (.create hworking fun hne => absurd rfl hne)
  | reviseFile key source expected session options =>
      simp only [Call.run, map_ok, Prod.exists, Response.ofRecord, Prod.mk.injEq] at h
      obtain ⟨x, db', h, -, rfl⟩ := h
      obtain ⟨_, _, _, _, _, hkey, -, hr, -, hraw, -⟩ := reviseFile_ok h
      exact .single (.carry hr (.inl (hkey.symm ▸ hraw)))
  | reviseMetadata key metadata expected session =>
      simp only [Call.run, map_ok, Prod.exists, Response.ofRecord, Prod.mk.injEq] at h
      obtain ⟨x, db', h, -, rfl⟩ := h
      obtain ⟨old, _, previous, raw, document, -, -, hprevious, -, hdecode, hencode, h⟩ :=
        reviseMetadata_ok h
      rcases h with ⟨-, -, rfl⟩ | ⟨-, r, parts, hkey, hparts, hr, -, -, hsha, hsize⟩
      · exact .refl
      · subst hkey
        exact .single (.edit trivial hr hprevious hdecode hencode ⟨hsha, hsize, hparts⟩)
  | move key path expected session options =>
      simp only [Call.run, map_ok, Prod.exists, Response.ofRecord, Prod.mk.injEq] at h
      obtain ⟨x, db', h, -, rfl⟩ := h
      obtain ⟨_, _, _, _, hkey, -, hparts, hr, -, -, -, hsha, hsize⟩ := move_ok h
      subst hkey
      exact .single (.carry hr (.inr (.inr ⟨hsha, hsize, hparts⟩)))
  | erase key expected session =>
      simp only [Call.run, map_ok, Prod.exists, Response.ofRecord, Prod.mk.injEq] at h
      obtain ⟨x, db', h, -, rfl⟩ := h
      obtain ⟨_, _, _, -, -, hr, -, hdeleted⟩ := erase_ok h
      exact .single (.carry hr (.inr (.inl hdeleted)))

/-! ## The invariant -/

/-- Two documents hold the same names. -/
def SameNames (L : JsonLibrary) (d d' : Bytes) : Prop :=
  ∃ raw raw', MetadataCodec.decodeRawMetadata L d = .ok raw ∧
    MetadataCodec.decodeRawMetadata L d' = .ok raw' ∧
    raw'.originalName = raw.originalName ∧ raw'.mediaType = raw.mediaType

/-- Having the same names is transitive. -/
theorem SameNames.trans {L : JsonLibrary} {d d' d'' : Bytes} (h : SameNames L d d')
    (h' : SameNames L d' d'') : SameNames L d d'' := by
  obtain ⟨raw, raw', hd, hd', hname, htype⟩ := h
  obtain ⟨mid, raw'', hmid, hd'', hname', htype'⟩ := h'
  cases hd'.symm.trans hmid
  exact ⟨raw, raw'', hd, hd'', hname'.trans hname, htype'.trans htype⟩

/-- Other annotations do not change the names a document holds. -/
theorem SameNames.annotated {L : JsonLibrary} {d d' : Bytes} {raw : RawMetadata}
    {annotations : FileMetadata} (hd : MetadataCodec.decodeRawMetadata L d = .ok raw)
    (hd' : MetadataCodec.encodeRawMetadata L { raw with annotations } = .ok d') :
    SameNames L d d' :=
  ⟨raw, _, hd, MetadataCodec.decodeRawMetadata_of_encode hd', rfl, rfl⟩

/-- What holds of the RAW envelopes of a package. -/
structure RawEnvelopes (P : Platform) (db : ObjectTables) : Prop where
  /-- A version carries a document exactly when the first one does. -/
  carried : ∀ key v, db.revisions.find (key, v) ≠ none →
    (db.rawRevisions.find (key, v) ≠ none ↔ BornRaw db key)
  nonempty : ∀ id d, db.rawRevisions.find id = some d → d.document ≠ []
  names : ∀ key v first d, db.rawRevisions.find (key, 1) = some first →
    db.rawRevisions.find (key, v) = some d → SameNames P.json first.document d.document
  content : ∀ key v first r, BornRaw db key → db.revisions.find (key, 1) = some first →
    db.revisions.find (key, v) = some r → r.deleted = false →
    r.sha256 = first.sha256 ∧ r.size = first.size ∧
      ∃ parts, Impl.chunks db key 1 = .ok parts ∧ Impl.chunks db key v = .ok parts

/-- The chunks of a stored revision are the same in every extension. -/
theorem Extends.chunks_eq (h : Extends db db') {key : Bytes} {v : Nat}
    (hid : db.revisions.find (key, v) ≠ none) :
    Impl.chunks db' key v = Impl.chunks db key v := by
  unfold Impl.chunks
  rw [h.parts key v hid]

/-- The document that is read is that of the row. -/
theorem rawDocument_row (hm : m.Opens container) {key document : Bytes} {v : Nat}
    (h : m.rawDocument db key v = .ok document) :
    ((db.rawRevisions.find (key, v)).map (·.document)).getD [] = document := by
  rw [rawDocument_ok, if_neg hm.journal] at h
  exact h.2

namespace RawEnvelopes

/-- A fresh package has no envelopes. -/
theorem fresh (P : Platform) (container : Bytes) : RawEnvelopes P (.fresh container) where
  carried _ _ h := absurd rfl h
  nonempty _ _ h := by cases h
  names _ _ _ _ h := by cases h
  content _ _ _ _ _ h := by cases h

/-- The invariant is about the revisions, their documents and their chunk lists. Any other change of
the tables therefore keeps it, as long as the rows that the content is read from stay. -/
theorem congr (h : RawEnvelopes P db) (hext : Extends db db')
    (hrevisions : db'.revisions = db.revisions) (hraw : db'.rawRevisions = db.rawRevisions) :
    RawEnvelopes P db' where
  carried := by
    unfold BornRaw
    rw [hrevisions, hraw]
    exact h.carried
  nonempty := by
    rw [hraw]
    exact h.nonempty
  names := by
    rw [hraw]
    exact h.names
  content := by
    intro key v first r hborn hr₁ hr hlive
    unfold BornRaw at hborn
    rw [hraw] at hborn
    rw [hrevisions] at hr₁ hr
    rw [hext.chunks_eq (by rw [hr₁]; exact Option.some_ne_none _),
      hext.chunks_eq (by rw [hr]; exact Option.some_ne_none _)]
    exact h.content key v first r hborn hr₁ hr hlive

/-- The document of a version is there exactly when the object was created with one. -/
theorem document_ne_nil (h : RawEnvelopes P db) (hm : m.Opens container) {key document : Bytes}
    {v : Nat} (hv : db.revisions.find (key, v) ≠ none)
    (hread : m.rawDocument db key v = .ok document) : document ≠ [] ↔ BornRaw db key := by
  have hrow := rawDocument_row hm hread
  rw [← h.carried key v hv]
  cases hd : db.rawRevisions.find (key, v) with
  | none =>
      rw [hd] at hrow
      exact ⟨fun hne => absurd hrow.symm hne, fun hne => absurd rfl hne⟩
  | some d =>
      rw [hd] at hrow
      have hdocument : d.document = document := hrow
      exact ⟨fun _ => Option.some_ne_none _, fun _ => hdocument ▸ h.nonempty _ d hd⟩

/-- The document of a version holds the names of the first one. -/
theorem document_names (h : RawEnvelopes P db) (hm : m.Opens container) {key document : Bytes}
    {v : Nat} {first : RawRevisionRow} (hread : m.rawDocument db key v = .ok document)
    (hne : document ≠ []) (hfirst : db.rawRevisions.find (key, 1) = some first) :
    SameNames P.json first.document document := by
  obtain ⟨d, hd⟩ := Option.ne_none_iff_exists'.1 (raw_of_document hread hne)
  have hrow := rawDocument_row hm hread
  rw [hd] at hrow
  have hdocument : d.document = document := hrow
  exact hdocument ▸ h.names key v first d hfirst hd

/-- A publication keeps the invariant, if the new version has what the first one asks for. What is
asked of the new version is compared with the first one of its object, which is another version or
the new one itself. -/
theorem publishes {x : ObjectRecord} {parts : List Chunk} {document : Bytes}
    (h : RawEnvelopes P db) (hi : HistoryInvariant P m db) (hp : Publishes db x parts document db')
    (hfirst : x.version = 1 → ∀ v, db.revisions.find (x.key, v) = none)
    (hcarried : document ≠ [] ↔ BornRaw db' x.key)
    (hnames : document ≠ [] → ∀ first, db'.rawRevisions.find (x.key, 1) = some first →
      SameNames P.json first.document document)
    (hcontent : x.deleted = false → BornRaw db' x.key → ∀ first,
      db'.revisions.find (x.key, 1) = some first → x.sha256 = first.sha256 ∧
      x.size = first.size ∧ Impl.chunks db' x.key 1 = .ok parts) :
    RawEnvelopes P db' := by
  have hext := hp.toExtends
  have hnone : db.rawRevisions.find (x.key, x.version) = none := by
    by_contra hne
    exact hi.rawOwner _ hne hp.fresh
  have hself : ∀ d, db'.rawRevisions.find (x.key, x.version) = some d →
      document ≠ [] ∧ d.document = document := by
    intro d hd
    rw [hp.find_raw] at hd
    split at hd
    · next hne =>
        obtain rfl := Option.some.inj hd
        exact ⟨hne.2, rfl⟩
    · rw [hnone] at hd
      cases hd
  have hraw : ∀ {id}, (x.key, x.version) ≠ id →
      db'.rawRevisions.find id = db.rawRevisions.find id := by
    intro id hid
    rw [hp.find_raw, if_neg fun h => hid h.1]
  have hrevision : ∀ {id}, (x.key, x.version) ≠ id →
      db'.revisions.find id = db.revisions.find id := by
    intro id hid
    rw [hp.find_revision, if_neg hid]
  -- A key with another version than the new one has had its first version before.
  have hone : ∀ {key v}, (x.key, x.version) ≠ (key, v) → db.revisions.find (key, v) ≠ none →
      (x.key, x.version) ≠ (key, 1) := by
    intro key v hid hstored heq
    obtain ⟨rfl, hversion⟩ := Prod.mk.inj heq
    exact hstored (hfirst hversion v)
  constructor
  · intro key v hv
    by_cases hid : (x.key, x.version) = (key, v)
    · obtain ⟨rfl, rfl⟩ := Prod.mk.inj hid
      rw [← hcarried, hp.find_raw]
      by_cases hd : document = []
      · rw [if_neg fun h => h.2 hd, hnone]
        exact ⟨fun h => absurd rfl h, fun h => absurd hd h⟩
      · rw [if_pos ⟨rfl, hd⟩]
        exact ⟨fun _ => hd, fun _ => Option.some_ne_none _⟩
    · rw [hrevision hid] at hv
      unfold BornRaw
      rw [hraw hid, hraw (hone hid hv)]
      exact h.carried key v hv
  · intro id d hd
    by_cases hid : (x.key, x.version) = id
    · subst hid
      obtain ⟨hne, hdocument⟩ := hself d hd
      exact hdocument ▸ hne
    · rw [hraw hid] at hd
      exact h.nonempty id d hd
  · intro key v first d hd₁ hd
    by_cases hid : (x.key, x.version) = (key, v)
    · obtain ⟨rfl, rfl⟩ := Prod.mk.inj hid
      obtain ⟨hne, hdocument⟩ := hself d hd
      rw [hdocument]
      exact hnames hne first hd₁
    · rw [hraw hid] at hd
      have hstored := hi.rawOwner (key, v) (by rw [hd]; exact Option.some_ne_none _)
      rw [hraw (hone hid hstored)] at hd₁
      exact h.names key v first d hd₁ hd
  · intro key v first r hborn hr₁ hr hlive
    by_cases hid : (x.key, x.version) = (key, v)
    · obtain ⟨rfl, rfl⟩ := Prod.mk.inj hid
      rw [hp.find_revision, if_pos rfl, Option.some.injEq] at hr
      subst hr
      obtain ⟨hsha, hsize, hparts⟩ := hcontent hlive hborn first hr₁
      exact ⟨hsha, hsize, parts, hparts, Publishable.chunks hi hp⟩
    · rw [hrevision hid] at hr
      have hstored : db.revisions.find (key, v) ≠ none := by
        rw [hr]
        exact Option.some_ne_none _
      have hother := hone hid hstored
      unfold BornRaw at hborn
      rw [hraw hother] at hborn
      rw [hrevision hother] at hr₁
      have hstored₁ : db.revisions.find (key, 1) ≠ none := by
        rw [hr₁]
        exact Option.some_ne_none _
      rw [hext.chunks_eq hstored, hext.chunks_eq hstored₁]
      exact h.content key v first r hborn hr₁ hr hlive

/-- A creation keeps the invariant, if its document is one the codec wrote. It is the first version
of its object, as no revision of an object that was not there is stored. -/
theorem create {r x : ObjectRecord} {s : ObjectSession} {parts : List Chunk} {document : Bytes}
    {now : Int} (h : RawEnvelopes P db) (hi : HistoryInvariant P m db)
    (hc : Creation P m db stored r s parts document now x db')
    (hdocument : document ≠ [] →
      ∃ raw, MetadataCodec.encodeRawMetadata P.json raw = .ok document) : RawEnvelopes P db' := by
  obtain ⟨created, hins, hstores⟩ := hc.insert
  obtain ⟨-, -, -, objects, hrow, rfl⟩ := ObjectTables.insertObject_ok hins
  have hrevisions : stored.revisions = db.revisions := by rw [hstores.rest]
  have hraws : stored.rawRevisions = db.rawRevisions := by rw [hstores.rest]
  obtain ⟨hi', -, -⟩ := hc.publishable hi
  obtain ⟨k, hx⟩ := hc.record_eq
  have hp := hc.publishes
  have hkey : x.key = r.key := by rw [hx]; rfl
  have hversion : x.version = 1 := by rw [hx]; exact hc.version
  -- The key of the new object is new, so it has no RAW document but the one given.
  have hunused : ∀ v, db.revisions.find (r.key, v) = none := by
    intro v
    by_contra hne
    exact hi.owner _ hne (Table.find_insert hrow).1
  have hself : db'.rawRevisions.find (x.key, 1) =
      if document = [] then none else some ⟨x.key, 1, document⟩ := by
    rw [hp.find_raw, hversion]
    by_cases hd : document = []
    · rw [if_neg fun h => h.2 hd, if_pos hd, hraws, hkey]
      by_contra hne
      exact hi.rawOwner _ hne (hunused 1)
    · rw [if_pos ⟨rfl, hd⟩, if_neg hd]
  refine (h.congr hc.stored_extends hrevisions hraws).publishes hi' hp ?_ ?_ ?_ ?_
  · intro _ v
    rw [hrevisions, hkey]
    exact hunused v
  · unfold BornRaw
    rw [hself]
    split
    · next hd => exact ⟨fun hne => absurd hd hne, fun hne => absurd rfl hne⟩
    · next hd => exact ⟨fun _ => Option.some_ne_none _, fun _ => hd⟩
  · intro hne first hfirst
    rw [hself, if_neg hne, Option.some.injEq] at hfirst
    obtain ⟨raw, hraw⟩ := hdocument hne
    have hdecode := MetadataCodec.decodeRawMetadata_of_encode hraw
    subst hfirst
    exact ⟨raw, raw, hdecode, hdecode, rfl, rfl⟩
  · intro _ _ first hfirst
    rw [hp.find_revision, if_pos (by rw [hversion]), Option.some.injEq] at hfirst
    subst hfirst
    exact ⟨rfl, rfl, hversion ▸ Publishable.chunks hi' hp⟩

/-- A revision keeps the invariant, if its document is one the first version asks for, and so is
its content. -/
theorem revise {old r x : ObjectRecord} {s : ObjectSession} {parts : List Chunk}
    {raw : Option Bytes} {now : Int} {expected : Nat} (h : RawEnvelopes P db)
    (hi : HistoryInvariant P m db)
    (hr : Revision P m db stored expected old r s parts raw now x db')
    (hdocument : ∀ document, carriedDocument m stored r raw = .ok document →
      (document ≠ [] ↔ BornRaw db r.key) ∧ (document ≠ [] → ∀ first,
        db.rawRevisions.find (r.key, 1) = some first →
          SameNames P.json first.document document))
    (hcontent : BornRaw db r.key → r.deleted = true ∨ KeepsContent db old r parts) :
    RawEnvelopes P db' := by
  obtain ⟨document, _, hcarried, -, hx, hp⟩ := publish_ok hr.publish
  obtain ⟨hborn, hnames⟩ := hdocument document hcarried
  have hkey : x.key = r.key := by rw [hx]; rfl
  have hsha : x.sha256 = r.sha256 := by rw [hx]; rfl
  have hsize : x.size = r.size := by rw [hx]; rfl
  have hdeleted : x.deleted = r.deleted := by rw [hx]; rfl
  have hrevisions : stored.revisions = db.revisions := by rw [hr.stores.rest]
  have hraws : stored.rawRevisions = db.rawRevisions := by rw [hr.stores.rest]
  obtain ⟨hget, hlive, hpos, hversion, -, -⟩ := require_ok.1 hr.require
  obtain ⟨row, o, srow, hrow, -, -, hrecord, -, -⟩ := get_record hget
  have hlater : x.version ≠ 1 := by
    have : x.version = old.version + 1 := by rw [hx, ← hr.version]; rfl
    omega
  -- The first version and its document stay.
  have hfirst : db'.revisions.find (x.key, 1) = db.revisions.find (r.key, 1) := by
    rw [hp.find_revision, if_neg fun h => hlater (congrArg Prod.snd h), hrevisions, hkey]
  have hrawFirst : db'.rawRevisions.find (x.key, 1) = db.rawRevisions.find (r.key, 1) := by
    rw [hp.find_raw, if_neg fun h => hlater (congrArg Prod.snd h.1), hraws, hkey]
  have hsame : BornRaw db' x.key ↔ BornRaw db r.key := by
    unfold BornRaw
    rw [hrawFirst]
  refine (h.congr hr.stores.toExtends hrevisions hraws).publishes (hi.of_stores hr.stores) hp
    (fun hone => absurd hone hlater) (hborn.trans hsame.symm) ?_ ?_
  · intro hne first hf
    rw [hrawFirst] at hf
    exact hnames hne first hf
  · intro hd hb first hf
    rw [hfirst] at hf
    rw [hsame] at hb
    rcases hcontent hb with hdel | hkeeps
    · rw [hdeleted, hdel] at hd
      cases hd
    · have hrowLive : row.deleted = false := by
        rw [← hlive, ← hrecord]
        rfl
      obtain ⟨hsha', hsize', parts', hparts₁, hparts⟩ :=
        h.content r.key old.version first row hb hf hrow hrowLive
      cases hkeeps.chunks.symm.trans hparts
      have hold : old.sha256 = row.sha256 ∧ old.size = row.size := by
        rw [← hrecord]
        exact ⟨rfl, rfl⟩
      refine ⟨?_, ?_, ?_⟩
      · exact hsha.trans (hkeeps.sha256.trans (hold.1.trans hsha'))
      · exact hsize.trans (hkeeps.size.trans (hold.2.trans hsize'))
      · rw [hkey, hr.toExtends.chunks_eq (by rw [hf]; exact Option.some_ne_none _)]
        exact hparts₁

/-- **Every change of envelopes keeps the invariant.** -/
theorem step {edits : Prop} (h : RawEnvelopes P db) (hm : m.Opens container)
    (hi : HistoryInvariant P m db) (hc : EnvelopeChange P m edits db db') :
    RawEnvelopes P db' := by
  cases hc with
  | quiet hchange hrevisions hraws => exact h.congr hchange.toExtends hrevisions hraws
  | create hc hdocument => exact h.create hi hc hdocument
  | @carry stored _ expected old r x s parts now hr hcontent =>
      obtain ⟨hget, -, hpos, hversion, -, -⟩ := require_ok.1 hr.require
      obtain ⟨row, o, srow, hrow, -, -, -, -, -⟩ := get_record hget
      have hstored : db.revisions.find (r.key, old.version) ≠ none := by
        rw [hrow]
        exact Option.some_ne_none _
      refine h.revise hi hr ?_ ?_
      · -- The document is that of the version before.
        intro document hcarried
        have hnext := hr.version
        rw [carriedDocument, if_pos (by omega), hnext, Nat.add_sub_cancel, rawDocument_ok,
          if_neg hm.journal] at hcarried
        have hraws : stored.rawRevisions = db.rawRevisions := by rw [hr.stores.rest]
        have hread : m.rawDocument db r.key old.version = .ok document := by
          rw [rawDocument_ok, if_neg hm.journal, ← hraws]
          exact hcarried
        exact ⟨h.document_ne_nil hm hstored hread, fun hne first hfirst =>
          h.document_names hm hread hne hfirst⟩
      · intro hborn
        rcases hcontent with hnil | hdeleted | hkeeps
        · exact absurd rfl ((h.document_ne_nil hm hstored hnil).2 hborn)
        · exact .inl hdeleted
        · exact .inr hkeeps
  | @edit _ expected old r x s parts previous document raw annotations now _ hr hprevious hdecode
      hencode hkeeps =>
      obtain ⟨hget, -, hpos, hversion, -, -⟩ := require_ok.1 hr.require
      obtain ⟨row, o, srow, hrow, -, -, -, -, -⟩ := get_record hget
      obtain ⟨previous', hprevious', hne⟩ := hr.document (Option.some_ne_none _)
      cases hprevious.symm.trans hprevious'
      have hborn := (h.document_ne_nil hm (by rw [hrow]; exact Option.some_ne_none _)
        hprevious).1 hne
      refine h.revise hi hr ?_ fun _ => .inr hkeeps
      intro document' hcarried
      obtain rfl := pure_ok.1 hcarried
      refine ⟨⟨fun _ => hborn, fun _ => MetadataCodec.encodeRawMetadata_ne_nil hencode⟩, ?_⟩
      intro _ first hfirst
      exact (h.document_names hm hprevious hne hfirst).trans (.annotated hdecode hencode)

end RawEnvelopes

/-! ## Documents that are carried over -/

/-- A document that came in with a later version of its object is that of the version before. -/
def CarriesDocuments (db db' : ObjectTables) : Prop :=
  ∀ key v d', db.revisions.find (key, v) = none → v ≠ 1 →
    db'.rawRevisions.find (key, v) = some d' →
    ∃ d, db'.rawRevisions.find (key, v - 1) = some d ∧ d.document = d'.document

namespace CarriesDocuments

/-- A package carries its documents on to itself. -/
theorem refl (hi : HistoryInvariant P m db) : CarriesDocuments db db := by
  intro key v d' hnone _ hd'
  have hstored := hi.rawOwner (key, v) (by rw [hd']; exact Option.some_ne_none _)
  exact absurd hnone hstored

/-- Carrying documents on is transitive. -/
theorem trans {mid : ObjectTables} (h : CarriesDocuments db mid) (h' : CarriesDocuments mid db')
    (hi : HistoryInvariant P m mid) (hext : Extends mid db') : CarriesDocuments db db' := by
  intro key v d' hnone hv hd'
  by_cases hmid : mid.revisions.find (key, v) = none
  · exact h' key v d' hmid hv hd'
  · rw [hext.raw _ hmid] at hd'
    obtain ⟨d, hd, hdocument⟩ := h key v d' hnone hv hd'
    have hstored := hi.rawOwner (key, v - 1) (by rw [hd]; exact Option.some_ne_none _)
    exact ⟨d, (hext.raw _ hstored).trans hd, hdocument⟩

end CarriesDocuments

/-- A change that edits no document carries it over. -/
theorem EnvelopeChange.carriesDocuments (hc : EnvelopeChange P m False db db')
    (hm : m.Opens container) (hi : HistoryInvariant P m db) : CarriesDocuments db db' := by
  have hext := hc.change.toExtends
  intro key v d' hnone hv hd'
  have hnew : ∀ (x : ObjectRecord) (document : Bytes) (stored : ObjectTables)
      (parts : List Chunk), stored.rawRevisions = db.rawRevisions →
      Publishes stored x parts document db' →
      (x.key, x.version) = (key, v) ∧ document ≠ [] ∧ d'.document = document := by
    intro x document stored parts hraws hp
    rw [hp.find_raw] at hd'
    split at hd'
    · next h => exact ⟨h.1, h.2, by rw [← Option.some.inj hd']⟩
    · rw [hraws] at hd'
      have hstored := hi.rawOwner (key, v) (by rw [hd']; exact Option.some_ne_none _)
      exact absurd hnone hstored
  cases hc with
  | quiet hchange hrevisions hraws =>
      rw [hraws] at hd'
      have hstored := hi.rawOwner (key, v) (by rw [hd']; exact Option.some_ne_none _)
      exact absurd hnone hstored
  | @create stored _ r x s parts document now hc _ =>
      obtain ⟨created, hins, hstores⟩ := hc.insert
      obtain ⟨-, -, -, objects, -, rfl⟩ := ObjectTables.insertObject_ok hins
      obtain ⟨hid, -, -⟩ := hnew x document stored parts (by rw [hstores.rest]) hc.publishes
      obtain ⟨k, hx⟩ := hc.record_eq
      have hversion : x.version = 1 := by rw [hx]; exact hc.version
      exact absurd ((Prod.mk.inj hid).2.symm.trans hversion) hv
  | @carry stored _ expected old r x s parts now hr _ =>
      obtain ⟨document, _, hcarried, -, hx, hp⟩ := publish_ok hr.publish
      have hraws : stored.rawRevisions = db.rawRevisions := by rw [hr.stores.rest]
      obtain ⟨hid, hne, hdocument⟩ := hnew x document stored parts hraws hp
      obtain ⟨hkey, hversion⟩ := Prod.mk.inj hid
      have hrkey : x.key = r.key := by rw [hx]; rfl
      have hrversion : x.version = r.version := by rw [hx]; rfl
      obtain ⟨-, -, hpos, hexpected, -, -⟩ := require_ok.1 hr.require
      have hnext := hr.version
      rw [carriedDocument, if_pos (by omega), ← hrversion, hversion, ← hrkey, hkey] at hcarried
      obtain ⟨d, hd⟩ := Option.ne_none_iff_exists'.1 (raw_of_document hcarried hne)
      have hrow := rawDocument_row hm hcarried
      rw [hd] at hrow
      rw [hraws] at hd
      have hstored := hi.rawOwner (key, v - 1) (by rw [hd]; exact Option.some_ne_none _)
      have hsame : d.document = document := hrow
      exact ⟨d, (hext.raw _ hstored).trans hd, hsame.trans hdocument.symm⟩
  | edit hedits => exact absurd hedits id

/-! ## Runs -/

/-- A sequence of changes keeps the invariant. -/
theorem RawEnvelopes.changes {edits : Prop} (h : RawEnvelopes P db) (hm : m.Opens container)
    (hi : HistoryInvariant P m db) (hpub : Published db)
    (hc : ReflTransGen (EnvelopeChange P m edits) db db') :
    RawEnvelopes P db' ∧ (¬ edits → CarriesDocuments db db') := by
  induction hc with
  | refl => exact ⟨h, fun _ => .refl hi⟩
  | @tail mid last hchanges hchange ih =>
      obtain ⟨hmid, hcarries⟩ := ih
      have hall : ReflTransGen (Change P m) db mid :=
        hchanges.lift id fun _ _ hc => hc.change
      obtain ⟨hi', -, -⟩ := Package.changes_keep hm hi hpub hall
      refine ⟨hmid.step hm hi' hchange, fun hno => ?_⟩
      rw [eq_false hno] at hchange
      exact (hcarries hno).trans (hchange.carriesDocuments hm hi') hi' hchange.change.toExtends

namespace Package

variable {σ τ : Package} {e : Event}

/-- One step of the stores keeps the envelopes. -/
theorem Step.rawEnvelopes (h : Step P σ e τ) (hs : Sound P container σ)
    (hr : RawEnvelopes P σ.tables) : RawEnvelopes P τ.tables ∧
      (∀ call response, e = .commit call response → ¬ call.revisesMetadata →
        CarriesDocuments σ.tables τ.tables) := by
  cases h with
  | start m call hm =>
      exact ⟨hr, fun _ _ he => by cases he⟩
  | @commit db db' l r c draws response hrun =>
      have hm := hs.stores c (by simp)
      obtain ⟨hkept, hcarries⟩ := hr.changes hm (hs.history _ hm) hs.published
        (Call.run_envelopeChanges hrun)
      refine ⟨hkept, ?_⟩
      intro call _ he
      cases he
      exact hcarries
  | fail =>
      exact ⟨hr, fun _ _ he => by cases he⟩

/-- **RAW envelopes are immutable originals.** In every reachable package the versions of an
object have documents exactly when the first one has, with its names, and then the live ones have
its content; and a call other than `reviseMetadata` carries the documents over. -/
theorem Reachable.envelopesImmutable (h : Reachable P container σ) :
    RawEnvelopes P σ.tables ∧ ∀ call response τ, Step P σ (.commit call response) τ →
      ¬ call.revisesMetadata → CarriesDocuments σ.tables τ.tables := by
  obtain ⟨events, hrun⟩ := h
  have hkept : Sound P container σ ∧ RawEnvelopes P σ.tables := by
    have hfresh : Sound P container (fresh container) ∧
        RawEnvelopes P (fresh container).tables := ⟨sound_fresh P container, .fresh P container⟩
    refine hrun.invariant (I := fun σ => Sound P container σ ∧ RawEnvelopes P σ.tables) ?_ hfresh
    intro s e t hs hstep
    exact ⟨(hstep.keeps hs.1).1, (hstep.rawEnvelopes hs.1 hs.2).1⟩
  refine ⟨hkept.2, ?_⟩
  intro call response τ hstep
  exact (hstep.rawEnvelopes hkept.1 hkept.2).2 call response rfl

/-- A file is wrapped, classified, moved and erased. -/
def envelopeCalls : List (Call × Draws) :=
  [sampleBegin,
    (.wrapRaw (.ok sampleCaptured) (ascii "a") sampleMetadata sampleSession .plain, .numbered 1),
    (.reviseMetadata sampleObject { sampleMetadata.annotations with rating := 4 } 1 sampleSession,
      .numbered 2),
    (.move sampleObject (ascii "b") 2 sampleSession .plain, .numbered 3),
    (.erase sampleObject 3 sampleSession, .numbered 4)]

/-- The wrapped file has a tombstone that carries a document, of the names of the first one. -/
theorem envelopesImmutable_sample : ∃ db first last,
    Reachable .reference (ascii "c") ⟨db, []⟩ ∧
    db.rawRevisions.find (sampleObject, 1) = some first ∧
    db.rawRevisions.find (sampleObject, 4) = some last ∧
    SameNames Platform.reference.json first.document last.document := by
  have hok : (exec .reference .reference envelopeCalls (.fresh (ascii "c")) >>= fun r =>
      failIf (r.2.rawRevisions.find (sampleObject, 4) = none) "no tombstone").isOk = true := by
    decide +kernel
  obtain ⟨u, h⟩ := exists_of_isOk hok
  simp only [bind_ok, Prod.exists, failIf_ok] at h
  obtain ⟨responses, db, hexec, htombstone⟩ := h
  have hreach := reachable_of_exec opens_reference hexec
  obtain ⟨hkept, -⟩ := Reachable.envelopesImmutable hreach
  obtain ⟨last, hlast⟩ := Option.ne_none_iff_exists'.1 htombstone
  have hstored := (hreach.sound.history .reference opens_reference).rawOwner _ htombstone
  obtain ⟨first, hfirst⟩ := Option.ne_none_iff_exists'.1
    ((hkept.carried sampleObject 4 hstored).1 htombstone)
  exact ⟨db, first, last, hreach, hfirst, hlast,
    hkept.names sampleObject 4 first last hfirst hlast⟩

end Package

end FileProvider
