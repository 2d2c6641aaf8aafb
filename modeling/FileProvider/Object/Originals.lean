import FileProvider.Object.TamperEvidence

/-!
# The reserved paths of originals

The original of an imported document stands under `.originals/` and the key of the working
object, and `original` finds it by that path alone. `importDocument` refuses such a path for its
working object; `wrapRaw` and `move` do not, so a RAW object can be put where the original of a
document is looked up. As long as no call does that, an envelope `original` returns is the one
made when the document was imported, wherever the original has been in the meantime.

Reserved paths and the keys of documents are related by the form of a key alone. The invariant is
kept by every call that meets the condition, and the last section shows a run that does not, in
which a wrapped file is returned as the original of a document.
-/

namespace FileProvider

open Bytes Fallible Impl

variable {P : Platform} {m : Impl} {db db' stored : ObjectTables} {container : Bytes}

/-! ## Reserved paths -/

/-- A document key `original` looks up. -/
def DocumentKey (d : Bytes) : Prop := field d 1024 true = .ok () ∧ 47 ∉ d ∧ 92 ∉ d

/-- The path under which the original of some document is looked up. -/
def Reserved (path : Bytes) : Prop :=
  ∃ d, DocumentKey d ∧ path = ObjectStore.originals ++ d

/-- The object was created with a RAW document. -/
def BornRaw (db : ObjectTables) (key : Bytes) : Prop := db.rawRevisions.find (key, 1) ≠ none

/-- A call puts no RAW object under a reserved path, but an original back under its own. -/
def Call.keepsOriginals (db : ObjectTables) : Call → Prop
  | .wrapRaw _ path _ _ _ => ¬ Reserved path
  | .move key path _ _ _ => BornRaw db key → Reserved path →
      ∃ r, db.revisions.find (key, 1) = some r ∧ r.path = path
  | _ => True

namespace Package

/-- A step puts no RAW object under a reserved path, but an original back under its own. -/
def Event.keepsOriginals (db : ObjectTables) : Event → Prop
  | .commit call _ => call.keepsOriginals db
  | _ => True

/-- Some `importDocument` made the working object of this key and, with it, the RAW object. -/
def ImportedAs (events : List Event) (d rawKey : Bytes) : Prop :=
  ∃ source path metadata session options document,
    Event.commit (.importDocument source path metadata session options) (.document document)
      ∈ events ∧ document.file.key = d ∧ document.original.record.key = rawKey

/-- What was imported in a run was imported in a longer one. -/
theorem ImportedAs.mono {events events' : List Event} {d rawKey : Bytes}
    (h : ImportedAs events d rawKey) (hsub : events ⊆ events') : ImportedAs events' d rawKey := by
  obtain ⟨source, path, metadata, session, options, document, hmem, hd, hraw⟩ := h
  exact ⟨source, path, metadata, session, options, document, hsub hmem, hd, hraw⟩

end Package

open Package

/-! ## RAW objects -/

/-- A document that is read stands in a row. -/
theorem raw_of_document {key document : Bytes} {v : Nat}
    (h : m.rawDocument db key v = .ok document) (hne : document ≠ []) :
    db.rawRevisions.find (key, v) ≠ none := by
  rw [rawDocument_ok] at h
  split at h
  · exact absurd h hne
  · obtain ⟨-, h⟩ := h
    intro hnone
    rw [hnone] at h
    exact hne h.symm

/-- Only objects created with a RAW document have one. -/
def RawFromFirst (db : ObjectTables) : Prop :=
  ∀ key v, db.rawRevisions.find (key, v) ≠ none → BornRaw db key

/-- A publication keeps RAW documents to the objects that were created with one. The document of the
new version is at the first version or at an object that has one there. -/
theorem RawFromFirst.publishes {x : ObjectRecord} {parts : List Chunk} {document : Bytes}
    (h : RawFromFirst db) (hp : Publishes db x parts document db')
    (hdocument : document ≠ [] → x.version = 1 ∨ BornRaw db x.key) : RawFromFirst db' := by
  -- What was born RAW stays so, for a publication adds a row of a fresh version.
  have hborn : ∀ key, BornRaw db key → BornRaw db' key := by
    intro key hkey
    unfold BornRaw at hkey ⊢
    rw [hp.find_raw]
    split
    · exact Option.some_ne_none _
    · exact hkey
  intro key v hv
  rw [hp.find_raw] at hv
  split at hv
  · next hself =>
      obtain ⟨hid, hne⟩ := hself
      obtain ⟨rfl, rfl⟩ := Prod.mk.inj hid
      rcases hdocument hne with hone | hold
      · unfold BornRaw
        rw [hp.find_raw, if_pos ⟨by rw [hone], hne⟩]
        exact Option.some_ne_none _
      · exact hborn _ hold
  · exact hborn key (h key v hv)

/-- Every change keeps RAW documents to the objects that were created with one. Only the
publications write documents: a creation writes one at the first version, and a revision one that it
has carried or replaced. -/
theorem Change.rawFromFirst (h : Change P m db db') (hr : RawFromFirst db) :
    RawFromFirst db' := by
  cases h with
  | beginSession h h' =>
      obtain ⟨-, sessions, -, rfl⟩ := ObjectTables.insertSession_ok h
      obtain ⟨-, workSessions, -, rfl⟩ := ObjectTables.insertWorkSession_ok h'
      exact hr
  | endSession h =>
      obtain rfl := ObjectTables.setEnded_ok h
      exact hr
  | @create stored _ r x _ _ _ _ h =>
      obtain ⟨created, hins, hstores⟩ := h.insert
      obtain ⟨-, -, -, objects, -, rfl⟩ := ObjectTables.insertObject_ok hins
      have hstored : RawFromFirst stored := by
        rw [hstores.rest]
        exact hr
      refine hstored.publishes h.publishes fun _ => .inl ?_
      obtain ⟨key, hx⟩ := h.record_eq
      rw [hx]
      exact h.version
  | @revise stored _ _ old r x _ _ raw _ h =>
      have hraws : stored.rawRevisions = db.rawRevisions := by rw [h.stores.rest]
      have hstored : RawFromFirst stored := by
        unfold RawFromFirst BornRaw
        rw [hraws]
        exact hr
      obtain ⟨document, _, hcarried, -, hx, hp⟩ := publish_ok h.publish
      have hkey : x.key = r.key := by rw [hx]; rfl
      refine hstored.publishes hp fun hne => .inr ?_
      rw [hkey]
      cases raw with
      | some given =>
          obtain ⟨previous, hprevious, hne'⟩ := h.document (Option.some_ne_none _)
          unfold BornRaw
          rw [hraws]
          exact hr _ _ (raw_of_document hprevious hne')
      | none =>
          simp only [carriedDocument] at hcarried
          split at hcarried
          · exact hstored _ _ (raw_of_document hcarried hne)
          · exact absurd (pure_ok.1 hcarried).symm hne

/-! ## The invariant -/

/-- The RAW objects that were created under a reserved path came with a document of that key,
and a live RAW object that stands under a reserved path was created there. -/
structure OriginalsKept (events : List Event) (db : ObjectTables) : Prop where
  imported : ∀ key r d, db.revisions.find (key, 1) = some r → BornRaw db key → DocumentKey d →
    r.path = ObjectStore.originals ++ d → ImportedAs events d key
  placed : ∀ key o r, db.objects.find key = some o → db.revisions.find (key, 1) = some r →
    BornRaw db key → Reserved o.path → o.path = r.path

namespace OriginalsKept

variable {events events' : List Event}

/-- A fresh package has no originals to keep. -/
theorem fresh (container : Bytes) : OriginalsKept [] (ObjectTables.fresh container) where
  imported _ _ _ hr := by cases hr
  placed _ _ _ ho := by cases ho

/-- What is kept in a run is kept seen from a longer one. -/
theorem mono (h : OriginalsKept events db) (hsub : events ⊆ events') :
    OriginalsKept events' db where
  imported key r d hr hraw hd hpath := (h.imported key r d hr hraw hd hpath).mono hsub
  placed := h.placed

/-- The invariant is about objects, revisions and RAW documents. -/
theorem congr (h : OriginalsKept events db) (hobjects : db'.objects = db.objects)
    (hrevisions : db'.revisions = db.revisions) (hraw : db'.rawRevisions = db.rawRevisions) :
    OriginalsKept events db' where
  imported := by
    unfold BornRaw
    rw [hrevisions, hraw]
    exact h.imported
  placed := by
    unfold BornRaw
    rw [hobjects, hrevisions, hraw]
    exact h.placed

/-- A creation keeps the invariant, if what is created under a reserved path with a RAW document
is the original of an imported document. -/
theorem create {r x : ObjectRecord} {s : ObjectSession} {parts : List Chunk}
    {document : Bytes} {now : Int} (h : OriginalsKept events db)
    (hi : HistoryInvariant P m db)
    (hc : Creation P m db stored r s parts document now x db')
    (himported : document ≠ [] → ∀ d, DocumentKey d → r.path = ObjectStore.originals ++ d →
      ImportedAs events d r.key) : OriginalsKept events db' := by
  obtain ⟨created, hins, hstores⟩ := hc.insert
  obtain ⟨-, -, -, objects, hrow, rfl⟩ := ObjectTables.insertObject_ok hins
  have hp := hc.publishes
  obtain ⟨k, hx⟩ := hc.record_eq
  have hkey : x.key = r.key := by rw [hx]; rfl
  have hversion : x.version = 1 := by rw [hx]; exact hc.version
  have hpath : x.path = r.path := by rw [hx]; rfl
  have hrevision := hp.find_revision
  have hobject := hp.find_object
  have hraw := hp.find_raw
  have hrevisions : stored.revisions = db.revisions := by rw [hstores.rest]
  have hraws : stored.rawRevisions = db.rawRevisions := by rw [hstores.rest]
  have hobjects : stored.objects = objects := by rw [hstores.rest]
  rw [hkey, hversion] at hrevision hraw
  rw [hkey] at hobject
  -- The key of the new object is new, so it has no RAW document but the one given.
  have hfresh : db.rawRevisions.find (r.key, 1) = none := by
    by_contra hne
    have := hi.rawOwner _ hne
    rw [← hrevisions, ← hkey, ← hversion] at this
    exact this hp.fresh
  have hborn : BornRaw db' r.key → document ≠ [] := by
    intro hb hnil
    unfold BornRaw at hb
    rw [hraw, if_neg (fun h => h.2 hnil), hraws] at hb
    exact hb hfresh
  have hother : ∀ key, key ≠ r.key → BornRaw db' key → BornRaw db key := by
    intro key hne hb
    unfold BornRaw at hb ⊢
    rw [hraw, if_neg (fun h => hne (congrArg Prod.fst h.1).symm), hraws] at hb
    exact hb
  constructor
  · intro key row d hr hb hd hrowpath
    rw [hrevision] at hr
    by_cases hk : key = r.key
    · subst hk
      rw [if_pos rfl, Option.some.injEq] at hr
      subst hr
      exact himported (hborn hb) d hd (hpath.symm.trans hrowpath)
    · rw [if_neg fun h => hk (congrArg Prod.fst h).symm, hrevisions] at hr
      exact h.imported key row d hr (hother key hk hb) hd hrowpath
  · intro key o row ho hr hb hreserved
    rw [hrevision] at hr
    rw [hobject] at ho
    by_cases hk : key = r.key
    · subst hk
      rw [if_pos rfl, Option.some.injEq] at hr
      rw [if_pos rfl] at ho
      obtain ⟨o', -, rfl⟩ := Option.map_eq_some_iff.1 ho
      subst hr
      rfl
    · rw [if_neg fun h => hk (congrArg Prod.fst h).symm, hrevisions] at hr
      rw [if_neg hk, hobjects, (Table.find_insert hrow).2, if_neg (Ne.symm hk)] at ho
      exact h.placed key o row ho hr (hother key hk hb) hreserved

/-- A revision keeps the invariant, if a RAW object it brings under a reserved path is there
already or was created there. -/
theorem revise {old r x : ObjectRecord} {s : ObjectSession} {parts : List Chunk}
    {raw : Option Bytes} {now : Int} {expected : Nat} (h : OriginalsKept events db)
    (hi : HistoryInvariant P m db)
    (hr : Revision P m db stored expected old r s parts raw now x db')
    (hplaced : BornRaw db r.key → Reserved r.path → r.path = old.path ∨
      ∃ row, db.revisions.find (r.key, 1) = some row ∧ row.path = r.path) :
    OriginalsKept events db' := by
  obtain ⟨document, _, -, -, hx, hp⟩ := publish_ok hr.publish
  have hkey : x.key = r.key := by rw [hx]; rfl
  have hpath : x.path = r.path := by rw [hx]; rfl
  have hobjects : stored.objects = db.objects := by rw [hr.stores.rest]
  have hrevisions : stored.revisions = db.revisions := by rw [hr.stores.rest]
  have hraws : stored.rawRevisions = db.rawRevisions := by rw [hr.stores.rest]
  obtain ⟨hget, -, hpos, hversion, -, -⟩ := require_ok.1 hr.require
  have hlater : x.version ≠ 1 := by
    have : x.version = old.version + 1 := by rw [hx, ← hr.version]; rfl
    omega
  -- The first revisions and their RAW documents stay.
  have hfirst : ∀ key, db'.revisions.find (key, 1) = db.revisions.find (key, 1) := by
    intro key
    rw [hp.find_revision, if_neg fun h => hlater (congrArg Prod.snd h), hrevisions]
  have hborn : ∀ key, BornRaw db' key → BornRaw db key := by
    intro key hb
    unfold BornRaw at hb ⊢
    rw [hp.find_raw, if_neg fun h => hlater (congrArg Prod.snd h.1), hraws] at hb
    exact hb
  constructor
  · intro key row d hrow hb hd hrowpath
    rw [hfirst] at hrow
    exact h.imported key row d hrow (hborn key hb) hd hrowpath
  · intro key o row ho hrow hb hreserved
    rw [hfirst] at hrow
    rw [hp.find_object, hobjects] at ho
    by_cases hk : key = x.key
    · subst hk
      rw [if_pos rfl] at ho
      obtain ⟨o', ho', rfl⟩ := Option.map_eq_some_iff.1 ho
      rw [hpath] at hreserved
      rw [hkey] at hrow hb ho'
      rcases hplaced (hborn _ hb) hreserved with hsame | ⟨row', hrow', hpath'⟩
      · -- The row of the object repeats the path of its head, which stays.
        obtain ⟨head, o'', srow, hhead, ho'', -, hrecord, -, hv⟩ := get_record hget
        rw [if_pos rfl] at hv
        rw [ho', Option.some.injEq] at ho''
        subst ho''
        obtain ⟨hmem, hokey⟩ := Table.find_eq_some.1 ho'
        have hrowpath := (hi.head o' hmem head (by rw [hokey, ← hv]; exact hhead)).1
        have hold : old.path = head.path := by rw [← hrecord]; rfl
        have hold' : o'.path = r.path := by rw [hrowpath, hsame, hold]
        refine hpath.trans (hold'.symm.trans ?_)
        exact h.placed _ o' row ho' hrow (hborn _ hb) (hold' ▸ hreserved)
      · rw [hrow, Option.some.injEq] at hrow'
        subst hrow'
        exact hpath.trans hpath'.symm
    · rw [if_neg hk] at ho
      exact h.placed key o row ho hrow (hborn key hb) hreserved

end OriginalsKept

/-! ## One call -/

/-- The creations of a batch carry no RAW document. -/
theorem Imports.originalsKept {s : ObjectSession}
    {files : List (ObjectImport × PreparedObjectSource)} {records : List ObjectRecord}
    {events : List Event} (h : Imports P m s db files records db') (hm : m.Opens container)
    (hi : HistoryInvariant P m db) (hpub : Published db) (hk : OriginalsKept events db) :
    OriginalsKept events db' := by
  induction h with
  | nil => exact hk
  | cons hc _ _ _ _ ih =>
      obtain ⟨hi', hpub', -⟩ := changes_keep hm hi hpub (.single (.create hc))
      exact ih hi' hpub' (hk.create hi hc fun hne => absurd rfl hne)

/-- **A call that succeeds keeps the invariant**, if it puts no RAW object under a reserved path
but an original back under its own. -/
theorem Call.run_originalsKept {call : Call} {before : ObjectTables} {draws : Draws}
    {response : Response} {events : List Event} (hm : m.Opens container)
    (hi : HistoryInvariant P m db) (hpub : Published db) (hk : OriginalsKept events db)
    (hkeeps : call.keepsOriginals db)
    (h : call.run P m before db draws = .ok (response, db')) :
    OriginalsKept (events ++ [.commit call response]) db' := by
  replace hk : OriginalsKept (events ++ [.commit call response]) db :=
    hk.mono (List.subset_append_left _ _)
  cases call with
  | beginSession author device description context =>
      simp only [Call.run, map_ok, Prod.exists, Prod.mk.injEq] at h
      obtain ⟨s, db', h, -, rfl⟩ := h
      obtain ⟨row, mid, document, -, hmid, hlast⟩ := beginSession_ok h
      obtain ⟨-, sessions, -, rfl⟩ := ObjectTables.insertSession_ok hmid
      obtain ⟨-, workSessions, -, rfl⟩ := ObjectTables.insertWorkSession_ok hlast
      exact hk.congr rfl rfl rfl
  | endSession key =>
      simp only [Call.run, map_ok, Prod.mk.injEq] at h
      obtain ⟨db', h, -, rfl⟩ := h
      obtain ⟨-, hended⟩ := endSession_ok h
      obtain rfl := ObjectTables.setEnded_ok hended
      exact hk.congr rfl rfl rfl
  | importFile source path session options =>
      simp only [Call.run, map_ok, Prod.exists, Response.ofRecord, Prod.mk.injEq] at h
      obtain ⟨x, db', h, -, rfl⟩ := h
      obtain ⟨_, _, _, _, -, hc, -⟩ := storeImportFile_ok h
      exact hk.create hi hc fun hne => absurd rfl hne
  | importFiles files session =>
      simp only [Call.run, map_ok, Prod.exists, Prod.mk.injEq] at h
      obtain ⟨x, db', h, -, rfl⟩ := h
      obtain ⟨_, _, -, -, himports⟩ := importFiles_ok h
      exact himports.originalsKept hm hi hpub hk
  | wrapRaw source path metadata session options =>
      simp only [Call.run, map_ok, Prod.exists, Response.ofRecord, Prod.mk.injEq] at h
      obtain ⟨x, db', h, -, rfl⟩ := h
      obtain ⟨_, _, r, _, _, _, -, -, -, hc, -, -, hpath⟩ := wrapRaw_ok h
      exact hk.create hi hc fun _ d hd heq => absurd ⟨d, hd, hpath ▸ heq⟩ hkeeps
  | importDocument source path metadata session options =>
      simp only [Call.run, map_ok, Prod.exists, Prod.mk.injEq] at h
      obtain ⟨d, db', h, rfl, rfl⟩ := h
      obtain ⟨_, _, s, rawRecord, _, _, mid, r, _, _, -, -, -, hraw, hworking, -, -, -, -,
        hrawPath, -⟩ := importDocument_ok h
      obtain ⟨hi', -⟩ := changes_keep hm hi hpub (.single (.create hraw))
      refine (hk.create hi hraw fun _ d' _ heq => ?_).create hi' hworking
        fun hne => absurd rfl hne
      -- The reserved path names the working object that is created with it.
      obtain ⟨_, hx⟩ := hraw.record_eq
      obtain ⟨_, hy⟩ := hworking.record_eq
      rw [hrawPath, List.append_cancel_left_eq] at heq
      refine ⟨source, path, metadata, session, options, d,
        List.mem_append_right _ List.mem_cons_self, ?_, ?_⟩
      · rw [hy, ← heq]
        rfl
      · rw [hx]
        rfl
  | reviseFile key source expected session options =>
      simp only [Call.run, map_ok, Prod.exists, Response.ofRecord, Prod.mk.injEq] at h
      obtain ⟨x, db', h, -, rfl⟩ := h
      obtain ⟨_, _, _, _, _, -, -, hr, -, -, hpath, -⟩ := reviseFile_ok h
      exact hk.revise hi hr fun _ _ => .inl hpath
  | reviseMetadata key metadata expected session =>
      simp only [Call.run, map_ok, Prod.exists, Response.ofRecord, Prod.mk.injEq] at h
      obtain ⟨x, db', h, -, rfl⟩ := h
      obtain ⟨_, _, _, _, _, -, -, -, -, -, -, h⟩ := reviseMetadata_ok h
      rcases h with ⟨-, -, rfl⟩ | ⟨-, _, _, -, -, hr, hpath, -⟩
      · exact hk
      · exact hk.revise hi hr fun _ _ => .inl hpath
  | move key path expected session options =>
      simp only [Call.run, map_ok, Prod.exists, Response.ofRecord, Prod.mk.injEq] at h
      obtain ⟨x, db', h, -, rfl⟩ := h
      obtain ⟨_, _, _, _, hkey, -, -, hr, hpath, -⟩ := move_ok h
      subst hkey hpath
      exact hk.revise hi hr fun hborn hreserved => .inr (hkeeps hborn hreserved)
  | erase key expected session =>
      simp only [Call.run, map_ok, Prod.exists, Response.ofRecord, Prod.mk.injEq] at h
      obtain ⟨x, db', h, -, rfl⟩ := h
      obtain ⟨_, _, _, -, -, hr, hpath, -⟩ := erase_ok h
      exact hk.revise hi hr fun _ _ => .inl hpath

/-! ## Any number of calls -/

/-- What `original` finds: a live object under the reserved path, and later the envelope of its
head. -/
theorem original_ok {later : ObjectTables} {d : Bytes} {e : RawEnvelope}
    (h : ObjectStore.original P m db later d = .ok e) :
    DocumentKey d ∧ (∃ o ∈ db.objects, o.path = ObjectStore.originals ++ d ∧
      o.deleted = false ∧ o.objectKey = e.record.key ∧
      db.revisions.find (o.objectKey, o.head) ≠ none) ∧
      later.rawRevisions.find (e.record.key, e.record.version) ≠ none := by
  simp only [ObjectStore.original, bind_ok, failIf_ok, not_or, orFail_ok] at h
  obtain ⟨u, hfield, -, hslash, found, hlookup, raw, rfl, h⟩ := h
  obtain ⟨o, ho, hpath, hlive, hhead⟩ := lookupPath_ok hlookup
  obtain ⟨hkey, -, -, hrow⟩ := headRecord_ok hhead
  simp only [ObjectStore.rawEnvelope, bind_ok, failIf_ok, orFail_ok, pure_ok] at h
  obtain ⟨-, -, -, -, _, hget, x, rfl, valid, -, -, -, document, hdocument, -, hne, metadata, -,
    rfl⟩ := h
  obtain ⟨_, _, _, -, -, -, -, hxkey, -⟩ := get_record hget
  refine ⟨⟨hfield, hslash⟩, ⟨o, ho, hpath, hlive, hkey.symm.trans hxkey.symm, hrow⟩, ?_⟩
  have hraw := raw_of_document hdocument hne
  rw [← hxkey] at hraw
  exact hraw

namespace Package

variable {σ σ' : Package} {events events' : List Event}

/-- Only objects created with a RAW document have one, in every state the stores reach. -/
theorem Step.rawFromFirst {τ : Package} {e : Event} (h : Step P σ e τ)
    (hr : RawFromFirst σ.tables) : RawFromFirst τ.tables := by
  cases h with
  | start m call hm => exact hr
  | commit hrun =>
      refine Relation.ReflTransGen.head_induction_on (motive := fun a _ => RawFromFirst a →
        RawFromFirst _) (Call.run_changes hrun) id ?_ hr
      intro a b hab _ hb ha
      exact hb (hab.rawFromFirst ha)
  | fail => exact hr

/-- One step of the stores keeps the originals where they are looked up. -/
theorem Step.originalsKept {τ : Package} {e : Event} (h : Step P σ e τ)
    (hs : Sound P container σ) (hkeeps : e.keepsOriginals σ.tables)
    (hk : OriginalsKept events σ.tables) : OriginalsKept (events ++ [e]) τ.tables := by
  cases h with
  | start m call hm => exact hk.mono (List.subset_append_left _ _)
  | @commit db db' l r c draws response hrun =>
      have hm := hs.stores c (by simp)
      exact Call.run_originalsKept hm (hs.history _ hm) hs.published hk hkeeps hrun
  | fail => exact hk.mono (List.subset_append_left _ _)

/-- **The envelopes `original` returns.** In a run that puts no RAW object under a reserved path
but an original back under its own, an envelope that is returned for a key belongs to the RAW
object that `importDocument` made with the working object of that key. -/
theorem original_imported {d : Bytes} {e : RawEnvelope}
    (h : Run (fun σ e τ => Step P σ e τ ∧ e.keepsOriginals σ.tables) (fresh container) events σ)
    (h' : Run (Step P) σ events' σ')
    (horiginal : ObjectStore.original P m σ.tables σ'.tables d = .ok e) :
    ImportedAs events d e.record.key := by
  have hkept : Sound P container σ ∧ RawFromFirst σ.tables ∧ OriginalsKept events σ.tables := by
    have hfresh : Sound P container (fresh container) ∧ RawFromFirst (fresh container).tables ∧
        OriginalsKept [] (fresh container).tables :=
      ⟨sound_fresh P container, fun _ _ hv => absurd rfl hv, .fresh container⟩
    refine h.history (I := fun events σ => Sound P container σ ∧ RawFromFirst σ.tables ∧
      OriginalsKept events σ.tables) ?_ hfresh
    rintro before s e t ⟨hs, hr, hk⟩ ⟨hstep, hkeeps⟩
    exact ⟨(hstep.keeps hs).1, hstep.rawFromFirst hr, hstep.originalsKept hs hkeeps hk⟩
  obtain ⟨hs, hr, hk⟩ := hkept
  have hr' : RawFromFirst σ'.tables :=
    h'.invariant (I := fun σ => RawFromFirst σ.tables) (fun hr hstep => hstep.rawFromFirst hr) hr
  obtain ⟨hd, ⟨o, hmem, hpath, -, hkey, hhead⟩, hraw⟩ := original_ok horiginal
  have ho := (Table.mem_iff_find.1 hmem : σ.tables.objects.find o.objectKey = some o)
  -- The object was created with a RAW document, and its first revision is still there.
  have hi := hs.history ⟨container, 5, true⟩ ⟨rfl, rfl⟩
  have hrange := (hi.versions o hmem o.head).1 hhead
  obtain ⟨first, hfirst⟩ := Option.ne_none_iff_exists'.1
    ((hi.versions o hmem 1).2 ⟨le_rfl, hrange.1⟩)
  have hborn : BornRaw σ.tables o.objectKey := by
    have hlater := hr' _ _ hraw
    unfold BornRaw at hlater ⊢
    rw [← hkey, (Run.extends h' hs).raw] at hlater
    · exact hlater
    · rw [hfirst]
      exact Option.some_ne_none _
  have hplaced := hk.placed o.objectKey o first ho hfirst hborn ⟨d, hd, hpath⟩
  rw [← hkey]
  exact hk.imported o.objectKey first d hfirst hborn hd (hplaced.symm.trans hpath)

/-! ## Documents and wrapped files -/

/-- The metadata of the sample RAW objects. -/
def sampleMetadata : RawMetadata :=
  ⟨ascii "a.txt", ascii "text/plain", ⟨[], [], [], 0, .none, .empty, []⟩⟩

/-- The captured source of the sample RAW objects. -/
def sampleCaptured : CapturedSource := ⟨ascii "stamp", .of [1, 2, 3]⟩

/-- The key of the working object of the sample document. -/
def sampleDocument : Bytes := uniqueKey ((Draws.numbered 1).random 0) (ascii "object-")

/-- A document is imported. -/
def documentCalls : List (Call × Draws) :=
  [sampleBegin,
    (.importDocument (.ok sampleCaptured) (ascii "a") sampleMetadata sampleSession .plain,
      .numbered 1)]

/-- A file is wrapped under a reserved path. -/
def wrapCalls : List (Call × Draws) :=
  [sampleBegin,
    (.wrapRaw (.ok sampleCaptured) (ObjectStore.originals ++ ascii "x") sampleMetadata
      sampleSession .plain, .numbered 1)]

/-- The original of a document that was imported is the one of that import. -/
theorem original_imported_sample : ∃ events db e,
    Run (fun σ e τ => Step .reference σ e τ ∧ e.keepsOriginals σ.tables) (fresh (ascii "c"))
      events ⟨db, []⟩ ∧
    ObjectStore.original .reference .reference db db sampleDocument = .ok e ∧
    ImportedAs events sampleDocument e.record.key := by
  have hok : (exec .reference .reference documentCalls (.fresh (ascii "c")) >>= fun r =>
      ObjectStore.original .reference .reference r.2 r.2 sampleDocument).isOk = true := by
    decide +kernel
  obtain ⟨e, h⟩ := exists_of_isOk hok
  simp only [bind_ok, Prod.exists] at h
  obtain ⟨responses, db, hexec, he⟩ := h
  obtain ⟨events, hrun, hcalls⟩ := run_of_exec (m := .reference) opens_reference hexec
  -- Neither call can put a RAW object under a reserved path.
  have hkeeps : Run (fun σ e τ => Step .reference σ e τ ∧ e.keepsOriginals σ.tables)
      (fresh (ascii "c")) events ⟨db, []⟩ := by
    refine hrun.imp ?_
    intro s e t hmem hstep
    refine ⟨hstep, ?_⟩
    cases e with
    | start call => exact trivial
    | fail call => exact trivial
    | commit call response =>
        have hcall := hcalls call response hmem
        simp only [documentCalls, sampleBegin, List.map_cons, List.map_nil, List.mem_cons,
          List.not_mem_nil, or_false] at hcall
        rcases hcall with rfl | rfl
        · exact trivial
        · exact trivial
  exact ⟨events, db, e, hkeeps, he, original_imported hkeeps (.nil _) he⟩

/-- A file that was wrapped under a reserved path is returned as an original, though no document
was imported. -/
theorem original_of_wrapRaw : ∃ events db e,
    Run (Step .reference) (fresh (ascii "c")) events ⟨db, []⟩ ∧
    ObjectStore.original .reference .reference db db (ascii "x") = .ok e ∧
    ¬ ImportedAs events (ascii "x") e.record.key := by
  have hok : (exec .reference .reference wrapCalls (.fresh (ascii "c")) >>= fun r =>
      ObjectStore.original .reference .reference r.2 r.2 (ascii "x")).isOk = true := by
    decide +kernel
  obtain ⟨e, h⟩ := exists_of_isOk hok
  simp only [bind_ok, Prod.exists] at h
  obtain ⟨responses, db, hexec, he⟩ := h
  obtain ⟨events, hrun, hcalls⟩ := run_of_exec (m := .reference) opens_reference hexec
  refine ⟨events, db, e, hrun, he, ?_⟩
  rintro ⟨source, path, metadata, session, options, document, hmem, -, -⟩
  have hcall := hcalls _ _ hmem
  simp only [wrapCalls, sampleBegin, List.map_cons, List.map_nil, List.mem_cons,
    List.not_mem_nil, or_false, reduceCtorEq] at hcall

end Package

end FileProvider
