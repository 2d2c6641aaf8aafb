import FileProvider.Catalog.Limits
import FileProvider.Library.JsonSizes

/-!
# Companions read back

The companion of a file that is not pending is its document, which was written by one part of the
catalog and is read by another. `Documented` is what is known of such a file: its annotation is in
normal form, its collections are there, and its document fits. So the companion is accepted, and
says of the file what the catalog says.

Each part of a companion is read back by a lemma of its own: the classification by its normal form,
the collections by their rows, and the limits by the size of the document. The limits matter, as a
companion that is too long is not read.
-/

namespace FileProvider

open Bytes Fallible

namespace Catalog

variable {E : CatalogLibraries} {fs : FileSystem} {db db' : CatalogTables}

/-! ## Annotations of rows -/

/-- The memberships of a file stand in order, each once. -/
theorem sortedSet_memberships (i : Nat) : sortedSet (db.memberships i) = db.memberships i := by
  have hnodup : ((db.members.rows.filter fun m => m.fileId = i).map (·.collectionKey)).Nodup := by
    have hrows : (db.members.rows.filter fun m => m.fileId = i).Nodup :=
      (List.map_id db.members.rows ▸ db.members.nodup).filter _
    refine hrows.map_on fun a ha b hb hkey => ?_
    obtain ⟨fileId, collectionKey⟩ := a
    obtain ⟨fileId', collectionKey'⟩ := b
    obtain rfl : fileId = i := by simpa using (List.mem_filter.1 ha).2
    obtain rfl : fileId' = fileId := by simpa using (List.mem_filter.1 hb).2
    obtain rfl : collectionKey = collectionKey' := hkey
    rfl
  have hsorted : (db.memberships i).Nodup := (Keyset.orderBy_perm _).nodup_iff.2 hnodup
  rw [sortedSet, hsorted.dedup]
  exact Keyset.orderBy_eq_self (Keyset.ascending_orderBy (hnodup.map order_injective))

/-- Normal metadata have at most 64 fields. -/
theorem length_fields_le {m n : FileMetadata} (h : normalizeMetadata E m = .ok n) :
    n.fields.entries.length ≤ 64 := by
  simp only [normalizeMetadata, bind_ok, failIf_ok, not_or, not_lt, pure_ok] at h
  obtain ⟨_, -, _, -, _, -, _, -, _, ⟨hle, -⟩, fields, hfields, _, -, _, -, _, -, rfl⟩ := h
  have hempty : ∀ e ∈ StringMap.empty.entries, FieldNormal E e := fun e he => by cases he
  obtain ⟨-, hlength⟩ := normalizeFields_normal hempty hfields
  exact hlength.trans ((Nat.zero_add _).trans_le hle)

/-- A classification in normal form that is not too large is its own normal form. -/
theorem normalizeMetadata_self {m : FileMetadata} {text : Bytes} (hm : Normal E m)
    (hcollections : CollectionsNormal E m.collections) (hfields : m.fields.entries.length ≤ 64)
    (hfew : m.collections.length ≤ 128) (htext : E.json.dump (metadataJson m) = .ok text)
    (hfits : text.length ≤ maximumMetadataBytes) : normalizeMetadata E m = .ok m := by
  have hself : m.collections.mapM (fun key => normalized E key 128 false true)
      = .ok m.collections := by
    rw [mapM_ok]
    exact List.map_congr_left hcollections.1
  simp only [normalizeMetadata, bind_ok, failIf_ok, not_or, not_lt, pure_ok]
  refine ⟨(), hm.rating, _, hm.title, _, hm.description, _, hm.keywords, (), ⟨hfields, hfew⟩, _,
    hm.fields, _, hself, text, ?_, (), hfits, ?_⟩
  · rw [hcollections.2]
    exact htext
  · rw [hcollections.2]

/-- The text of a classification gets no longer when its collections are left out. -/
theorem length_bare_le {m : FileMetadata} {bare text : Bytes}
    (hbare : E.json.dump (metadataJson { m with collections := [] }) = .ok bare)
    (htext : E.json.dump (metadataJson m) = .ok text) : bare.length ≤ text.length := by
  unfold JsonLibrary.dump at hbare htext
  let front := (metadataFields m).take 6
  have hbare' : Json.dump E.json.realText (Json.object
      (front ++ [(ascii "collections", .arr [])])) = some bare := orFail_ok.1 hbare
  have htext' : Json.dump E.json.realText (Json.object
      (front ++ [(ascii "collections", .arr (m.collections.map .str))])) = some text :=
    orFail_ok.1 htext
  have hmember : (ascii "collections", Json.arr (m.collections.map .str)) ∈
      front ++ [(ascii "collections", Json.arr (m.collections.map .str))] :=
    List.mem_append_right _ (List.mem_singleton_self _)
  obtain ⟨s, hs, -⟩ := Json.dump_member htext' (Keyset.mem_orderBy.2 hmember)
  have hsize := Json.textSize_arr_le hs
  rw [Json.length_dump_object_eq hbare', Json.length_dump_object_eq htext']
  simp only [List.map_append, List.map_cons, List.map_nil, List.sum_append, List.sum_cons,
    List.sum_nil, Json.memberSize]
  omega

/-! ## Published files -/

/-- What the tables say of a file whose document fits into a companion. -/
structure Documented (E : CatalogLibraries) (db : CatalogTables) (r : FileRow) (f : CatalogFile)
    (text : Bytes) : Prop where
  entry : Catalog.entry E db r = .ok f
  document : Catalog.document E db f = .ok text
  fits : text.length ≤ maximumMetadataBytes
  key : fileKeyValid r.key = true
  positive : 0 < r.revision
  bounded : r.revision ≤ int64Max
  normal : Normal E f.metadata
  collections : CollectionsNormal E f.metadata.collections
  fields : f.metadata.fields.entries.length ≤ 64
  few : f.metadata.collections.length ≤ 128
  dumped : E.json.dump (metadataJson { f.metadata with collections := [] }) = .ok r.metadata
  title : r.title = f.metadata.title
  rating : r.rating = f.metadata.rating
  color : r.color = f.metadata.color.code
  known : ∀ key ∈ f.metadata.collections, ∃ row, db.collections.find key = some row ∧
    CollectionValid E row

/-- **A file that is not pending is documented, and its companion is its document.** Each part comes
from an invariant of reachable catalogs: sound keys, valid rows, limits, references, and companions
that are in step. -/
theorem documented_of_reached {c : Catalog} (h : Reached E KeepsCompanions c) {r : FileRow}
    (hr : r ∈ c.tables.files) (hnot : ¬ c.tables.Pending r.id) : ∃ f text,
      Documented E c.tables r f text ∧ c.fs.content (companionPath r.path) = some text := by
  obtain ⟨hsound, hvalid⟩ := Readable.reached h
  have hlimited := Limited.reached h
  have hreferences := References.reached h
  obtain ⟨text, hdocument, hcontent⟩ := (Synchronised.reached h).companions r hr hnot
  obtain ⟨text', hdocument', hfits⟩ := Fitting.reached h r hr hnot
  obtain rfl := Except.ok.inj (hdocument'.symm.trans hdocument)
  simp only [documentOf, bind_ok] at hdocument
  obtain ⟨f, hentry, htext⟩ := hdocument
  obtain ⟨m, hm⟩ := Indexed.reached h r hr
  obtain ⟨j, n, hj, hn, hf⟩ := entry_ok hentry
  have hread : n = { m with collections := [] } := annotation_read hm.normal hm.dumped hj hn
  have hmetadata : f.metadata = { m with collections := c.tables.memberships r.id } := by
    rw [hf, hread]
  have hknown : ∀ key ∈ f.metadata.collections, ∃ row,
      c.tables.collections.find key = some row ∧ CollectionValid E row := by
    intro key hkey
    obtain ⟨row, hrow⟩ := Option.ne_none_iff_exists'.1 (entry_known hreferences hentry key hkey)
    exact ⟨row, hrow, hsound.collections row (UniqueTable.find_eq_some.1 hrow).1⟩
  obtain ⟨input, hinput⟩ := parseMetadata_normalized hn
  refine ⟨f, text', ⟨hentry, htext, hfits, hsound.files r hr, (hvalid r hr).positive,
    (hvalid r hr).bounded, entry_normal hentry, ⟨fun key hkey => ?_, ?_⟩, ?_,
    entry_limited hlimited hentry, ?_, ?_, ?_, ?_, hknown⟩, hcontent⟩
  · obtain ⟨row, hrow, hrowValid⟩ := hknown key hkey
    have hkey' : row.key = key := (UniqueTable.find_eq_some.1 hrow).2
    exact hkey' ▸ hrowValid.normal.key
  · rw [hmetadata]
    exact sortedSet_memberships r.id
  · rw [hf]
    show n.fields.entries.length ≤ 64
    exact length_fields_le hinput
  · rw [hmetadata]
    exact hm.dumped
  · rw [hmetadata]
    exact hm.title
  · rw [hmetadata]
    exact hm.rating
  · rw [hmetadata]
    exact hm.color

/-- The companion of a file. -/
def companionFrom (db : CatalogTables) (f : CatalogFile) : Companion :=
  ⟨f.key, f.revision, f.metadata, listedCollections db f.metadata.collections⟩

namespace Documented

variable {r : FileRow} {f : CatalogFile} {text : Bytes}

/-! ## The document -/

/-- The members of a document. -/
def documentFields (db : CatalogTables) (f : CatalogFile) : List (Bytes × Json) :=
  [(ascii "format", .str companionFormat), (ascii "schema", .int 1),
    (ascii "fileKey", .str f.key), (ascii "path", .str f.path),
    (ascii "revision", .int f.revision), (ascii "metadata", metadataJson f.metadata),
    (ascii "collections",
      .arr ((listedCollections db f.metadata.collections).map collectionJson))]

/-- The members of a document are distinct. -/
theorem documentFields_nodup (db : CatalogTables) (f : CatalogFile) :
    ((documentFields db f).map (·.1)).Nodup := by
  show [ascii "format", ascii "schema", ascii "fileKey", ascii "path", ascii "revision",
    ascii "metadata", ascii "collections"].Nodup
  decide

/-- The file of a row has its key, its path and its revision. -/
theorem row (h : Documented E db r f text) :
    f.key = r.key ∧ f.path = r.path ∧ f.revision = r.revision := by
  obtain ⟨_, _, -, -, rfl⟩ := entry_ok h.entry
  exact ⟨rfl, rfl, rfl⟩

/-- The document of a file is canonical. -/
theorem canonical (h : Documented E db r f text) : (documentJson db f).Canonical := by
  have hrevision := h.row.2.2 ▸ h.bounded
  refine Json.canonical_object (documentFields_nodup db f) fun m hm => ?_
  simp only [List.mem_cons, List.not_mem_nil, or_false] at hm
  rcases hm with rfl | rfl | rfl | rfl | rfl | rfl | rfl
  · trivial
  · exact ⟨by decide, by decide⟩
  · trivial
  · trivial
  · have hmax : int64Max = 2 ^ 63 - 1 := rfl
    exact ⟨by omega, by omega⟩
  · exact metadataJson_canonical h.normal.rating
  · refine Json.canonicalElements_iff.2 fun x hx => ?_
    obtain ⟨c, -, rfl⟩ := List.mem_map.1 hx
    have hkeys :
        ([(ascii "key", Json.str c.key), (ascii "name", .str c.name)].map (·.1)).Nodup := by
      show [ascii "key", ascii "name"].Nodup
      decide
    refine Json.canonical_object hkeys fun m hm => ?_
    rcases List.mem_pair.1 hm with rfl | rfl
    · trivial
    · trivial

/-- The text of the classification is part of the document. -/
theorem metadata_dumped (h : Documented E db r f text) : ∃ s,
    E.json.dump (metadataJson f.metadata) = .ok s ∧ s.length ≤ maximumMetadataBytes := by
  have hdump := h.document
  unfold Catalog.document JsonLibrary.dump at hdump
  have hdocument : Json.dump E.json.realText (Json.object (documentFields db f)) = some text :=
    orFail_ok.1 hdump
  have hmember : (ascii "metadata", metadataJson f.metadata) ∈ documentFields db f := by
    unfold documentFields
    iterate 5 apply List.mem_cons_of_mem
    exact List.mem_cons_self
  obtain ⟨s, hs, hle⟩ := Json.dump_member hdocument (Keyset.mem_orderBy.2 hmember)
  exact ⟨s, orFail_ok.2 hs, hle.trans h.fits⟩

/-- The annotation of the row fits as well. -/
theorem annotation_fits (h : Documented E db r f text) :
    r.metadata.length ≤ maximumMetadataBytes := by
  obtain ⟨s, hs, hle⟩ := h.metadata_dumped
  exact (length_bare_le h.dumped hs).trans hle

/-- The metadata of a documented file are normal. -/
theorem normalized (h : Documented E db r f text) :
    normalizeMetadata E f.metadata = .ok f.metadata := by
  obtain ⟨s, hs, hle⟩ := h.metadata_dumped
  exact normalizeMetadata_self h.normal h.collections h.fields h.few hs hle

/-! ## Its collections -/

/-- The collections that a document lists are the memberships of its file. -/
theorem listed_keys (h : Documented E db r f text) :
    (listedCollections db f.metadata.collections).map (·.key) = f.metadata.collections := by
  have hknown := h.known
  generalize f.metadata.collections = keys at hknown
  induction keys with
  | nil => rfl
  | cons key keys ih =>
      obtain ⟨row, hrow, -⟩ := hknown key List.mem_cons_self
      rw [listedCollections, List.filterMap_cons, hrow]
      exact congrArg (key :: ·) (ih fun k hk => hknown k (List.mem_cons_of_mem _ hk))

/-- A collection of the document is one of the catalog. -/
theorem listed (h : Documented E db r f text) {c : FileCollection}
    (hc : c ∈ listedCollections db f.metadata.collections) : ∃ row, db.collections.find c.key
      = some row ∧ row.key = c.key ∧ row.name = c.name ∧ CollectionValid E row := by
  obtain ⟨key, hkey, hc⟩ := List.mem_filterMap.1 hc
  obtain ⟨row, hrow, rfl⟩ := Option.map_eq_some_iff.1 hc
  obtain ⟨row', hrow', hvalid⟩ := h.known key hkey
  obtain rfl := Option.some.inj (hrow'.symm.trans hrow)
  exact ⟨row', hrow, (UniqueTable.find_eq_some.1 hrow).2, rfl, hvalid⟩

/-- A normal collection is read back from its document. -/
theorem companionCollection_collectionJson {c : FileCollection} (hc : CollectionNormal E c) :
    companionCollection E (collectionJson c) = .ok c := by
  have hkeys : ([(ascii "key", Json.str c.key), (ascii "name", .str c.name)].map (·.1)).Nodup := by
    show [ascii "key", ascii "name"].Nodup
    decide
  have hkey : (collectionJson c).member (ascii "key") = .ok (.str c.key) :=
    Json.member_object hkeys (by simp)
  have hname : (collectionJson c).member (ascii "name") = .ok (.str c.name) :=
    Json.member_object hkeys (by simp)
  simp only [companionCollection, bind_ok, pure_ok]
  exact ⟨_, hkey, _, rfl, _, hc.key, _, hname, _, rfl, _, hc.name, rfl⟩

/-! ## The companion -/

/-- **The document of a file is accepted as a companion**, which has the key, the revision, the
classification and the collections of the file. -/
theorem companionOf (h : Documented E db r f text) :
    Catalog.companionOf E (documentJson db f) = .ok (companionFrom db f) := by
  have hmember : ∀ m ∈ documentFields db f, (documentJson db f).member? m.1 = some m.2 :=
    fun m hm => Json.member?_object (documentFields_nodup db f) hm
  simp only [documentFields, List.forall_mem_cons, List.not_mem_nil, false_implies,
    implies_true, and_true] at hmember
  obtain ⟨hformat, hschema, hkey, -, hrevision, hmetadata, hcollections⟩ := hmember
  obtain ⟨hkeyRow, -, hrevisionRow⟩ := h.row
  have hnumber : jsonInteger (2 ^ 63 - 1) (.int f.revision) = .ok f.revision := by
    have hbounded : f.revision ≤ 2 ^ 63 - 1 := hrevisionRow ▸ h.bounded
    simp only [jsonInteger, bind_ok, orFail_ok, failIf_ok, pure_ok, not_lt]
    exact ⟨f.revision, rfl, (), hbounded, rfl⟩
  have hparsed : parseMetadata E (metadataJson f.metadata) = .ok f.metadata :=
    (parseMetadata_metadataJson h.normal.rating).2 h.normalized
  have hlisted : ((listedCollections db f.metadata.collections).map collectionJson).mapM
      (companionCollection E) = .ok (listedCollections db f.metadata.collections) := by
    rw [mapM_ok, List.map_map]
    refine List.map_congr_left fun c hc => ?_
    obtain ⟨row, -, hrowKey, hrowName, hvalid⟩ := h.listed hc
    have hnormal : CollectionNormal E c := by
      obtain ⟨key, name⟩ := c
      obtain rfl : row.key = key := hrowKey
      obtain rfl : row.name = name := hrowName
      exact hvalid.normal
    exact companionCollection_collectionJson hnormal
  have hlength : ((listedCollections db f.metadata.collections).map collectionJson).length
      = f.metadata.collections.length := by
    rw [List.length_map, ← h.listed_keys, List.length_map, h.listed_keys]
  have hnodup : f.metadata.collections.Nodup := by
    rw [← h.collections.2]
    exact (Keyset.orderBy_perm _).nodup_iff.2 (List.nodup_dedup _)
  simp only [Catalog.companionOf, bind_ok, failIf_ok, orFail_ok, pure_ok, not_or, not_not,
    valueOr_ok hformat, valueOr_ok hschema, Json.member_of_member? hkey,
    Json.member_of_member? hrevision, Json.member_of_member? hmetadata,
    Json.member_of_member? hcollections]
  refine ⟨(), by simp [documentJson, Json.object, Json.isObject], _, rfl, (), rfl, _, rfl, (),
    by decide, _, rfl, _, rfl, (), ?_, _, rfl, _, hnumber, (), ?_, _, rfl, _, hparsed, _, rfl, _,
    rfl, (), hlength, _, hlisted, (), ⟨?_, ?_⟩, rfl⟩
  · rw [hkeyRow]
    exact Bool.not_eq_false _ ▸ h.key
  · rw [hrevisionRow]
    exact h.positive.ne'
  · rw [h.listed_keys]
    exact hnodup
  · simp only [List.any_eq_true, decide_eq_true_eq, not_exists, not_and, not_not]
    intro c hc
    rw [← h.listed_keys]
    exact List.mem_map_of_mem hc

/-- A companion on disk is read as that of its file. -/
theorem sidecar (h : Documented E db r f text) {physical : Physical} {relative : Bytes}
    (hnode : fs.node (companionPath relative) = some (.file physical text))
    (hsize : physical.size = text.length) :
    Catalog.sidecar E fs relative = .ok (some (companionFrom db f)) := by
  have hread : smallRead fs (companionPath relative) = .ok text := by
    unfold smallRead
    rw [hnode]
    simp only [bind_ok, failIf_ok, pure_ok, not_lt, not_not]
    exact ⟨(), hsize ▸ h.fits, (), hsize.symm, trivial⟩
  have hparse : E.json.parseText text = .ok (documentJson db f) :=
    JsonLibrary.parseText_of_dump h.canonical h.document
  unfold Catalog.sidecar
  rw [hnode]
  simp only [companion, bind_ok, pure_ok]
  exact ⟨_, ⟨text, hread, _, hparse, h.companionOf⟩, rfl⟩

end Documented

end Catalog

end FileProvider
