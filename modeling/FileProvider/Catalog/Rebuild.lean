import FileProvider.Catalog.Acceptance

/-!
# A catalog made anew from its companions

The files of a catalog whose companions are published can be registered in a new catalog, in any
order and in any batches. The new catalog takes from each companion what the old one said of the
file: `Rebuilt` says how far it has come after some of the files.

`Restorable` is what is needed of one file, `Remaining` what distinguishes it from those that were
taken. The proof of one registration follows the way of a new file through the source, and each
statement on it is accepted by the lemmas of `Acceptance`.
-/

namespace FileProvider

open Bytes Fallible

namespace Catalog

variable {E : CatalogLibraries} {fs : FileSystem} {old db db' : CatalogTables}

/-! ## Collections -/

/-- A valid collection whose key and name are free is accepted. -/
theorem exists_insertCollection {row : CollectionRow} (hvalid : CollectionValid E row)
    (hnone : db.collectionOf row.key row.folded = none) :
    ∃ db', db.insertCollection row = .ok db' ∧
      ∀ r, r ∈ db'.collections ↔ r ∈ db.collections ∨ r = row := by
  obtain ⟨hkey, hfolded⟩ := Option.or_eq_none_iff.1 (Option.map_eq_none_iff.1 hnone)
  have hcolumns : ∀ c ∈ CollectionRow.columns, ∀ s ∈ db.collections, c s ≠ c row := by
    intro c hc
    obtain rfl := List.mem_singleton.1 hc
    exact UniqueTable.findBy_eq_none.1 hfolded
  obtain ⟨collections, hinsert⟩ := UniqueTable.exists_insert hkey hcolumns
  have hbind : bindTexts [row.key, row.name, row.folded] = .ok () := by
    rw [bindTexts_ok]
    simp only [List.forall_mem_cons]
    exact ⟨(length_normalized_le hvalid.normal.key).trans (by decide),
      (length_normalized_le hvalid.normal.name).trans (by decide),
      (length_normalized_le hvalid.folded).trans (by decide), List.forall_mem_nil _⟩
  refine ⟨{ db with collections }, ?_, fun r => UniqueTable.mem_insert hinsert⟩
  simp only [CatalogTables.insertCollection, bind_ok, orFail_ok, pure_ok]
  exact ⟨(), hbind, collections, hinsert, rfl⟩

/-- Tables whose collections are all among the old ones have room for another one of these. -/
theorem length_collections_lt {row : CollectionRow}
    (hdb : ∀ r ∈ db.collections, r ∈ old.collections) (hrow : row ∈ old.collections)
    (hfree : row ∉ db.collections) :
    db.collections.rows.length < old.collections.rows.length := by
  have hnodup : (row :: db.collections.rows).Nodup :=
    List.nodup_cons.2 ⟨hfree, db.collections.nodup.of_map⟩
  have hsubset : ∀ r ∈ row :: db.collections.rows, r ∈ old.collections.rows :=
    List.forall_mem_cons.2 ⟨hrow, hdb⟩
  exact (List.subperm_of_subset hnodup hsubset).length_le

/-- A collection of the old tables is found in the new ones, or made there as it was. A collection
is known by its key and by its folded name, which both are those of one old row, so the search finds
the same one or none. -/
theorem exists_restoreCollection {row : CollectionRow} (remap : List (Bytes × Bytes))
    (hdb : ∀ r ∈ db.collections, r ∈ old.collections)
    (hlimit : old.collections.rows.length ≤ 4096) (hrow : row ∈ old.collections)
    (hvalid : CollectionValid E row) :
    ∃ db', restoreCollection E (db, remap) ⟨row.key, row.name⟩
        = .ok (db', (row.key, row.key) :: remap) ∧
      ∀ r, r ∈ db'.collections ↔ r ∈ db.collections ∨ r = row := by
  have hsame : ∀ r ∈ db.collections, r.key = row.key ∨ r.folded = row.folded → r = row := by
    intro r hr h
    rcases h with hkey | hfolded
    · exact Table.eq_of_key_eq (hdb r hr) hrow hkey
    · exact UniqueTable.eq_of_column_eq (c := CollectionRow.folded) List.mem_cons_self
        (hdb r hr) hrow hfolded
  simp only [restoreCollection, bind_ok]
  cases hfound : db.collectionOf row.key row.folded with
  | some key =>
      obtain ⟨r, hr, rfl⟩ := Option.map_eq_some_iff.1 hfound
      have hmem : r ∈ db.collections ∧ r = row := by
        rcases Option.or_eq_some_iff.1 hr with hr | ⟨-, hr⟩
        · obtain ⟨hmem, hkey⟩ := UniqueTable.find_eq_some.1 hr
          exact ⟨hmem, hsame r hmem (.inl hkey)⟩
        · obtain ⟨hmem, hfolded⟩ := (UniqueTable.findBy_eq_some List.mem_cons_self).1 hr
          exact ⟨hmem, hsame r hmem (.inr hfolded)⟩
      obtain ⟨hmem, rfl⟩ := hmem
      refine ⟨db, ⟨r.folded, hvalid.folded, ?_⟩, fun s => ?_⟩
      · rw [hfound]
        rfl
      · exact ⟨.inl, fun h => h.elim (fun h => h) fun heq => heq ▸ hmem⟩
  | none =>
      obtain ⟨db', hinsert, hmem⟩ := exists_insertCollection hvalid hfound
      have hfree : row ∉ db.collections := by
        intro hin
        have hkey := (Option.or_eq_none_iff.1 (Option.map_eq_none_iff.1 hfound)).1
        rw [UniqueTable.mem_iff_find.1 hin] at hkey
        cases hkey
      have hcount := (length_collections_lt hdb hrow hfree).trans_le hlimit
      refine ⟨db', ⟨row.folded, hvalid.folded, ?_⟩, hmem⟩
      rw [hfound]
      simp only [bind_ok, failIf_ok, not_le, pure_ok]
      exact ⟨(), hcount, db', hinsert, rfl⟩

/-- The collections of a companion are restored under their own keys. Only old collections are there
before and after, so those that are left can still be restored under their own keys. -/
theorem exists_restoreFold {l : List FileCollection} {remap : List (Bytes × Bytes)}
    (hdb : ∀ r ∈ db.collections, r ∈ old.collections)
    (hlimit : old.collections.rows.length ≤ 4096)
    (hl : ∀ c ∈ l, ∃ row ∈ old.collections, c = ⟨row.key, row.name⟩ ∧ CollectionValid E row)
    (hremap : ∀ e ∈ remap, e.2 = e.1) :
    ∃ db' remap', l.foldlM (restoreCollection E) (db, remap) = .ok (db', remap') ∧
      (∀ e ∈ remap', e.2 = e.1) ∧ ∀ r, r ∈ db'.collections ↔ r ∈ db.collections ∨
        (r ∈ old.collections ∧ r.key ∈ l.map (·.key)) := by
  induction l generalizing db remap with
  | nil => exact ⟨db, remap, rfl, hremap, fun r => by simp⟩
  | cons c l ih =>
      rw [List.forall_mem_cons] at hl
      obtain ⟨⟨row, hrow, rfl, hvalid⟩, hl⟩ := hl
      obtain ⟨mid, hmid, hmem⟩ := exists_restoreCollection remap hdb hlimit hrow hvalid
      have hmidOld : ∀ r ∈ mid.collections, r ∈ old.collections := by
        intro r hr
        rcases (hmem r).1 hr with hr | rfl
        · exact hdb r hr
        · exact hrow
      have hnext : ∀ e ∈ (row.key, row.key) :: remap, e.2 = e.1 :=
        List.forall_mem_cons.2 ⟨rfl, hremap⟩
      obtain ⟨db', remap', hfold, hself, hrows⟩ := ih hmidOld hl hnext
      refine ⟨db', remap', foldlM_cons_ok.2 ⟨_, hmid, hfold⟩, hself, fun r => ?_⟩
      rw [hrows, hmem, List.map_cons, List.mem_cons]
      constructor
      · rintro ((hr | rfl) | ⟨hr, hkey⟩)
        · exact .inl hr
        · exact .inr ⟨hrow, .inl rfl⟩
        · exact .inr ⟨hr, .inr hkey⟩
      · rintro (hr | ⟨hr, hkey | hkey⟩)
        · exact .inl (.inl hr)
        · exact .inl (.inr (Table.eq_of_key_eq hr hrow hkey))
        · exact .inr ⟨hr, hkey⟩

/-- Where no key was changed, each key is taken as it is. -/
theorem remapped_self {remap : List (Bytes × Bytes)} {key : Bytes}
    (hremap : ∀ e ∈ remap, e.2 = e.1) (hkey : key ∈ remap.map (·.1)) :
    remapped remap key = .ok key := by
  obtain ⟨e, he, rfl⟩ := List.mem_map.1 hkey
  cases hfind : remap.find? (fun x => x.1 = e.1) with
  | none => exact absurd (List.find?_eq_none.1 hfind e he) (by simp)
  | some x =>
      have hx : x.1 = e.1 := by simpa using List.find?_some hfind
      rw [remapped, hfind, Option.map_some, hremap x (List.mem_of_find?_eq_some hfind), hx]
      rfl

/-- **A companion is restored as it is** in tables whose collections are all among the old ones. The
memberships keep their keys, since each collection of the companion comes back under the key it had.
-/
theorem Documented.restored {s : FileRow} {f : CatalogFile} {text : Bytes}
    (h : Documented E old s f text) (hdb : ∀ r ∈ db.collections, r ∈ old.collections)
    (hlimit : old.collections.rows.length ≤ 4096) :
    ∃ db', restoreCollections E db (companionFrom old f) = .ok (f.metadata, db') ∧
      ∀ r, r ∈ db'.collections ↔ r ∈ db.collections ∨
        (r ∈ old.collections ∧ r.key ∈ f.metadata.collections) := by
  have hl : ∀ c ∈ listedCollections old f.metadata.collections, ∃ row ∈ old.collections,
      c = ⟨row.key, row.name⟩ ∧ CollectionValid E row := by
    intro c hc
    obtain ⟨row, hrow, hkey, hname, hvalid⟩ := h.listed hc
    refine ⟨row, (UniqueTable.find_eq_some.1 hrow).1, ?_, hvalid⟩
    rw [hkey, hname]
  obtain ⟨db', remap, hfold, hremap, hrows⟩ :=
    exists_restoreFold hdb hlimit hl (List.forall_mem_nil fun e : Bytes × Bytes => e.2 = e.1)
  have hkeys : remap.map (·.1) = f.metadata.collections.reverse ++ [] := by
    rw [← h.listed_keys]
    exact restoreFold_keys hfold
  have hself : f.metadata.collections.mapM (remapped remap) = .ok f.metadata.collections := by
    rw [mapM_ok]
    refine List.map_congr_left fun key hkey => remapped_self hremap ?_
    rw [hkeys, List.append_nil, List.mem_reverse]
    exact hkey
  refine ⟨db', ?_, fun r => ?_⟩
  · simp only [restoreCollections, bind_ok, pure_ok, Prod.exists, Prod.mk.injEq]
    exact ⟨db', remap, hfold, _, hself, _, h.normalized, rfl, rfl⟩
  · rw [hrows, h.listed_keys]

/-! ## Files -/

/-- A native state that fits into a row. -/
structure Describable (physical : Physical) : Prop where
  identity : physical.identity.length ≤ maximumMetadataBytes + 65536
  version : physical.version.length ≤ maximumMetadataBytes + 65536
  size : physical.size ≤ int64Max

/-- A file of the old tables that a new catalog finds, with its companion. -/
structure Restorable (E : CatalogLibraries) (fs : FileSystem) (old : CatalogTables) (s : FileRow)
    (f : CatalogFile) (text : Bytes) (physical : Physical) : Prop where
  row : s ∈ old.files
  documented : Documented E old s f text
  path : Catalog.path E fs s.path = .ok s.path
  file : inspect fs s.path = .ok physical
  describable : Describable physical
  sidecar : Catalog.sidecar E fs s.path = .ok (some (companionFrom old f))

/-- A row of the new tables that says what a row of the old ones says. -/
structure Copies (fs : FileSystem) (old db : CatalogTables) (s r : FileRow) : Prop where
  key : r.key = s.key
  path : r.path = s.path
  revision : r.revision = s.revision
  metadata : r.metadata = s.metadata
  identity : ∃ physical, inspect fs s.path = .ok physical ∧ r.identity = physical.identity
  memberships : db.memberships r.id = old.memberships s.id

/-- New tables into which some files of the old ones have been taken, and no others. -/
structure Rebuilt (fs : FileSystem) (old : CatalogTables) (taken : List FileRow)
    (db : CatalogTables) : Prop where
  sequence : db.filesSequence = taken.length
  numbered : ∀ r ∈ db.files, r.id ≤ db.filesSequence
  rows : ∀ r ∈ db.files, ∃ s ∈ taken, Copies fs old db s r
  restored : ∀ s ∈ taken, ∃ r ∈ db.files, Copies fs old db s r
  collections : ∀ row, row ∈ db.collections ↔
    row ∈ old.collections ∧ ∃ s ∈ taken, row.key ∈ old.memberships s.id

/-- A fresh catalog has rebuilt nothing. -/
theorem Rebuilt.fresh (id : Bytes) : Rebuilt fs old [] (.empty id) where
  sequence := rfl
  numbered r hr := by cases hr
  rows r hr := by cases hr
  restored s hs := by cases hs
  collections row := by
    constructor
    · intro hrow
      cases hrow
    · rintro ⟨-, s, hs, -⟩
      cases hs

/-- A file that has not been taken yet: none of the taken ones is it, or has its identity. -/
structure Remaining (fs : FileSystem) (old : CatalogTables) (taken : List FileRow) (s : FileRow)
    (physical : Physical) : Prop where
  known : ∀ t ∈ taken, t ∈ old.files
  fresh : s ∉ taken
  distinct : ∀ t ∈ taken, ∀ q, inspect fs t.path = .ok q → q.identity ≠ physical.identity
  room : taken.length < int64Max

variable {taken : List FileRow} {s : FileRow} {f : CatalogFile} {text : Bytes}
  {physical : Physical}

/-- The memberships of a documented file are those of the old tables. -/
theorem Documented.memberships (h : Documented E old s f text) :
    f.metadata.collections = old.memberships s.id := by
  obtain ⟨_, _, -, -, rfl⟩ := entry_ok h.entry
  rfl

/-- No row of the new tables has the key, the path or the identity of a file that remains. -/
theorem Rebuilt.free (hdb : Rebuilt fs old taken db) (hs : s ∈ old.files)
    (hremaining : Remaining fs old taken s physical) : ∀ r ∈ db.files,
    r.key ≠ s.key ∧ r.path ≠ s.path ∧ r.identity ≠ physical.identity := by
  intro r hr
  obtain ⟨t, ht, hagain⟩ := hdb.rows r hr
  have hother : t ≠ s := fun heq => hremaining.fresh (heq ▸ ht)
  refine ⟨fun heq => hother ?_, fun heq => hother ?_, fun heq => ?_⟩
  · exact UniqueTable.eq_of_column_eq (c := FileRow.key) (by simp [FileRow.columns])
      (hremaining.known t ht) hs (hagain.key.symm.trans heq)
  · exact UniqueTable.eq_of_column_eq (c := FileRow.path) (by simp [FileRow.columns])
      (hremaining.known t ht) hs (hagain.path.symm.trans heq)
  · obtain ⟨q, hq, hidentity⟩ := hagain.identity
    exact hremaining.distinct t ht q hq (hidentity.symm.trans heq)

/-! ## Copies -/

/-- A copy of a file that is documented is read as the file is. -/
theorem Copies.entry {r : FileRow} (hr : Copies fs old db s r) (h : Documented E old s f text) :
    ∃ g, Catalog.entry E db r = .ok g ∧ g.key = f.key ∧ g.path = f.path ∧
      g.revision = f.revision ∧ g.metadata = f.metadata := by
  obtain ⟨j, n, hj, hn, rfl⟩ := entry_ok h.entry
  refine ⟨⟨r.key, r.id, r.revision, r.path, r.size, r.modified, r.stamp,
    { n with collections := db.memberships r.id }, db.pending.find r.id ≠ none⟩, ?_, hr.key,
    hr.path, hr.revision, ?_⟩
  · simp only [Catalog.entry, bind_ok, pure_ok]
    exact ⟨j, hr.metadata ▸ hj, n, hn, rfl⟩
  · show { n with collections := db.memberships r.id } = _
    rw [hr.memberships]

/-- A copy whose collections are there has the document of the file. -/
theorem Copies.document {r : FileRow} (hr : Copies fs old db s r) (h : Documented E old s f text)
    (hlisted : listedCollections db f.metadata.collections
      = listedCollections old f.metadata.collections) : documentOf E db r = .ok text := by
  obtain ⟨g, hg, hkey, hpath, hrevision, hmetadata⟩ := hr.entry h
  simp only [documentOf, bind_ok]
  refine ⟨g, hg, ?_⟩
  have hsame : documentJson db g = documentJson old f := by
    unfold documentJson
    rw [hkey, hpath, hrevision, hmetadata, hlisted]
  rw [Catalog.document, hsame]
  exact h.document

/-- The collections of a file are found where the rows of the old catalog are. -/
theorem Documented.found (h : Documented E old s f text)
    (hrows : ∀ row ∈ old.collections, row.key ∈ f.metadata.collections → row ∈ db.collections)
    {key : Bytes} (hkey : key ∈ f.metadata.collections) :
    db.collections.find key = old.collections.find key ∧ db.collections.find key ≠ none := by
  obtain ⟨row, hrow, -⟩ := h.known key hkey
  obtain ⟨hmem, rfl⟩ := UniqueTable.find_eq_some.1 hrow
  rw [hrow, UniqueTable.mem_iff_find.1 (hrows row hmem hkey)]
  exact ⟨rfl, Option.some_ne_none row⟩

/-- A file that has been taken has its document in the new catalog. -/
theorem Rebuilt.document (hdb : Rebuilt fs old taken db) (hs : s ∈ taken) {r : FileRow}
    (hcopy : Copies fs old db s r) (h : Documented E old s f text) :
    documentOf E db r = .ok text := by
  have hrows : ∀ row ∈ old.collections, row.key ∈ f.metadata.collections →
      row ∈ db.collections :=
    fun row hrow hkey => (hdb.collections row).2 ⟨hrow, s, hs, h.memberships ▸ hkey⟩
  exact hcopy.document h (listedCollections_congr fun key hkey => (h.found hrows hkey).1)

/-- The new tables once one more file has its row and its collections. The rows that were there are
copies of their old rows as before, because nothing of theirs is written. -/
theorem Rebuilt.snoc (hdb : Rebuilt fs old taken db) {row : FileRow}
    (hsequence : db'.filesSequence = db.filesSequence + 1) (hid : row.id = db.filesSequence + 1)
    (hmem : ∀ r, r ∈ db'.files ↔ r ∈ db.files ∨ r = row)
    (hmemberships : ∀ r ∈ db.files, db'.memberships r.id = db.memberships r.id)
    (hrow : Copies fs old db' s row)
    (hcollections : ∀ r, r ∈ db'.collections ↔ r ∈ db.collections ∨
      (r ∈ old.collections ∧ r.key ∈ old.memberships s.id)) :
    Rebuilt fs old (taken ++ [s]) db' := by
  have hkeep : ∀ t, ∀ r ∈ db.files, Copies fs old db t r → Copies fs old db' t r :=
    fun t r hr hr' => { hr' with memberships := (hmemberships r hr).trans hr'.memberships }
  refine ⟨?_, fun r hr => ?_, fun r hr => ?_, fun t ht => ?_, fun r => ?_⟩
  · rw [hsequence, hdb.sequence, List.length_append, List.length_singleton]
  · rw [hsequence]
    rcases (hmem r).1 hr with hr | rfl
    · exact (hdb.numbered r hr).trans (Nat.le_succ _)
    · exact hid.le
  · rcases (hmem r).1 hr with hr | rfl
    · obtain ⟨t, ht, hcopy⟩ := hdb.rows r hr
      exact ⟨t, List.mem_append_left _ ht, hkeep t r hr hcopy⟩
    · exact ⟨s, List.mem_append_right _ (List.mem_singleton_self s), hrow⟩
  · rcases List.mem_append.1 ht with ht | ht
    · obtain ⟨r, hr, hcopy⟩ := hdb.restored t ht
      exact ⟨r, (hmem r).2 (.inl hr), hkeep t r hr hcopy⟩
    · obtain rfl := List.mem_singleton.1 ht
      exact ⟨row, (hmem row).2 (.inr rfl), hrow⟩
  · rw [hcollections, hdb.collections]
    constructor
    · rintro (⟨hr, t, ht, hkey⟩ | ⟨hr, hkey⟩)
      · exact ⟨hr, t, List.mem_append_left _ ht, hkey⟩
      · exact ⟨hr, s, List.mem_append_right _ (List.mem_singleton_self s), hkey⟩
    · rintro ⟨hr, t, ht, hkey⟩
      rcases List.mem_append.1 ht with ht | ht
      · exact .inl ⟨hr, t, ht, hkey⟩
      · obtain rfl := List.mem_singleton.1 ht
        exact .inr ⟨hr, hkey⟩

/-! ## One registration -/

/-- Where key, path and identity are free, no row is taken over. -/
theorem registered_free (hfree : ∀ r ∈ db.files,
    r.key ≠ s.key ∧ r.path ≠ s.path ∧ r.identity ≠ physical.identity) :
    registered E fs db s.path physical = .ok none := by
  have hpath : db.files.findBy FileRow.path s.path = none :=
    UniqueTable.findBy_eq_none.2 fun r hr => (hfree r hr).2.1
  have hidentity : db.files.findBy FileRow.identity physical.identity = none :=
    UniqueTable.findBy_eq_none.2 fun r hr => (hfree r hr).2.2
  have hfind : find E db s.path true = .ok none := by
    unfold find
    rw [if_pos rfl, hpath]
    rfl
  simp only [registered, bind_ok]
  refine ⟨none, hfind, ?_⟩
  dsimp only
  rw [hidentity]
  rfl

/-- The new catalog takes over what the companion says. The key of the companion is free in the new
tables, and its collections are all among the old ones, so nothing is renamed. -/
theorem Restorable.adopted (h : Restorable E fs old s f text physical)
    (hdb : ∀ r ∈ db.collections, r ∈ old.collections)
    (hlimit : old.collections.rows.length ≤ 4096) (hfree : ∀ r ∈ db.files, r.key ≠ s.key)
    (draws : KeyDraws) : ∃ mid,
      adopted E fs db s.path none draws = .ok ⟨s.key, s.revision, f.metadata, mid⟩ ∧
      Restores db mid ∧ ∀ r, r ∈ mid.collections ↔ r ∈ db.collections ∨
        (r ∈ old.collections ∧ r.key ∈ f.metadata.collections) := by
  obtain ⟨mid, hrestore, hrows⟩ := h.documented.restored hdb hlimit
  have hrestores := (restoreCollections_ok hrestore).1
  obtain ⟨hkey, -, hrevision⟩ := h.documented.row
  have howner : mid.files.findBy FileRow.key f.key = none := by
    rw [hrestores.rows.1, hkey]
    exact UniqueTable.findBy_eq_none.2 hfree
  have hown : ¬ ((mid.files.findBy FileRow.key (companionFrom old f).fileKey).any
      fun owner => owner.path ≠ s.path) = true := by
    show ¬ ((mid.files.findBy FileRow.key f.key).any fun owner => owner.path ≠ s.path) = true
    rw [howner]
    simp
  refine ⟨mid, ?_, hrestores, hrows⟩
  simp only [Catalog.adopted, bind_ok]
  refine ⟨_, h.sidecar, ?_⟩
  dsimp only
  rw [bind_ok]
  refine ⟨_, hrestore, ?_⟩
  dsimp only
  rw [if_neg hown]
  show Except.ok (⟨f.key, max 1 f.revision, f.metadata, mid⟩ : Proposal) = _
  rw [hkey, hrevision, Nat.max_eq_right h.documented.positive]

/-- A file whose key, path and identity are free is accepted, while numbers are left. The bound
texts are within their limits, the numbers within those of the engine, and no row has one of the
unique columns. -/
theorem exists_insertFile {key place : Bytes} {revision : Nat} (hphysical : Describable physical)
    (hkey : fileKeyValid key = true) (hplace : place.length ≤ 4096) (hpositive : 0 < revision)
    (hbounded : revision ≤ int64Max) (hroom : db.filesSequence < int64Max)
    (hnumbered : ∀ r ∈ db.files, r.id ≤ db.filesSequence)
    (hfree : ∀ r ∈ db.files, r.key ≠ key ∧ r.path ≠ place ∧ r.identity ≠ physical.identity) :
    ∃ mid, db.insertFile physical revision key place = .ok (db.filesSequence + 1, mid) := by
  have hlength : key.length = 37 := by
    simp only [fileKeyValid, Bool.and_eq_true, decide_eq_true_eq] at hkey
    exact hkey.1.1
  have hbind : bindTexts [physical.identity, physical.version, key, place] = .ok () := by
    rw [bindTexts_ok]
    simp only [List.forall_mem_cons]
    exact ⟨hphysical.identity, hphysical.version, hlength.trans_le (by decide),
      hplace.trans (by decide), List.forall_mem_nil _⟩
  have hnone : db.files.find (db.filesSequence + 1) = none := by
    refine Table.find_eq_none.2 fun r hr heq => ?_
    have hle := hnumbered r hr
    omega
  have hcolumns : ∀ c ∈ FileRow.columns, ∀ r ∈ db.files,
      c r ≠ c (.new (db.filesSequence + 1) key place physical revision) := by
    intro c hc r hr
    simp only [FileRow.columns, List.mem_cons, List.not_mem_nil, or_false] at hc
    rcases hc with rfl | rfl | rfl
    · exact (hfree r hr).1
    · exact (hfree r hr).2.1
    · exact (hfree r hr).2.2
  obtain ⟨files, hinsert⟩ := UniqueTable.exists_insert hnone hcolumns
  simp only [CatalogTables.insertFile, integer, bind_ok, failIf_ok, orFail_ok, pure_ok,
    Prod.mk.injEq, not_lt, not_le]
  exact ⟨_, (), hbind, (), hphysical.size, (), hbounded, (), hpositive.ne', (), hroom, files,
    hinsert, trivial, rfl⟩

/-- A row that was inserted and then annotated is the only new one. The annotation rewrites the row
that was inserted, which is found under its number. -/
theorem Annotated.mem_inserted {row : FileRow} {m : FileMetadata} {bare : Bytes}
    {mid next : CatalogTables} (hinsert : mid.files.insert row = some next.files)
    (h : Annotated E next row.id m bare db') (r : FileRow) :
    r ∈ db'.files ↔ r ∈ mid.files ∨ r = row.annotate m bare := by
  obtain ⟨hnone, hfind⟩ := UniqueTable.find_insert hinsert
  have hold : ∀ q ∈ mid.files, q.id ≠ row.id := Table.find_eq_none.1 hnone
  have hrow : (row.annotate m bare).id = row.id := rfl
  rw [UniqueTable.mem_iff_find, h.files, hfind]
  constructor
  · intro hr
    split at hr
    · rw [Option.map_some, if_pos rfl] at hr
      exact .inr (Option.some.inj hr).symm
    · obtain ⟨q, hq, hqr⟩ := Option.map_eq_some_iff.1 hr
      obtain ⟨hmem, -⟩ := UniqueTable.find_eq_some.1 hq
      rw [if_neg (hold q hmem)] at hqr
      exact .inl (hqr ▸ hmem)
  · rintro (hr | rfl)
    · rw [if_neg fun heq => hold r hr heq.symm, UniqueTable.mem_iff_find.1 hr, Option.map_some,
        if_neg (hold r hr)]
    · rw [if_pos hrow.symm, Option.map_some, if_pos rfl]

/-- What the documents say a catalog accepts: the annotation of a file whose collections are
there. -/
theorem Documented.annotatable (h : Documented E old s f text)
    (hrows : ∀ row ∈ old.collections, row.key ∈ f.metadata.collections →
      row ∈ db.collections) :
    Annotatable E db f.metadata s.metadata where
  normal := h.normal
  dumped := h.dumped
  fits := h.annotation_fits
  short key hkey := by
    obtain ⟨row, hrow, hvalid⟩ := h.known key hkey
    have hkey' : row.key = key := (UniqueTable.find_eq_some.1 hrow).2
    exact hkey' ▸ length_normalized_le hvalid.normal.key
  nodup := by
    rw [← h.collections.2]
    exact (Keyset.orderBy_perm _).nodup_iff.2 (List.nodup_dedup _)
  known key hkey := (h.found hrows hkey).2

/-- The path of a restorable file is within its limit. -/
theorem Restorable.length_path_le (h : Restorable E fs old s f text physical) :
    s.path.length ≤ 4096 := by
  obtain ⟨-, hrelative⟩ := path_ok h.path
  simp only [relativePath, bind_ok] at hrelative
  obtain ⟨value, hvalue, -⟩ := hrelative
  simp only [normalized, bind_ok, failIf_ok, not_or, not_lt] at hvalue
  obtain ⟨_, ⟨hle, -⟩, -⟩ := hvalue
  exact hle

/-- The row of a file that remains and its annotation, once its collections are there. The insertion
and the annotation are accepted, as the row has the texts of an old row and a number of its own. -/
theorem Restorable.written (h : Restorable E fs old s f text physical)
    (hdb : Rebuilt fs old taken db) (hremaining : Remaining fs old taken s physical)
    {collections : UniqueTable CollectionRow.key CollectionRow.columns}
    (hrows : ∀ r, r ∈ collections ↔ r ∈ db.collections ∨
      (r ∈ old.collections ∧ r.key ∈ f.metadata.collections)) : ∃ next db' row,
      ({ db with collections } : CatalogTables).insertFile physical s.revision s.key s.path
        = .ok (db.filesSequence + 1, next) ∧
      annotations E next (db.filesSequence + 1) s.path f.metadata = .ok db' ∧
      Rebuilt fs old (taken ++ [s]) db' ∧ row ∈ db'.files ∧ Copies fs old db' s row := by
  have hdoc := h.documented
  obtain ⟨next, hnext⟩ : ∃ next, ({ db with collections } : CatalogTables).insertFile physical
      s.revision s.key s.path = .ok (db.filesSequence + 1, next) :=
    exists_insertFile h.describable hdoc.key h.length_path_le hdoc.positive hdoc.bounded
      (hdb.sequence ▸ hremaining.room) hdb.numbered (hdb.free h.row hremaining)
  obtain ⟨files, hinsert, hnext'⟩ := CatalogTables.insertFile_ok hnext
  have hfiles : db.files.insert
      (.new (db.filesSequence + 1) s.key s.path physical s.revision) = some next.files := by
    rw [hnext']
    exact hinsert
  have hcollections : next.collections = collections := by rw [hnext']
  have hfile : next.files.find (db.filesSequence + 1) ≠ none := by
    rw [(UniqueTable.find_insert hfiles).2]
    exact (if_pos rfl).trans_ne (Option.some_ne_none _)
  have hannotatable : Annotatable E next f.metadata s.metadata :=
    hdoc.annotatable fun row hrow hkey => hcollections ▸ (hrows row).2 (.inr ⟨hrow, hkey⟩)
  obtain ⟨db', hannotations⟩ := exists_annotations hannotatable h.length_path_le hfile
  obtain ⟨bare, hannotated⟩ := annotations_ok hannotations
  obtain rfl := Except.ok.inj (hannotated.dumped.symm.trans hdoc.dumped)
  let row := (FileRow.new (db.filesSequence + 1) s.key s.path physical s.revision).annotate
    f.metadata s.metadata
  have hmem := hannotated.mem_inserted hfiles
  have hmemberships : ∀ r ∈ db.files, db'.memberships r.id = db.memberships r.id := by
    intro r hr
    have hle := hdb.numbered r hr
    rw [hannotated.leaves.memberships r.id (by omega), hnext']
    rfl
  have hmembers : db'.memberships (db.filesSequence + 1) = f.metadata.collections :=
    hannotated.memberships.trans hdoc.collections.sorted
  have hcopy : Copies fs old db' s row :=
    ⟨rfl, rfl, rfl, rfl, ⟨physical, h.file, rfl⟩, hmembers.trans hdoc.memberships⟩
  refine ⟨next, db', row, hnext, hannotations, ?_, (hmem row).2 (.inr rfl), hcopy⟩
  refine hdb.snoc ?_ rfl hmem hmemberships hcopy fun r => ?_
  · rw [annotations_sequence hannotations, hnext']
  · rw [hannotated.collections, hcollections, ← hdoc.memberships]
    exact hrows r

/-- **A file that remains is registered with what its companion says**, and that is all the new
catalog gets. -/
theorem Restorable.registration (h : Restorable E fs old s f text physical)
    (hdb : Rebuilt fs old taken db) (hremaining : Remaining fs old taken s physical)
    (hlimit : old.collections.rows.length ≤ 4096) (draws : KeyDraws) : ∃ file db',
      registration E fs db ⟨s.path, none⟩ draws = .ok (file, true, db') ∧
      Rebuilt fs old (taken ++ [s]) db' ∧ file.metadata = f.metadata := by
  have hfree := hdb.free h.row hremaining
  have hkeys : ∀ r ∈ db.files, r.key ≠ s.key := fun r hr => (hfree r hr).1
  have hold : ∀ r ∈ db.collections, r ∈ old.collections :=
    fun r hr => ((hdb.collections r).1 hr).1
  obtain ⟨mid, hadopted, hrestores, hrows⟩ := h.adopted hold hlimit hkeys draws
  obtain ⟨collections, rfl, -⟩ := hrestores
  obtain ⟨next, db', row, hnext, hannotations, hrebuilt, hrow, hcopy⟩ :=
    h.written hdb hremaining hrows
  have hdoc := h.documented
  obtain ⟨g, hentry, -, -, -, hmetadata⟩ := hcopy.entry hdoc
  have htext : Catalog.document E db' g = .ok text := by
    have htaken : s ∈ taken ++ [s] := List.mem_append_right _ (List.mem_singleton_self s)
    have hdocument := hrebuilt.document htaken hcopy hdoc
    simp only [documentOf, bind_ok] at hdocument
    obtain ⟨g', hg', htext⟩ := hdocument
    obtain rfl := Except.ok.inj (hentry.symm.trans hg')
    exact htext
  have hown : normalized E s.key 128 false true = .ok row.key := by
    rw [hcopy.key]
    exact normalized_fileKey hdoc.key
  have hrequire : require E db' s.key = .ok g := require_of_row hrow hown hentry
  refine ⟨g, db', ?_, hrebuilt, hmetadata⟩
  simp only [Catalog.registration, bind_ok]
  refine ⟨s.path, (path_ok h.path).2, s.path, h.path, physical, h.file, none,
    registered_free hfree, ?_⟩
  simp only [bind_ok, Prod.exists]
  refine ⟨_, hadopted, db.filesSequence + 1, next, hnext, ?_⟩
  simp only [described, bind_ok, pure_ok]
  exact ⟨db', hannotations, g, hrequire, text, limitedDocument_ok.2 ⟨htext, hdoc.fits⟩, rfl⟩

end Catalog

end FileProvider
