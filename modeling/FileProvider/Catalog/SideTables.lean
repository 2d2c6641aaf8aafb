import FileProvider.Catalog.Observations

/-!
# The tables beside the files

What a search looks a file up by stands beside its row: its folded keywords, its fields, its
memberships, and its row of the full-text index. `Indexes` says that they are those of the
annotation in the row, and every transaction keeps them so. A transaction also counts itself,
unless it leaves all of them as they are.
-/

namespace FileProvider

open Bytes Fallible

namespace Catalog

variable {E : CatalogLibraries} {fs : FileSystem} {db db' mid : CatalogTables} {id : Nat}
  {place : Bytes} {m : FileMetadata}

/-! ## Annotations -/

/-- The row of the full-text index of a file. -/
def searchRow (id : Nat) (path : Bytes) (m : FileMetadata) : SearchRow :=
  ⟨id, path, m.title, m.description, m.keywords.flatMap line,
    m.fields.entries.flatMap fun e => line e.1 ++ line e.2⟩

/-- A term is the folded text of a keyword. -/
def HasTerm (E : CatalogLibraries) (m : FileMetadata) (term : Bytes) : Prop :=
  ∃ keyword ∈ m.keywords, normalized E keyword 512 true false = .ok term

/-- What stands beside the row of a file is what its annotation says. -/
structure Indexes (E : CatalogLibraries) (db : CatalogTables) (r : FileRow) (m : FileMetadata) :
    Prop where
  numbered : 0 < r.id
  normal : Normal E m
  dumped : E.json.dump (metadataJson { m with collections := [] }) = .ok r.metadata
  title : r.title = m.title
  rating : r.rating = m.rating
  color : r.color = m.color.code
  keywords : ∀ term, ⟨r.id, term⟩ ∈ db.keywords.rows ↔ HasTerm E m term
  fields : ∀ name value, ⟨r.id, name, value⟩ ∈ db.fields.rows ↔ (name, value) ∈ m.fields.entries
  search : db.search.find r.id = some (searchRow r.id r.path m)

/-- Every file has its annotation beside it. -/
def Indexed (E : CatalogLibraries) (db : CatalogTables) : Prop :=
  ∀ r ∈ db.files, ∃ m, Indexes E db r m

/-- The loop over the keywords adds the normalised keyword of each, for this file, and nothing else.
-/
theorem mem_insertKeywords {keywords : List Bytes}
    (h : keywords.foldlM (fun (db : CatalogTables) term => do
      db.insertKeyword ⟨id, ← normalized E term 512 true false⟩) db = .ok db') (k : KeywordRow) :
    k ∈ db'.keywords.rows ↔ k ∈ db.keywords.rows ∨ (k.fileId = id ∧
      ∃ keyword ∈ keywords, normalized E keyword 512 true false = .ok k.term) := by
  induction keywords generalizing db with
  | nil =>
      rw [List.foldlM_nil, pure_ok] at h
      rw [h]
      simp
  | cons keyword keywords ih =>
      obtain ⟨mid, hmid, h⟩ := foldlM_cons_ok.1 h
      simp only [CatalogTables.insertKeyword, bind_ok, orFail_ok, pure_ok] at hmid
      obtain ⟨term, hterm, _, -, rows, hrows, _, -, rfl⟩ := hmid
      rw [ih h]
      show k ∈ rows ∨ _ ↔ _
      rw [Table.mem_insert hrows]
      simp only [List.exists_mem_cons_iff]
      constructor
      · rintro ((hk | rfl) | ⟨hid, hk⟩)
        · exact .inl hk
        · exact .inr ⟨rfl, .inl hterm⟩
        · exact .inr ⟨hid, .inr hk⟩
      · rintro (hk | ⟨hid, hk | hk⟩)
        · exact .inl (.inl hk)
        · obtain rfl := Except.ok.inj (hterm.symm.trans hk)
          exact .inl (.inr (by rw [← hid]))
        · exact .inr ⟨hid, hk⟩

/-- The loop over the fields adds the row of each, for this file, and nothing else. -/
theorem mem_insertFields {fields : List (Bytes × Bytes)}
    (h : fields.foldlM (fun (db : CatalogTables) e => db.insertField ⟨id, e.1, e.2⟩) db
      = .ok db') (k : FieldRow) :
    k ∈ db'.fields.rows ↔ k ∈ db.fields.rows ∨ (k.fileId = id ∧ (k.name, k.value) ∈ fields) := by
  induction fields generalizing db with
  | nil =>
      rw [List.foldlM_nil, pure_ok] at h
      rw [h]
      simp
  | cons e fields ih =>
      obtain ⟨mid, hmid, h⟩ := foldlM_cons_ok.1 h
      simp only [CatalogTables.insertField, bind_ok, orFail_ok, pure_ok] at hmid
      obtain ⟨_, -, rows, hrows, _, -, rfl⟩ := hmid
      rw [ih h]
      show k ∈ rows ∨ _ ↔ _
      rw [Table.mem_insert hrows, List.mem_cons]
      constructor
      · rintro ((hk | rfl) | ⟨hid, hk⟩)
        · exact .inl hk
        · exact .inr ⟨rfl, .inl rfl⟩
        · exact .inr ⟨hid, .inr hk⟩
      · rintro (hk | ⟨hid, hk | hk⟩)
        · exact .inl (.inl hk)
        · obtain ⟨fileId, name, value⟩ := k
          obtain rfl : fileId = id := hid
          obtain rfl : (name, value) = e := hk
          exact .inl (.inr rfl)
        · exact .inr ⟨hid, hk⟩

/-- What an annotation writes beside a row. -/
structure Writes (E : CatalogLibraries) (db : CatalogTables) (id : Nat) (place : Bytes)
    (m : FileMetadata) (db' : CatalogTables) : Prop where
  catalogId : db'.catalogId = db.catalogId
  revision : db'.revision = db.revision
  keywords : ∀ k, k ∈ db'.keywords.rows ↔
    (k ∈ db.keywords.rows ∧ k.fileId ≠ id) ∨ (k.fileId = id ∧ HasTerm E m k.term)
  fields : ∀ k, k ∈ db'.fields.rows ↔
    (k ∈ db.fields.rows ∧ k.fileId ≠ id) ∨ (k.fileId = id ∧ (k.name, k.value) ∈ m.fields.entries)
  search : db'.search = db.search.upsert (searchRow id place m)

/-- A call of `annotations` that returns has written the rows of the file anew: those of before are
gone, and those of the metadata are there. -/
theorem annotations_writes (h : annotations E db id place m = .ok db') :
    Writes E db id place m db' := by
  simp only [annotations, bind_ok] at h
  obtain ⟨text, -, d₁, h₁, d₂, h₂, d₃, h₃, d₄, h₄, d₅, h₅, h⟩ := h
  have hkeywords := mem_insertKeywords h₂
  have hfields := mem_insertFields h₃
  obtain ⟨files, -, rfl⟩ := CatalogTables.updateAnnotation_ok h₁
  obtain ⟨keywords, rfl⟩ := insertKeywords_ok h₂
  obtain ⟨fields, rfl⟩ := insertFields_ok h₃
  obtain ⟨members, -, -, rfl⟩ := insertMembers_ok h₄
  rw [CatalogTables.replaceSearch_ok h₅] at h
  rw [CatalogTables.queue_ok h]
  refine ⟨rfl, rfl, fun k => (hkeywords k).trans ?_, fun k => (hfields k).trans ?_, rfl⟩
  · simp only [CatalogTables.removeAnnotation, HasTerm, ← Table.mem_def, Table.mem_filter,
      decide_eq_true_eq]
  · simp only [CatalogTables.removeAnnotation, ← Table.mem_def, Table.mem_filter,
      decide_eq_true_eq]

/-! ## Rows that are annotated anew -/

/-- Tables in which one row is about to be annotated: the others, and what stands beside them, are
as they were. -/
structure Readies (db mid : CatalogTables) (id : Nat) (place : Bytes) : Prop where
  catalogId : mid.catalogId = db.catalogId
  revision : mid.revision = db.revision
  others : ∀ i, i ≠ id → mid.files.find i = db.files.find i
  own : ∀ row, mid.files.find id = some row → row.path = place
  numbered : 0 < id ∨ ∃ r ∈ db.files, r.id = id
  keywords : mid.keywords = db.keywords
  fields : mid.fields = db.fields
  search : mid.search = db.search

/-- **An annotation keeps every file indexed.** The rows beside the annotated file are replaced by
those of the new annotation, and the other files have theirs as before. -/
theorem Indexed.annotates (hdb : Indexed E db) (hmid : Readies db mid id place) (hm : Normal E m)
    (h : annotations E mid id place m = .ok db') : Indexed E db' := by
  obtain ⟨text, hannotated⟩ := annotations_ok h
  have hwrites := annotations_writes h
  intro r hr
  have hfind : db'.files.find r.id = some r := UniqueTable.mem_iff_find.1 hr
  by_cases hid : r.id = id
  · rw [hid] at hfind
    cases hrow : mid.files.find id with
    | none =>
        rw [hannotated.files, hrow] at hfind
        cases hfind
    | some row =>
        rw [hannotated.row hrow] at hfind
        obtain rfl := Option.some.inj hfind
        obtain rfl : row.id = id := hid
        refine ⟨m, ?_, hm, hannotated.dumped, rfl, rfl, rfl, fun term => ?_, fun name value => ?_,
          ?_⟩
        · rcases hmid.numbered with hpositive | ⟨other, hother, hsame⟩
          · exact hpositive
          · obtain ⟨n, hn⟩ := hdb other hother
            exact hsame ▸ hn.numbered
        · rw [hwrites.keywords]
          exact ⟨fun hk => hk.elim (fun hk => absurd rfl hk.2) And.right, fun hk => .inr ⟨rfl, hk⟩⟩
        · rw [hwrites.fields]
          exact ⟨fun hk => hk.elim (fun hk => absurd rfl hk.2) And.right, fun hk => .inr ⟨rfl, hk⟩⟩
        · rw [hwrites.search, Table.find_upsert, ← hmid.own row hrow]
          exact if_pos rfl
  · rw [hannotated.leaves.files r.id hid, hmid.others r.id hid] at hfind
    obtain ⟨n, hn⟩ := hdb r (UniqueTable.mem_iff_find.2 hfind)
    refine ⟨n, hn.numbered, hn.normal, hn.dumped, hn.title, hn.rating, hn.color, fun term => ?_,
      fun name value => ?_, ?_⟩
    · rw [hwrites.keywords, hmid.keywords, ← hn.keywords]
      exact ⟨fun hk => hk.elim And.left fun hk => absurd hk.1 hid, fun hk => .inl ⟨hk, hid⟩⟩
    · rw [hwrites.fields, hmid.fields, ← hn.fields]
      exact ⟨fun hk => hk.elim And.left fun hk => absurd hk.1 hid, fun hk => .inl ⟨hk, hid⟩⟩
    · rw [hwrites.search, hmid.search, Table.find_upsert]
      exact (if_neg (Ne.symm hid)).trans hn.search

/-- What a row's side tables say depends on these tables alone. -/
theorem Indexes.congr {r : FileRow} (h : Indexes E db r m) (hkeywords : db'.keywords = db.keywords)
    (hfields : db'.fields = db.fields) (hsearch : db'.search = db.search) : Indexes E db' r m where
  numbered := h.numbered
  normal := h.normal
  dumped := h.dumped
  title := h.title
  rating := h.rating
  color := h.color
  keywords := hkeywords ▸ h.keywords
  fields := hfields ▸ h.fields
  search := hsearch ▸ h.search

/-- A raised revision leaves the annotation of a row. -/
theorem Indexes.raise {r : FileRow} (h : Indexes E db r m) : Indexes E db r.raise m :=
  ⟨h.numbered, h.normal, h.dumped, h.title, h.rating, h.color, h.keywords, h.fields, h.search⟩

/-- Tables with the same files and side tables are indexed together. -/
theorem Indexed.congr (h : Indexed E db) (hfiles : db'.files = db.files)
    (hkeywords : db'.keywords = db.keywords) (hfields : db'.fields = db.fields)
    (hsearch : db'.search = db.search) : Indexed E db' := by
  intro r hr
  rw [hfiles] at hr
  obtain ⟨m, hm⟩ := h r hr
  exact ⟨m, hm.congr hkeywords hfields hsearch⟩

/-! ## Transactions -/

/-- What a transaction does before it counts itself. -/
structure Transacts (E : CatalogLibraries) (db db' : CatalogTables) : Prop where
  catalogId : db'.catalogId = db.catalogId
  revision : db'.revision = db.revision
  indexed : Indexed E db → Indexed E db'

namespace Transacts

/-- A transaction that changes nothing is one of those described. -/
theorem refl (db : CatalogTables) : Transacts E db db := ⟨rfl, rfl, id⟩

/-- Transactions compose. -/
theorem trans {db'' : CatalogTables} (h : Transacts E db db') (h' : Transacts E db' db'') :
    Transacts E db db'' :=
  ⟨h'.catalogId.trans h.catalogId, h'.revision.trans h.revision, h'.indexed ∘ h.indexed⟩

/-- Restoring collections touches no side table. -/
theorem restores (h : Restores db db') : Transacts E db db' := by
  obtain ⟨collections, rfl, -⟩ := h
  exact ⟨rfl, rfl, fun hdb => hdb.congr rfl rfl rfl rfl⟩

/-- Annotating a file that is made ready writes side tables that agree with its row. -/
theorem annotates (hmid : Readies db mid id place) (hm : Normal E m)
    (h : annotations E mid id place m = .ok db') : Transacts E db db' :=
  have hwrites := annotations_writes h
  ⟨hwrites.catalogId.trans hmid.catalogId, hwrites.revision.trans hmid.revision,
    fun hdb => hdb.annotates hmid hm h⟩

/-- Raising revisions touches no side table. -/
theorem raises {ids : List Nat} (h : db.raiseRevisions ids = .ok db') : Transacts E db db' := by
  simp only [CatalogTables.raiseRevisions, bind_ok, failIf_ok, pure_ok] at h
  obtain ⟨_, -, rfl⟩ := h
  refine ⟨rfl, rfl, fun hdb r hr => ?_⟩
  obtain ⟨row, hrow, rfl⟩ : ∃ row ∈ db.files, (if row.id ∈ ids then row.raise else row) = r :=
    List.mem_map.1 hr
  obtain ⟨m, hm⟩ := hdb row hrow
  split
  · exact ⟨m, hm.raise.congr rfl rfl rfl⟩
  · exact ⟨m, hm.congr rfl rfl rfl⟩

/-- Queueing touches no side table. -/
theorem queue {ids : List Nat} (h : db.queue ids = .ok db') : Transacts E db db' := by
  rw [CatalogTables.queue_ok h]
  exact ⟨rfl, rfl, fun hdb => hdb.congr rfl rfl rfl rfl⟩

/-- A new collection touches no side table. -/
theorem insertCollection {row : CollectionRow} (h : db.insertCollection row = .ok db') :
    Transacts E db db' := by
  obtain ⟨collections, -, rfl⟩ := CatalogTables.insertCollection_ok h
  exact ⟨rfl, rfl, fun hdb => hdb.congr rfl rfl rfl rfl⟩

/-- A renamed collection touches no side table: what is searched of it is written when its files are
annotated. -/
theorem updateCollection {row : CollectionRow} (h : db.updateCollection row = .ok db') :
    Transacts E db db' := by
  simp only [CatalogTables.updateCollection, bind_ok, orFail_ok, pure_ok] at h
  obtain ⟨_, -, collections, -, _, -, rfl⟩ := h
  exact ⟨rfl, rfl, fun hdb => hdb.congr rfl rfl rfl rfl⟩

/-- A removed collection takes its memberships along, which are in no side table. -/
theorem removeCollection {key : Bytes} (h : db.removeCollection key = .ok db') :
    Transacts E db db' := by
  simp only [CatalogTables.removeCollection, bind_ok, pure_ok] at h
  obtain ⟨_, -, _, -, rfl⟩ := h
  exact ⟨rfl, rfl, fun hdb => hdb.congr rfl rfl rfl rfl⟩

end Transacts

/-! ## Registrations -/

/-- The metadata of a new file are normal. -/
theorem initial_normal : Normal E .initial := by
  have hempty : ∀ maximum, normalized E [] maximum false false = .ok [] := by
    intro maximum
    simp only [normalized, bind_ok, failIf_ok, orFail_ok, pure_ok]
    exact ⟨(), by simp, [], E.unicode.map_ascii [] (by simp), (), by simp, (), by simp, rfl⟩
  exact ⟨Nat.zero_le 5, hempty 4096, hempty (64 * 1024), rfl, rfl⟩

/-- The metadata that come with restored collections are normal. -/
theorem restoreCollections_normal {j : Companion} (h : restoreCollections E db j = .ok (m, db')) :
    Normal E m := by
  simp only [restoreCollections, bind_ok, pure_ok, Prod.exists, Prod.mk.injEq] at h
  obtain ⟨_, _, -, _, -, n, hn, rfl, -⟩ := h
  exact (normalizeMetadata_normal hn).1

/-- What is read from a row has been normalised again, so it is normal. -/
theorem entry_normal {row : FileRow} {f : CatalogFile} (h : entry E db row = .ok f) :
    Normal E f.metadata := by
  obtain ⟨j, m, -, hm, rfl⟩ := entry_ok h
  obtain ⟨n, hn⟩ := parseMetadata_normalized hm
  obtain ⟨hnormal, -⟩ := normalizeMetadata_normal hn
  exact ⟨hnormal.rating, hnormal.title, hnormal.description, hnormal.keywords, hnormal.fields⟩

/-- The metadata of a refreshed file are normal, from the companion as from the row. What is taken
over is normalised before it is proposed, and what the row has was normalised when it was written.
-/
theorem refreshed_normal {relative : Bytes} {f : CatalogFile} {explicit : Option FileMetadata}
    {p : Proposal} (hf : Normal E f.metadata) (h : refreshed E fs db relative f explicit = .ok p) :
    Normal E p.metadata := by
  unfold refreshed at h
  split at h
  · simp only [bind_ok, pure_ok] at h
    obtain ⟨n, hn, rfl⟩ := h
    exact (normalizeMetadata_normal hn).1
  · rw [bind_ok] at h
    obtain ⟨found, -, h⟩ := h
    split at h
    · rw [pure_ok] at h
      subst h
      exact hf
    · split at h
      · simp only [bind_ok, pure_ok, Prod.exists] at h
        obtain ⟨n, d, hrestore, rfl⟩ := h
        exact restoreCollections_normal hrestore
      · rw [pure_ok] at h
        subst h
        exact hf

/-- The metadata of an adopted file are normal. They are given and then normalised, or the
companion's, or those of a file without a classification. -/
theorem adopted_normal {relative : Bytes} {explicit : Option FileMetadata} {draws : KeyDraws}
    {p : Proposal} (h : adopted E fs db relative explicit draws = .ok p) : Normal E p.metadata := by
  unfold adopted at h
  split at h
  · simp only [bind_ok, pure_ok] at h
    obtain ⟨n, hn, rfl⟩ := h
    exact (normalizeMetadata_normal hn).1
  · rw [bind_ok] at h
    obtain ⟨found, -, h⟩ := h
    split at h
    · rw [pure_ok] at h
      subst h
      exact initial_normal
    · simp only [bind_ok, Prod.exists] at h
      obtain ⟨n, d, hrestore, h⟩ := h
      have hn := restoreCollections_normal hrestore
      split at h
      · rw [pure_ok] at h
        subst h
        exact hn
      · rw [pure_ok] at h
        subst h
        exact hn

/-- Updating its row makes a file ready for its annotations. -/
theorem Readies.updateFile {physical : Physical} {revision : Nat} {r : FileRow} (hr : r ∈ db.files)
    (h : db.updateFile physical revision place r.id = .ok mid) : Readies db mid r.id place := by
  obtain ⟨files, hfiles, rfl⟩ := CatalogTables.updateFile_ok h
  refine ⟨rfl, rfl, fun i hi => ?_, fun row hrow => ?_, .inr ⟨r, hr, rfl⟩, rfl, rfl, rfl⟩
  · exact (UniqueTable.find_modify hfiles i).trans (if_neg hi)
  · have hrow : files.find r.id = some row := hrow
    rw [UniqueTable.find_modify hfiles, if_pos rfl] at hrow
    obtain ⟨r, -, rfl⟩ := Option.map_eq_some_iff.1 hrow
    rfl

/-- Inserting its row makes a file ready for its annotations. -/
theorem Readies.insertFile {physical : Physical} {revision : Nat} {key : Bytes}
    (h : db.insertFile physical revision key place = .ok (id, mid)) : Readies db mid id place := by
  have hpositive : 0 < id := by
    simp only [CatalogTables.insertFile, bind_ok, pure_ok, Prod.mk.injEq] at h
    obtain ⟨_, -, _, -, _, -, _, -, _, -, _, -, rfl, -⟩ := h
    exact Nat.succ_pos _
  obtain ⟨files, hfiles, rfl⟩ := CatalogTables.insertFile_ok h
  have hfind := (UniqueTable.find_insert hfiles).2
  refine ⟨rfl, rfl, fun i hi => ?_, fun row hrow => ?_, .inl hpositive, rfl, rfl, rfl⟩
  · exact (hfind i).trans (if_neg (Ne.symm hi))
  · obtain rfl := Option.some.inj (hrow.symm.trans ((hfind id).trans (if_pos rfl)))
    rfl

/-- Describing a file that is ready keeps the side tables in step. -/
theorem Transacts.described {relative : Bytes} {p : Proposal} {file : CatalogFile} {mutated : Bool}
    (hmid : Readies db mid id relative) (hp : Normal E p.metadata)
    (h : described E mid id relative p = .ok (file, mutated, db')) : Transacts E db db' := by
  simp only [Catalog.described, bind_ok, pure_ok, Prod.mk.injEq] at h
  obtain ⟨d, hannotated, f, -, text, -, -, -, rfl⟩ := h
  exact .annotates hmid hp hannotated

/-- A registration keeps the side tables in step, on each of its ways. It ends with an annotation
where it writes a row, and so the rows beside the file are written with it. -/
theorem Transacts.registration {r : FileRegistration} {draws : KeyDraws} {file : CatalogFile}
    {mutated : Bool} (h : registration E fs db r draws = .ok (file, mutated, db')) :
    Transacts E db db' := by
  simp only [Catalog.registration, bind_ok] at h
  obtain ⟨relative, -, place, -, physical, -, found, hfound, h⟩ := h
  cases found with
  | some f =>
      simp only [bind_ok] at h
      obtain ⟨p, hp, h⟩ := h
      have hrestores := (refreshed_ok hp).1
      split at h
      · cases h
        exact .restores hrestores
      · rw [bind_ok] at h
        obtain ⟨mid, hmid, h⟩ := h
        obtain ⟨own, hown, hentry, -⟩ := registered_ok hfound
        have hnormal := refreshed_normal (entry_normal hentry) hp
        obtain ⟨_, _, -, -, rfl⟩ := entry_ok hentry
        have hown : own ∈ p.tables.files := hrestores.rows.1 ▸ hown
        exact (Transacts.restores hrestores).trans
          (.described (.updateFile hown hmid) hnormal h)
  | none =>
      simp only [bind_ok, Prod.exists] at h
      obtain ⟨p, hp, id, mid, hmid, h⟩ := h
      exact (Transacts.restores (adopted_ok hp).1).trans
        (.described (.insertFile hmid) (adopted_normal hp) h)

/-- A batch keeps them in step, by induction on its entries. -/
theorem Transacts.registerBatch {entries : List (FileRegistration × KeyDraws)} {b b' : Batch}
    (h : entries.foldlM (registerEntry E fs) b = .ok b') : Transacts E b.tables b'.tables := by
  refine foldlM_relates (R := fun a b : Batch => Transacts E a.tables b.tables)
    (fun a => .refl a.tables) .trans ?_ _ h
  intro a e b hab
  obtain ⟨file, mutated, hregistration, -, -⟩ := registerEntry_ok hab
  exact .registration hregistration

/-- A batch in which nothing is written leaves the tables as they are. Each of its entries is
unmutated, and such a registration changes nothing; the induction is on the batch. -/
theorem registerBatch_unmutated {entries : List (FileRegistration × KeyDraws)} {b b' : Batch}
    (hdb : b.tables.References) (h : entries.foldlM (registerEntry E fs) b = .ok b')
    (hmutated : b'.mutated = false) : b'.tables = b.tables := by
  induction entries generalizing b with
  | nil =>
      rw [List.foldlM_nil, pure_ok] at h
      rw [h]
  | cons e entries ih =>
      obtain ⟨mid, hmid, h⟩ := foldlM_cons_ok.1 h
      obtain ⟨file, mutated, hregistration, -, hflag⟩ := registerEntry_ok hmid
      obtain ⟨physical, content, -, -, hregisters⟩ := registration_ok hregistration
      have hrest := ih (hregisters.references hdb) h
      cases mutated with
      | false =>
          have hsame := hregisters.unmutated hdb rfl
          rw [hrest, hsame]
      | true =>
          -- A flag that is raised stays raised.
          have hraised : b'.mutated = true := by
            refine foldlM_preserves (motive := fun b : Batch => b.mutated = true) ?_ _ ?_ h
            · intro a e b ha hab
              obtain ⟨_, _, -, -, hflag⟩ := registerEntry_ok hab
              rw [hflag, ha, Bool.true_or]
            · rw [hflag, Bool.or_true]
          rw [hraised] at hmutated
          cases hmutated

/-! ## Steps -/

/-- What a search reads of the tables is the same. -/
structure SameListing (db db' : CatalogTables) : Prop where
  catalogId : db'.catalogId = db.catalogId
  revision : db'.revision = db.revision
  files : db'.files = db.files
  keywords : db'.keywords = db.keywords
  fields : db'.fields = db.fields
  members : db'.members = db.members
  search : db'.search = db.search

/-- Tables list the same as themselves. -/
theorem SameListing.refl (db : CatalogTables) : SameListing db db :=
  ⟨rfl, rfl, rfl, rfl, rfl, rfl, rfl⟩

/-- Listing the same is transitive. -/
theorem SameListing.trans {db'' : CatalogTables} (h : SameListing db db')
    (h' : SameListing db' db'') : SameListing db db'' :=
  ⟨h'.catalogId.trans h.catalogId, h'.revision.trans h.revision, h'.files.trans h.files,
    h'.keywords.trans h.keywords, h'.fields.trans h.fields, h'.members.trans h.members,
    h'.search.trans h.search⟩

/-- A transaction that counts itself. -/
def Counts (E : CatalogLibraries) (db db' : CatalogTables) : Prop :=
  ∃ mid, Transacts E db mid ∧ db' = { mid with revision := mid.revision + 1 }

/-- A transaction that ends by raising the catalog's revision is counted. -/
theorem Counts.bump (h : Transacts E db mid) (hbump : mid.bump = .ok db') : Counts E db db' :=
  ⟨mid, h, CatalogTables.bump_ok hbump⟩

/-- Storing a filter is counted. -/
theorem Counts.stores (h : Stores db db') : Counts E db db' := by
  obtain ⟨savedFilters, rfl⟩ := h
  exact ⟨{ db with savedFilters }, ⟨rfl, rfl, fun hdb => hdb.congr rfl rfl rfl rfl⟩, rfl⟩

/-- A registration within a transaction is counted. -/
theorem Counts.register {relative : Bytes} {metadata : FileMetadata} {draws : KeyDraws}
    {f : CatalogFile} (hmid : Transacts E db mid)
    (h : register E fs mid relative metadata draws = .ok (f, db')) : Counts E db db' := by
  simp only [Catalog.register, bind_ok, pure_ok, Prod.exists, Prod.mk.injEq] at h
  obtain ⟨file, mutated, d, hregistration, d', hbump, -, rfl⟩ := h
  exact .bump (hmid.trans (.registration hregistration)) hbump

/-- An update of metadata is counted. -/
theorem Counts.update {key : Bytes} {expected : Nat} {input metadata : FileMetadata}
    (hmetadata : normalizeMetadata E input = .ok metadata)
    (h : update E fs db key expected metadata = .ok db') : Counts E db db' := by
  simp only [Catalog.update, bind_ok] at h
  obtain ⟨file, hfile, _, -, place, -, physical, -, _, -, raised, hraised, mid, hmid, f, -, doc, -,
    hbump⟩ := h
  obtain ⟨row, hrow, -, hentry⟩ := require_ok hfile
  obtain ⟨_, _, -, -, rfl⟩ := entry_ok hentry
  have hraise := raiseRevisions_row hraised hrow (List.mem_singleton_self _)
  have hready : Readies raised raised row.id row.path := by
    refine ⟨rfl, rfl, fun _ _ => rfl, fun r hr => ?_, .inr ⟨row.raise, ?_, rfl⟩, rfl, rfl, rfl⟩
    · obtain rfl := Option.some.inj (hr.symm.trans hraise)
      rfl
    · exact (UniqueTable.find_eq_some.1 hraise).1
  have hnormal := (normalizeMetadata_normal hmetadata).1
  exact .bump ((Transacts.raises hraised).trans (.annotates hready hnormal hmid)) hbump

/-- **Every step counts itself, or leaves what a search reads as it is.** A transaction that commits
a change ends with the statement that raises the revision of the catalog; only the queue changes
without it. -/
theorem Step.counts {c c' : Catalog} {e : Event} (h : Step E c e c')
    (hdb : c.tables.References) : SameListing c.tables c'.tables ∨ Counts E c.tables c'.tables := by
  cases h with
  | register h =>
      obtain ⟨batch, hbatch, -, ⟨-, hbump⟩ | ⟨hmutated, rfl⟩⟩ := registerBatch_ok h
      · exact .inr (.bump (.registerBatch hbatch) hbump)
      · rw [registerBatch_unmutated hdb hbatch hmutated]
        exact .inl (.refl _)
  | @create _ _ _ _ _ _ _ _ inherited _ _ _ _ _ _ hprepared hregister =>
      obtain ⟨-, -, -, hinherit⟩ := prepared_ok hprepared
      refine .inr (.register ?_ hregister)
      cases inherited with
      | none =>
          cases hinherit
          exact .refl _
      | some j => exact .restores (restoreCollections_ok hinherit).1
  | update hmetadata h => exact .inr (.update hmetadata h)
  | createCollection _ h =>
      simp only [addCollection, bind_ok, pure_ok, Prod.mk.injEq] at h
      obtain ⟨_, -, folded, -, mid, hmid, bumped, hbump, -, rfl⟩ := h
      exact .inr (.bump (.insertCollection hmid) hbump)
  | renameCollection _ h =>
      simp only [rename, bind_ok] at h
      obtain ⟨folded, -, renamed, hrenamed, raised, hraised, queued, hqueued, _, -, hbump⟩ := h
      exact .inr (.bump (((Transacts.updateCollection hrenamed).trans (.raises hraised)).trans
        (.queue hqueued)) hbump)
  | removeCollection h =>
      simp only [dissolve, bind_ok] at h
      obtain ⟨raised, hraised, queued, hqueued, removed, hremoved, hbump⟩ := h
      exact .inr (.bump (((Transacts.raises hraised).trans (.queue hqueued)).trans
        (.removeCollection hremoved)) hbump)
  | saveFilter h => exact .inr (.stores (storeFilter_ok h))
  | removeFilter h => exact .inr (.stores (dropFilter_ok h))
  | publish => exact .inl ⟨rfl, rfl, rfl, rfl, rfl, rfl, rfl⟩
  | interrupted => exact .inl (.refl _)
  | unindexed => exact .inl (.refl _)
  | directory => exact .inl (.refl _)
  | staged => exact .inl (.refl _)
  | present =>
      rw [prepare_tables]
      exact .inl (.refl _)
  | outside => exact .inl (.refl _)

/-- Later tables are of the same catalog; their revision is not lower, and where it is the same,
so is what a search reads. -/
structure Follows (db db' : CatalogTables) : Prop where
  catalogId : db'.catalogId = db.catalogId
  revision : db.revision ≤ db'.revision
  same : db'.revision = db.revision → SameListing db db'

namespace Follows

/-- Tables follow themselves. -/
theorem refl (db : CatalogTables) : Follows db db := ⟨rfl, le_rfl, fun _ => .refl db⟩

/-- Following is transitive: counters only go up. -/
theorem trans {db'' : CatalogTables} (h : Follows db db') (h' : Follows db' db'') :
    Follows db db'' where
  catalogId := h'.catalogId.trans h.catalogId
  revision := h.revision.trans h'.revision
  same heq := by
    have hfirst : db'.revision = db.revision :=
      le_antisymm (h'.revision.trans heq.le) h.revision
    exact (h.same hfirst).trans (h'.same (heq.trans hfirst.symm))

/-- What is counted is followed. -/
theorem of_counts (h : Counts E db db') : Follows db db' := by
  obtain ⟨mid, hmid, rfl⟩ := h
  have hlt : db.revision < mid.revision + 1 := Nat.lt_succ_of_le hmid.revision.ge
  exact ⟨hmid.catalogId, hlt.le, fun heq => absurd heq hlt.ne'⟩

/-- Tables that list the same follow. -/
theorem of_same (h : SameListing db db') : Follows db db' :=
  ⟨h.catalogId, h.revision.ge, fun _ => h⟩

end Follows

/-- After each step of a catalog the tables follow those before, so a reader who knows the counters
knows whether to read again. -/
theorem Step.follows {c c' : Catalog} {e : Event} (h : Step E c e c')
    (hdb : c.tables.References) : Follows c.tables c'.tables :=
  (h.counts hdb).elim .of_same .of_counts

/-- Each step of a catalog keeps the side tables in agreement with the rows. -/
theorem Indexed.step {c c' : Catalog} {e : Event} (hc : Indexed E c.tables)
    (hdb : c.tables.References) (h : Step E c e c') : Indexed E c'.tables := by
  rcases h.counts hdb with hsame | ⟨mid, hmid, hcounted⟩
  · exact hc.congr hsame.files hsame.keywords hsame.fields hsame.search
  · rw [hcounted]
    exact (hmid.indexed hc).congr rfl rfl rfl rfl

/-- **What stands beside the files of a reachable catalog is what their annotations say.** The
references of the tables are part of the invariant, as a removed annotation must not leave rows
behind. -/
theorem Indexed.reached {allowed : FileSystem → FileSystem → Prop} {c : Catalog}
    (h : Reached E allowed c) : Indexed E c.tables := by
  have hboth : c.tables.References ∧ Indexed E c.tables := by
    refine h.invariant (I := fun c => c.tables.References ∧ Indexed E c.tables) ?_ ?_
    · exact fun id fs => ⟨fun m hm => (by cases hm), fun r hr => (by cases hr)⟩
    · exact fun hc hstep _ => ⟨(hstep.moves hc.1).1, hc.2.step hc.1 hstep⟩
  exact hboth.2

end Catalog

end FileProvider
