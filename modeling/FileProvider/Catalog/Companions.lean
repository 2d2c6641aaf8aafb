import FileProvider.Catalog.Reference
import FileProvider.Catalog.System

/-!
# Companions in step with the catalog

The document of a file depends on its row, its memberships and the names of their collections.
`Keeps` says that this is as it was for every file that is not pending: each transaction keeps it,
those that rename or remove a collection because they queue its members. So a companion that is not
pending on disk stays the document of its file, also where a publication is cut after the companion
is replaced and before its entry is removed.

`Commits` says what a transaction does to the tables with respect to documents, and there is one
lemma for each transaction. `Synchronised` is the invariant of the catalogs that are reached; the
steps of others may do anything but write companions.
-/

namespace FileProvider

open Bytes Fallible

namespace Catalog

variable {E : CatalogLibraries} {fs : FileSystem} {db db' : CatalogTables}

/-! ## Documents of rows -/

/-- The document of a row. -/
def documentOf (E : CatalogLibraries) (db : CatalogTables) (r : FileRow) : Fallible Bytes := do
  document E db (← entry E db r)

/-- A list of collections depends on the rows of these collections alone. -/
theorem listedCollections_congr {keys : List Bytes}
    (h : ∀ key ∈ keys, db'.collections.find key = db.collections.find key) :
    listedCollections db' keys = listedCollections db keys := by
  refine List.filterMap_congr fun key hkey => ?_
  rw [h key hkey]

/-- A document depends on the memberships of the row and on their collections. -/
theorem documentOf_congr {r : FileRow} (hmembers : db'.memberships r.id = db.memberships r.id)
    (hnames : ∀ key ∈ db.memberships r.id, db'.collections.find key = db.collections.find key) :
    documentOf E db' r = documentOf E db r := by
  have hlisted := listedCollections_congr hnames
  simp only [documentOf, entry, bind_assoc, pure_bind]
  refine congrArg _ (funext fun j => congrArg _ (funext fun m => ?_))
  simp only [document, documentJson, hmembers, hlisted]

/-! ## Tables that keep documents -/

/-- Every file that is not pending was not pending, with the same row, memberships and
collections. -/
def Keeps (db db' : CatalogTables) : Prop :=
  ∀ i r, db'.files.find i = some r → ¬ db'.Pending i → db.files.find i = some r ∧
    ¬ db.Pending i ∧ db'.memberships i = db.memberships i ∧
    ∀ key ∈ db.memberships i, db'.collections.find key = db.collections.find key

namespace Keeps

/-- Tables keep the documents they have. -/
theorem refl (db : CatalogTables) : Keeps db db :=
  fun _ _ hr hnot => ⟨hr, hnot, rfl, fun _ _ => rfl⟩

/-- Keeping documents is transitive. -/
theorem trans {db'' : CatalogTables} (h : Keeps db db') (h' : Keeps db' db'') :
    Keeps db db'' := by
  intro i r hr hnot
  obtain ⟨hr', hnot', hmembers', hnames'⟩ := h' i r hr hnot
  obtain ⟨hr'', hnot'', hmembers, hnames⟩ := h i r hr' hnot'
  refine ⟨hr'', hnot'', hmembers'.trans hmembers, fun key hkey => ?_⟩
  exact (hnames' key (hmembers ▸ hkey)).trans (hnames key hkey)

/-- What touches pending files only keeps the documents of the others. -/
theorem of_leaves (hdb : db.References) (h : db.Leaves db'.Pending db') : Keeps db db' := by
  intro i r hr hnot
  refine ⟨(h.files i hnot).symm.trans hr, ?_, h.memberships i hnot, fun key hkey => ?_⟩
  · unfold CatalogTables.Pending at hnot ⊢
    rwa [← h.pending i hnot]
  · obtain ⟨row, hrow⟩ := Option.ne_none_iff_exists'.1
      (hdb ⟨i, key⟩ (CatalogTables.mem_memberships.1 hkey))
    have hrow : db.collections.find key = some row := hrow
    rw [hrow, h.collections key row hrow]

/-- A file that does not wait for its companion has the row and the document that it had before. -/
theorem document (h : Keeps db db') {r : FileRow} (hr : r ∈ db'.files)
    (hnot : ¬ db'.Pending r.id) : r ∈ db.files ∧ ¬ db.Pending r.id ∧
      documentOf E db' r = documentOf E db r := by
  obtain ⟨hr', hnot', hmembers, hnames⟩ := h r.id r (UniqueTable.mem_iff_find.1 hr) hnot
  exact ⟨UniqueTable.mem_iff_find.2 hr', hnot', documentOf_congr hmembers hnames⟩

end Keeps

/-- What a transaction does to the tables. -/
def Commits (db db' : CatalogTables) : Prop :=
  db.References → db'.References ∧ Keeps db db'

namespace Commits

/-- A commit of nothing keeps the documents. -/
theorem refl (db : CatalogTables) : Commits db db := fun hdb => ⟨hdb, .refl db⟩

/-- Commits compose. -/
theorem trans {db'' : CatalogTables} (h : Commits db db') (h' : Commits db' db'') :
    Commits db db'' := by
  intro hdb
  obtain ⟨hdb', hkeeps⟩ := h hdb
  obtain ⟨hdb'', hkeeps'⟩ := h' hdb'
  exact ⟨hdb'', hkeeps.trans hkeeps'⟩

/-- Raising the catalog's revision keeps the documents: they do not show it. -/
theorem bump (h : db.bump = .ok db') : Commits db db' := by
  intro hdb
  refine ⟨?_, .of_leaves hdb (.bump h)⟩
  rw [CatalogTables.bump_ok h]
  exact hdb

/-- Restoring collections keeps the documents of the files that do not wait. -/
theorem restores (h : Restores db db') : Commits db db' :=
  fun hdb => ⟨h.references hdb, .of_leaves hdb h.leaves⟩

end Commits

/-! ## Each transaction -/

/-- A registration keeps the documents of the files that do not wait after it. -/
theorem registration_commits {r : FileRegistration} {draws : KeyDraws} {file : CatalogFile}
    {mutated : Bool} (h : registration E fs db r draws = .ok (file, mutated, db')) :
    Commits db db' := by
  obtain ⟨physical, content, -, -, hregisters⟩ := registration_ok h
  exact fun hdb => ⟨hregisters.references hdb, .of_leaves hdb hregisters.queues⟩

/-- A batch of registrations keeps them, by induction on its entries. -/
theorem registerBatch_commits {entries : List FileRegistration} {draws : Nat → KeyDraws}
    {files : List CatalogFile} (h : registerBatch E fs db entries draws = .ok (files, db')) :
    Commits db db' := by
  simp only [registerBatch, bind_ok] at h
  obtain ⟨batch, hbatch, h⟩ := h
  have hfold : Commits db batch.tables := by
    refine foldlM_relates (R := fun a b : Batch => Commits a.tables b.tables)
      (fun a => .refl a.tables) .trans ?_ _ hbatch
    intro a e b hab
    simp only [registerEntry, bind_ok, pure_ok, Prod.exists] at hab
    obtain ⟨file, mutated, tables, hregistration, _, -, rfl⟩ := hab
    exact registration_commits hregistration
  split at h
  · simp only [bind_ok, pure_ok, Prod.mk.injEq] at h
    obtain ⟨bumped, hbump, -, rfl⟩ := h
    exact hfold.trans (.bump hbump)
  · simp only [pure_bind, pure_ok, Prod.mk.injEq] at h
    rw [← h.2]
    exact hfold

/-- The registration of a single file keeps them. -/
theorem register_commits {relative : Bytes} {metadata : FileMetadata} {draws : KeyDraws}
    {f : CatalogFile} (h : register E fs db relative metadata draws = .ok (f, db')) :
    Commits db db' := by
  simp only [register, bind_ok, pure_ok, Prod.exists, Prod.mk.injEq] at h
  obtain ⟨file, mutated, d, hregistration, d', hbump, -, rfl⟩ := h
  exact (registration_commits hregistration).trans (.bump hbump)

/-- Inheriting a companion's collections keeps them. -/
theorem inherit_commits {inherited : Option Companion} {m metadata : FileMetadata}
    (h : inherit E db inherited m = .ok (metadata, db')) : Commits db db' := by
  unfold inherit at h
  split at h
  · cases h
    exact .refl db
  · exact .restores (restoreCollections_ok h).1

/-- What an update did before its last statement. -/
theorem update_ok {key : Bytes} {expected : Nat} {metadata : FileMetadata}
    (h : update E fs db key expected metadata = .ok db') :
    ∃ file physical raised text mid, require E db key = .ok file ∧ file.revision = expected ∧
      path E fs file.path = .ok file.path ∧ inspect fs file.path = .ok physical ∧
      physical.version = file.contentVersion ∧ db.raiseRevisions [file.index] = .ok raised ∧
      Annotated E raised file.index metadata text mid ∧
      (∃ f doc, require E mid key = .ok f ∧ document E mid f = .ok doc ∧
        doc.length ≤ maximumMetadataBytes) ∧ mid.bump = .ok db' := by
  simp only [update, bind_ok, failIf_ok, not_not] at h
  obtain ⟨file, hfile, _, hrevision, place, hplace, physical, hphysical, _, hversion,
    raised, hraised,
    mid, hmid, f, hf, doc, hdoc, hbump⟩ := h
  obtain ⟨rfl, -⟩ := path_ok hplace
  obtain ⟨text, hannotated⟩ := annotations_ok hmid
  exact ⟨file, physical, raised, text, mid, hfile, hrevision, hplace, hphysical, hversion, hraised,
    hannotated, ⟨f, doc, hf, limitedDocument_ok.1 hdoc⟩, hbump⟩

/-- An update of metadata keeps them: the file it changes waits. -/
theorem update_commits {key : Bytes} {expected : Nat} {metadata : FileMetadata}
    (h : update E fs db key expected metadata = .ok db') : Commits db db' := by
  obtain ⟨file, physical, raised, text, mid, -, -, -, -, -, hraised, hannotated, -, hbump⟩ :=
    update_ok h
  refine Commits.trans (fun hdb => ?_) (.bump hbump)
  have hleaves : db.Leaves (· = file.index) raised :=
    (CatalogTables.Leaves.raiseRevisions hraised).mono fun i hi => List.mem_singleton.1 hi
  refine ⟨hannotated.references ?_, .of_leaves hdb ?_⟩
  · obtain ⟨files, -, rfl⟩ := CatalogTables.raiseRevisions_ok hraised
    exact hdb
  · exact (hleaves.trans hannotated.leaves).mono fun i hi => hi ▸ hannotated.queued

/-- A new collection keeps them, as no file belongs to it yet. -/
theorem addCollection_commits {name : Bytes} {random : Fin 16 → UInt8}
    {collection : FileCollection} (h : addCollection E db name random = .ok (collection, db')) :
    Commits db db' := by
  simp only [addCollection, bind_ok, pure_ok, Prod.mk.injEq] at h
  obtain ⟨_, -, folded, -, mid, hmid, bumped, hbump, -, rfl⟩ := h
  refine Commits.trans (fun hdb => ?_) (.bump hbump)
  have hleaves : db.Leaves mid.Pending mid := .insertCollection hmid
  refine ⟨?_, .of_leaves hdb hleaves⟩
  obtain ⟨collections, -, rfl⟩ := CatalogTables.insertCollection_ok hmid
  intro m hm hnone
  obtain ⟨row, hrow⟩ := Option.ne_none_iff_exists'.1 (hdb m hm)
  have hrow' := hleaves.collections m.collectionKey row hrow
  rw [hnone] at hrow'
  cases hrow'

/-! ## Renaming and removing a collection -/

/-- The members of a collection are the files with a membership in it. -/
theorem mem_membersOf {key : Bytes} {i : Nat} :
    i ∈ db.membersOf key ↔ key ∈ db.memberships i := by
  rw [CatalogTables.mem_memberships]
  simp only [CatalogTables.membersOf, List.mem_map, List.mem_filter, decide_eq_true_eq]
  constructor
  · rintro ⟨m, ⟨hm, rfl⟩, rfl⟩
    exact hm
  · intro hm
    exact ⟨_, ⟨hm, rfl⟩, rfl⟩

/-- The members of a collection are queued with their revisions raised. -/
structure Raises (key : Bytes) (db db' : CatalogTables) : Prop where
  leaves : db.Leaves (· ∈ db.membersOf key) db'
  queued : ∀ i ∈ db.membersOf key, db'.Pending i
  members : db'.members = db.members
  collections : db'.collections = db.collections

/-- Raising and queueing the members of a collection leaves the other files. -/
theorem raises {key : Bytes} {mid : CatalogTables}
    (hraise : db.raiseRevisions (db.membersOf key) = .ok mid)
    (hqueue : mid.queue (mid.membersOf key) = .ok db') : Raises key db db' := by
  have hmembersOf : mid.membersOf key = db.membersOf key := by
    obtain ⟨files, -, rfl⟩ := CatalogTables.raiseRevisions_ok hraise
    rfl
  rw [hmembersOf] at hqueue
  have hleaves := (CatalogTables.Leaves.raiseRevisions hraise).trans (.queue hqueue)
  obtain ⟨files, -, rfl⟩ := CatalogTables.raiseRevisions_ok hraise
  rw [CatalogTables.queue_ok hqueue] at hleaves ⊢
  refine ⟨hleaves, fun i hi => ?_, rfl, rfl⟩
  unfold CatalogTables.Pending
  rw [CatalogTables.find_foldl_orInsert, if_pos hi]
  cases db.pending.find i <;> simp

/-- A file that is not pending afterwards is no member of the collection. -/
theorem Raises.keeps {key : Bytes} (h : Raises key db db') {i : Nat} {r : FileRow}
    (hr : db'.files.find i = some r) (hnot : ¬ db'.Pending i) :
    db.files.find i = some r ∧ ¬ db.Pending i ∧ db'.memberships i = db.memberships i ∧
      key ∉ db.memberships i := by
  have hno : i ∉ db.membersOf key := fun hi => hnot (h.queued i hi)
  refine ⟨(h.leaves.files i hno).symm.trans hr, ?_, h.leaves.memberships i hno,
    fun hkey => hno (mem_membersOf.2 hkey)⟩
  unfold CatalogTables.Pending at hnot ⊢
  rwa [← h.leaves.pending i hno]

/-- Renaming a collection keeps the documents of the files that do not wait: its members do. The
members' documents show the name, so these files are queued in the same transaction. -/
theorem rename_commits {key name : Bytes} (h : rename E db key name = .ok db') :
    Commits db db' := by
  simp only [rename, bind_ok] at h
  obtain ⟨folded, -, renamed, hrenamed, raised, hraised, queued, hqueued, _, -, hbump⟩ := h
  refine Commits.trans (fun hdb => ?_) (.bump hbump)
  have hraises := raises hraised hqueued
  simp only [CatalogTables.updateCollection, bind_ok, orFail_ok, pure_ok] at hrenamed
  obtain ⟨_, -, collections, hcollections, _, -, rfl⟩ := hrenamed
  have hfind := UniqueTable.find_modify hcollections
  constructor
  · intro m hm
    rw [hraises.members] at hm
    rw [hraises.collections]
    show collections.find _ ≠ none
    rw [hfind]
    split
    · rw [ne_eq, Option.map_eq_none_iff]
      exact hdb m hm
    · exact hdb m hm
  · intro i r hr hnot
    obtain ⟨hr', hnot', hmembers, hkey⟩ := hraises.keeps hr hnot
    refine ⟨hr', hnot', hmembers, fun other hother => ?_⟩
    rw [hraises.collections]
    refine (hfind other).trans (if_neg ?_)
    rintro rfl
    exact hkey hother

/-- Dissolving a collection keeps them for the same reason. The documents of the members lose the
collection, so these files are queued; what is left of the memberships is that of the others. -/
theorem dissolve_commits {key : Bytes} (h : dissolve db key = .ok db') : Commits db db' := by
  simp only [dissolve, bind_ok] at h
  obtain ⟨raised, hraised, queued, hqueued, removed, hremoved, hbump⟩ := h
  refine Commits.trans (fun hdb => ?_) (.bump hbump)
  have hraises := raises hraised hqueued
  simp only [CatalogTables.removeCollection, bind_ok, pure_ok] at hremoved
  obtain ⟨_, -, _, -, rfl⟩ := hremoved
  constructor
  · intro m hm
    obtain ⟨hm, hne⟩ := Table.mem_filter.1 hm
    show (queued.collections.erase key).find m.collectionKey ≠ none
    rw [UniqueTable.find_erase, if_neg (of_decide_eq_true hne), hraises.collections]
    exact hdb m (hraises.members ▸ hm)
  · intro i r hr hnot
    obtain ⟨hr', hnot', hmembers, hkey⟩ := hraises.keeps hr hnot
    refine ⟨hr', hnot', ?_, fun other hother => ?_⟩
    · refine Eq.trans (CatalogTables.memberships_congr ?_) hmembers
      show (queued.members.rows.filter _).filter _ = _
      rw [List.filter_filter]
      refine List.filter_congr fun m hm => ?_
      by_cases hi : m.fileId = i
      · have hother : m.collectionKey ≠ key := by
          rintro rfl
          refine hkey (CatalogTables.mem_memberships.2 ?_)
          rw [← hi, ← hraises.members]
          exact hm
        simp [hi, hother]
      · simp [hi]
    · show (queued.collections.erase key).find other = _
      rw [UniqueTable.find_erase, if_neg ?_, hraises.collections]
      rintro rfl
      exact hkey hother

/-! ## Saved filters -/

/-- Tables that differ in the saved filters, and in the revision of the catalog. -/
def Stores (db db' : CatalogTables) : Prop :=
  ∃ savedFilters, db' = { db with savedFilters, revision := db.revision + 1 }

/-- Storing a filter changes filters alone. -/
theorem storeFilter_ok {name : Bytes} {filter : FileFilter} {random : Fin 16 → UInt8}
    {saved : SavedFileFilter} (h : storeFilter E db name filter random = .ok (saved, db')) :
    Stores db db' := by
  simp only [storeFilter, bind_ok, pure_ok, Prod.mk.injEq] at h
  obtain ⟨_, -, _, -, _, -, stored, hstored, bumped, hbump, -, rfl⟩ := h
  simp only [CatalogTables.upsertFilter, bind_ok, pure_ok] at hstored
  obtain ⟨_, -, savedFilters, -, rfl⟩ := hstored
  exact ⟨savedFilters, CatalogTables.bump_ok hbump⟩

/-- Dropping a filter changes filters alone. -/
theorem dropFilter_ok {key : Bytes} (h : dropFilter E db key = .ok db') : Stores db db' := by
  simp only [dropFilter, bind_ok] at h
  obtain ⟨_, -, dropped, hdropped, hbump⟩ := h
  simp only [CatalogTables.eraseFilter, bind_ok, pure_ok] at hdropped
  obtain ⟨_, -, _, -, rfl⟩ := hdropped
  rw [CatalogTables.bump_ok hbump]
  exact ⟨_, rfl⟩

/-- What changes filters alone keeps the documents. -/
theorem Stores.commits (h : Stores db db') : Commits db db' := by
  obtain ⟨savedFilters, rfl⟩ := h
  exact fun hdb => ⟨hdb, .of_leaves hdb ⟨fun _ _ => rfl, fun _ _ => rfl, fun _ _ => rfl,
    fun _ _ h => h⟩⟩

/-! ## Companions on disk -/

/-- What is under the path of a companion stays there. -/
def KeepsCompanions (fs fs' : FileSystem) : Prop :=
  ∀ p content, fs.content (companionPath p) = some content →
    fs'.content (companionPath p) = some content

/-- Two files have two companions: the name of a companion determines that of its file. -/
theorem companionPath_injective : Function.Injective companionPath :=
  fun _ _ h => List.append_cancel_right h

/-- A managed path is not that of a companion. -/
theorem ne_companionPath {text : Bytes} (h : relativePath E text false = .ok text) (p : Bytes) :
    companionPath p ≠ text := by
  rintro rfl
  obtain ⟨-, hvalid⟩ := relativePath_ok h
  simp only [pathValid, bind_ok, failIf_ok, not_or] at hvalid
  obtain ⟨_, ⟨-, -, -, -, -, hsuffix, -⟩, -⟩ := hvalid
  have hlower : companionSuffix.map lower = companionSuffix := by decide
  refine hsuffix ⟨p.map lower, ?_⟩
  rw [companionPath, List.map_append, hlower]

/-- No companion has the name of a preview. -/
theorem companionPath_ne_previewPath (p q : Bytes) : companionPath p ≠ previewPath q := by
  intro h
  have hlast := congrArg List.getLast? h
  have hcompanion : (companionPath p).getLast? = companionSuffix.getLast? :=
    List.getLast?_append_of_ne_nil _ (by decide)
  have hpreview : (previewPath q).getLast? = previewSuffix.getLast? :=
    List.getLast?_append_of_ne_nil _ (by decide)
  rw [hcompanion, hpreview] at hlast
  revert hlast
  decide

/-- A write under a path of its own keeps the companions. -/
theorem write_keepsCompanions {q : Bytes} {n : Node}
    (h : ∀ p content, fs.content (companionPath p) = some content → companionPath p ≠ q) :
    KeepsCompanions fs (fs.write q n) := by
  intro p content hcontent
  rw [FileSystem.content_write_ne fs n (h p content hcontent)]
  exact hcontent

/-- Where nothing stands there is no companion. -/
theorem ne_of_vacant {q : Bytes} (h : fs.node q = none) (p content : Bytes)
    (hcontent : fs.content (companionPath p) = some content) : companionPath p ≠ q := by
  rintro rfl
  rw [FileSystem.content, h] at hcontent
  cases hcontent

/-- A file placed where no companion stands leaves the companions. -/
theorem place_keepsCompanions {q content : Bytes} {file : NewFile}
    (h : ∀ p, companionPath p ≠ q) : KeepsCompanions fs (fs.place q content file) := by
  have hwrite : KeepsCompanions fs (fs.write q (.file file.physical content)) :=
    write_keepsCompanions fun p _ _ => h p
  intro p text htext
  have htext' := hwrite p text htext
  cases hpreview : file.preview with
  | none =>
      rw [FileSystem.place, hpreview]
      exact htext'
  | some preview =>
      rw [FileSystem.place, hpreview]
      exact write_keepsCompanions (fun p _ _ => companionPath_ne_previewPath p q) p text htext'

/-- What the preparation of a new file has checked and fetched when it succeeds. -/
theorem prepared_ok {c : Catalog} {relative destination content : Bytes}
    {encoded : Fallible Bytes} {inherited : Option Companion} {m metadata : FileMetadata}
    {mid : CatalogTables}
    (h : prepared E c relative encoded inherited m = .ok (destination, content, metadata, mid)) :
    destination = relative ∧ path E c.fs relative = .ok relative ∧ encoded = .ok content ∧
      inherit E c.tables inherited m = .ok (metadata, mid) := by
  simp only [prepared, bind_ok, pure_ok, Prod.exists, Prod.mk.injEq] at h
  obtain ⟨place, hplace, _, -, text, htext, m', d, hinherit, rfl, rfl, rfl, rfl⟩ := h
  obtain ⟨rfl, -⟩ := path_ok hplace
  exact ⟨rfl, hplace, htext, hinherit⟩

/-- Placing the file that was prepared leaves the companions. -/
theorem prepared_keepsCompanions {c : Catalog} {relative destination content : Bytes}
    {encoded : Fallible Bytes} {inherited : Option Companion} {m metadata : FileMetadata}
    {mid : CatalogTables} {file : NewFile}
    (h : prepared E c relative encoded inherited m = .ok (destination, content, metadata, mid)) :
    KeepsCompanions c.fs (c.fs.place destination content file) := by
  obtain ⟨rfl, hpath, -, -⟩ := prepared_ok h
  exact place_keepsCompanions (ne_companionPath (path_ok hpath).2)

/-- Preparing the directories and the preview of a new file leaves the companions. -/
theorem prepare_keepsCompanions (c : Catalog) (relative : Bytes) (presented : Option NewFile) :
    KeepsCompanions c.fs (prepare E c relative presented).fs := by
  unfold prepare
  split
  · next place file hplace =>
      obtain ⟨rfl, hvalid⟩ := path_ok hplace
      split
      · exact place_keepsCompanions (ne_companionPath hvalid)
      · exact fun _ _ h => h
  · exact fun _ _ h => h

/-- Preparing leaves the tables. -/
theorem prepare_tables (c : Catalog) (relative : Bytes) (presented : Option NewFile) :
    (prepare E c relative presented).tables = c.tables := by
  unfold prepare
  split
  · split
    · rfl
    · rfl
  · rfl

/-! ## The invariant -/

/-- The companions of the files that are not pending are the documents of their rows. -/
structure Synchronised (E : CatalogLibraries) (c : Catalog) : Prop where
  references : c.tables.References
  companions : ∀ r ∈ c.tables.files, ¬ c.tables.Pending r.id → ∃ text,
    documentOf E c.tables r = .ok text ∧ c.fs.content (companionPath r.path) = some text

/-- A commit and file operations that leave the companions keep them synchronised. -/
theorem Synchronised.commits {c : Catalog} {fs' : FileSystem} (hc : Synchronised E c)
    (hcommits : Commits c.tables db') (hfs : KeepsCompanions c.fs fs') :
    Synchronised E ⟨fs', db'⟩ := by
  obtain ⟨hreferences, hkeeps⟩ := hcommits hc.references
  refine ⟨hreferences, fun r hr hnot => ?_⟩
  obtain ⟨hr', hnot', hdocument⟩ := hkeeps.document hr hnot
  obtain ⟨text, htext, hcontent⟩ := hc.companions r hr' hnot'
  exact ⟨text, hdocument.trans htext, hfs _ _ hcontent⟩

/-- What a publication found to write is the document of a row. The row was found under the key of
the call, it is queued, and the document is made of its columns and memberships as they are in these
tables. -/
theorem publication_ok {key text : Bytes} {f : CatalogFile}
    (h : publication E fs db key = .ok (some (f, text))) : ∃ r ∈ db.files,
      entry E db r = .ok f ∧ f.path = r.path ∧ f.index = r.id ∧ db.Pending r.id ∧
      documentOf E db r = .ok text := by
  simp only [publication, bind_ok] at h
  obtain ⟨_, -, f', hf', h⟩ := h
  split at h
  · cases h
  · next hpending =>
      simp only [bind_ok] at h
      obtain ⟨place, -, physical, -, _, -, found, -, h⟩ := h
      obtain ⟨r, hr, -, hentry⟩ := require_ok hf'
      have hdone : ∃ doc, limitedDocument E db f' "companion exceeds byte limit" = .ok doc ∧
          f' = f ∧ doc = text := by
        cases found with
        | none =>
            simp only [bind_ok, pure_ok, Option.some.injEq, Prod.mk.injEq] at h
            exact h
        | some previous =>
            simp only [bind_ok, pure_ok, Option.some.injEq, Prod.mk.injEq] at h
            obtain ⟨_, -, h⟩ := h
            exact h
      obtain ⟨doc, hdoc, rfl, rfl⟩ := hdone
      obtain ⟨j, m, -, -, heq⟩ := entry_ok hentry
      refine ⟨r, hr, hentry, by rw [heq], by rw [heq], ?_, ?_⟩
      · rw [heq] at hpending
        unfold CatalogTables.Pending
        simpa using hpending
      · simp only [documentOf, bind_ok]
        exact ⟨f', hentry, (limitedDocument_ok.1 hdoc).1⟩

/-- A companion that is replaced is that of the file that is published. -/
theorem replaceCompanion_content {c : Catalog} {f : CatalogFile} {text p : Bytes}
    {physical : Physical} : (c.replaceCompanion f text physical).fs.content (companionPath p)
      = if p = f.path then some text else c.fs.content (companionPath p) := by
  split
  · next h =>
      rw [h]
      exact FileSystem.content_write_self _ _ _ _
  · next h => exact FileSystem.content_write_ne _ _ fun heq => h (companionPath_injective heq)

/-- A document does not show whether its file waits. -/
theorem dequeue_documentOf (i : Nat) (r : FileRow) :
    documentOf E (db.dequeue i) r = documentOf E db r :=
  have hmembers : (db.dequeue i).memberships r.id = db.memberships r.id := rfl
  documentOf_congr hmembers fun _ _ => rfl

/-- Each step of a catalog keeps the companions synchronised, when others leave them alone. A commit
changes documents only of files that it queues, and a companion is written with the document of its
row before the row is taken from the queue. -/
theorem Synchronised.step {c c' : Catalog} {e : Event} (hc : Synchronised E c)
    (h : Step E c e c')
    (houtside : ∀ before after, e = .outside before after → KeepsCompanions before after) :
    Synchronised E c' := by
  have hsame : ∀ {fs : FileSystem}, KeepsCompanions fs fs := fun _ _ h => h
  cases h with
  | register h => exact hc.commits (registerBatch_commits h) hsame
  | create _ hprepared hregister =>
      obtain ⟨-, -, -, hinherit⟩ := prepared_ok hprepared
      exact hc.commits ((inherit_commits hinherit).trans (register_commits hregister))
        (prepared_keepsCompanions hprepared)
  | update _ h => exact hc.commits (update_commits h) hsame
  | createCollection _ h => exact hc.commits (addCollection_commits h) hsame
  | renameCollection _ h => exact hc.commits (rename_commits h) hsame
  | removeCollection h => exact hc.commits (dissolve_commits h) hsame
  | saveFilter h => exact hc.commits (storeFilter_ok h).commits hsame
  | removeFilter h => exact hc.commits (dropFilter_ok h).commits hsame
  | @publish _ _ text f physical h =>
      obtain ⟨s, hs, -, hpath, hindex, -, hdocument⟩ := publication_ok h
      refine ⟨hc.references, fun r hr hnot => ?_⟩
      show ∃ text', documentOf E (c.tables.dequeue f.index) r = .ok text' ∧
        (c.replaceCompanion f text physical).fs.content (companionPath r.path) = some text'
      rw [dequeue_documentOf, replaceCompanion_content]
      by_cases hrs : r.path = f.path
      · have hsame : r = s :=
          UniqueTable.eq_of_column_eq (c := FileRow.path) (by simp [FileRow.columns]) hr hs
            (hrs.trans hpath)
        rw [hsame]
        exact ⟨text, hdocument, if_pos hpath.symm⟩
      · rw [if_neg hrs]
        refine hc.companions r hr fun hpending => hnot ?_
        refine CatalogTables.pending_dequeue.2 ⟨hpending, fun hid => hrs ?_⟩
        rw [Table.eq_of_key_eq hr hs (hid.trans hindex), hpath]
  | @interrupted _ _ text f physical h =>
      obtain ⟨s, hs, -, hpath, -, hpending, -⟩ := publication_ok h
      refine ⟨hc.references, fun r hr hnot => ?_⟩
      rw [replaceCompanion_content, if_neg]
      · exact hc.companions r hr hnot
      · intro hrs
        have hsame : r = s :=
          UniqueTable.eq_of_column_eq (c := FileRow.path) (by simp [FileRow.columns]) hr hs
            (hrs.trans hpath)
        exact hnot (hsame ▸ hpending)
  | unindexed h => exact hc.commits (.refl _) (prepared_keepsCompanions h)
  | directory h => exact hc.commits (.refl _) (write_keepsCompanions (ne_of_vacant h))
  | staged h => exact hc.commits (.refl _) (write_keepsCompanions (ne_of_vacant h))
  | @present _ relative presented =>
      have hstep := hc.commits (.refl _) (prepare_keepsCompanions (E := E) _ relative presented)
      rwa [← prepare_tables (E := E) c relative presented] at hstep
  | outside => exact hc.commits (.refl _) (houtside _ _ rfl)

/-- So the companions are synchronised in every catalog that is reached, by induction on the run. -/
theorem Synchronised.reached {c : Catalog} (h : Reached E KeepsCompanions c) :
    Synchronised E c := by
  refine h.invariant (fun id fs => ⟨?_, ?_⟩) fun hc hstep houtside => hc.step hstep houtside
  · intro m hm
    cases hm
  · intro r hr
    cases hr

/-- A file whose document a step changes, or that it adds, is pending once the step commits. So the
document of a file that does not wait is what it was when its companion was written. -/
theorem Step.queues {c c' : Catalog} {e : Event} (h : Step E c e c')
    (hc : c.tables.References) : ∀ r ∈ c'.tables.files, c'.tables.Pending r.id ∨
      (r ∈ c.tables.files ∧ documentOf E c'.tables r = documentOf E c.tables r) := by
  have hcommits : ∀ {db'}, Commits c.tables db' → ∀ r ∈ db'.files, db'.Pending r.id ∨
      (r ∈ c.tables.files ∧ documentOf E db' r = documentOf E c.tables r) := by
    intro db' hcommits r hr
    obtain ⟨-, hkeeps⟩ := hcommits hc
    by_cases hpending : db'.Pending r.id
    · exact .inl hpending
    · obtain ⟨hr', -, hdocument⟩ := hkeeps.document hr hpending
      exact .inr ⟨hr', hdocument⟩
  cases h with
  | register h => exact hcommits (registerBatch_commits h)
  | create _ hprepared hregister =>
      obtain ⟨-, -, -, hinherit⟩ := prepared_ok hprepared
      exact hcommits ((inherit_commits hinherit).trans (register_commits hregister))
  | update _ h => exact hcommits (update_commits h)
  | createCollection _ h => exact hcommits (addCollection_commits h)
  | renameCollection _ h => exact hcommits (rename_commits h)
  | removeCollection h => exact hcommits (dissolve_commits h)
  | saveFilter h => exact hcommits (storeFilter_ok h).commits
  | removeFilter h => exact hcommits (dropFilter_ok h).commits
  | publish => exact fun r hr => .inr ⟨hr, dequeue_documentOf _ r⟩
  | interrupted => exact fun r hr => .inr ⟨hr, rfl⟩
  | unindexed => exact fun r hr => .inr ⟨hr, rfl⟩
  | directory => exact fun r hr => .inr ⟨hr, rfl⟩
  | staged => exact fun r hr => .inr ⟨hr, rfl⟩
  | @present _ relative presented =>
      have hsame := prepare_tables (E := E) c relative presented
      exact fun r hr => .inr ⟨hsame ▸ hr, by rw [hsame]⟩
  | outside => exact fun r hr => .inr ⟨hr, rfl⟩

/-- **Companions are in step with the catalog.** Where others leave companions alone, the companion
of every file that is not pending is the document of the file, byte for byte; and a step that
changes the document of a file leaves the file pending. -/
theorem companionsSynchronised {c : Catalog} (h : Reached E KeepsCompanions c) :
    (∀ r ∈ c.tables.files, ¬ c.tables.Pending r.id → ∃ file text,
      entry E c.tables r = .ok file ∧ document E c.tables file = .ok text ∧
        c.fs.content (companionPath r.path) = some text) ∧
    ∀ e c', Step E c e c' → ∀ r' ∈ c'.tables.files, c'.tables.Pending r'.id ∨
      ∃ r ∈ c.tables.files, r.id = r'.id ∧
        documentOf E c'.tables r' = documentOf E c.tables r := by
  have hc := Synchronised.reached h
  constructor
  · intro r hr hnot
    obtain ⟨text, hdocument, hcontent⟩ := hc.companions r hr hnot
    simp only [documentOf, bind_ok] at hdocument
    obtain ⟨file, hfile, htext⟩ := hdocument
    exact ⟨file, text, hfile, htext, hcontent⟩
  · intro e c' hstep r' hr'
    rcases hstep.queues hc.references r' hr' with hpending | ⟨hr, hdocument⟩
    · exact .inl hpending
    · exact .inr ⟨r', hr, rfl, hdocument⟩

/-- A catalog with a file in a collection, whose companion is published. -/
def published : Catalog :=
  let E := CatalogLibraries.reference
  let c := (Catalog.createCollection E sample (ascii "b") (sampleDraws 1).fresh).2
  let m := { FileMetadata.initial with collections := [newKey (sampleDraws 1).fresh "collection-"] }
  (Catalog.createFile E c (ascii "a") [1] m (sampleDraws 2)
    (.done ⟨samplePhysical "i" "v" 1, none⟩) (.done (samplePhysical "j" "w" 1))).2

/-- The sample with one published companion is reached. -/
theorem reached_published {allowed : FileSystem → FileSystem → Prop} :
    Reached .reference allowed published := by
  have hsample : Reached .reference allowed sample := .fresh _ _
  exact (hsample.called (.createCollection _ _)).called (.createFile _ _ _ _ _ _)

/-- In the sample a file does not wait, and its companion holds the document of its row. -/
theorem companionsSynchronised_sample :
    (∃ r ∈ published.tables.files, ¬ published.tables.Pending r.id) ∧
    (∀ r ∈ published.tables.files, ¬ published.tables.Pending r.id → ∃ file text,
      entry .reference published.tables r = .ok file ∧
        document .reference published.tables file = .ok text ∧
        published.fs.content (companionPath r.path) = some text) := by
  have hrow : (published.tables.files.rows.filter fun r =>
      published.tables.pending.find r.id = none) ≠ [] := by decide +kernel
  refine ⟨?_, (companionsSynchronised reached_published).1⟩
  obtain ⟨r, hr⟩ := List.exists_mem_of_ne_nil _ hrow
  obtain ⟨hmem, hnone⟩ := List.mem_filter.1 hr
  exact ⟨r, hmem, fun hpending => hpending (of_decide_eq_true hnone)⟩

end Catalog

end FileProvider
