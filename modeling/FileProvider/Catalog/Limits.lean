import FileProvider.Catalog.SideTables

/-!
# The limits of a catalog

A file is in 128 collections at most, a catalog has 4096 collections at most, and its rows are
numbered within 64 bits. A document that was published fits into a companion, and stays so: the
document of a file that is not pending is as it was published.

Both invariants are proved along the steps of a catalog. The numbers of rows are bounded by the
engine, which refuses a row beyond them; the counts of collections are checked in the transactions,
before a row is written.
-/

namespace FileProvider

open Bytes Fallible

namespace Catalog

variable {E : CatalogLibraries} {fs : FileSystem} {db db' mid : CatalogTables}

/-! ## Classifications -/

/-- Sorting without repetition makes no list longer. -/
theorem length_sortedSet_le (l : List Bytes) : (sortedSet l).length ≤ l.length := by
  rw [sortedSet, (Keyset.orderBy_perm _).length_eq]
  exact (List.dedup_sublist l).length_le

/-- A classification in its normal form is in no more collections than a file can be. -/
theorem length_collections_le {m n : FileMetadata} (h : normalizeMetadata E m = .ok n) :
    n.collections.length ≤ 128 := by
  obtain ⟨memberships, hmemberships, hcollections⟩ := normalizeMetadata_collections h
  have hlength : m.collections.length = memberships.length := by
    have hmap := congrArg List.length (mapM_ok.1 hmemberships)
    rwa [List.length_map, List.length_map] at hmap
  simp only [normalizeMetadata, bind_ok, failIf_ok, not_or, not_lt] at h
  obtain ⟨_, -, _, -, _, -, _, -, _, ⟨-, hle⟩, -⟩ := h
  rw [hcollections]
  exact (length_sortedSet_le memberships).trans (hlength ▸ hle)

/-! ## Tables within their limits -/

/-- The tables of a catalog are within its limits. -/
structure Limited (db : CatalogTables) : Prop where
  memberships : ∀ i, (db.memberships i).length ≤ 128
  collections : db.collections.rows.length ≤ 4096
  numbered : ∀ r ∈ db.files, r.id ≤ db.filesSequence
  sequence : db.filesSequence ≤ int64Max

namespace Limited

/-- An empty catalog is within its limits. -/
theorem empty (id : Bytes) : Limited (.empty id) :=
  ⟨fun _ => Nat.zero_le _, Nat.zero_le _, fun _ hr => (by cases hr), Nat.zero_le _⟩

/-- Tables with the same rows are within the same limits. -/
theorem congr (h : Limited db) (hmembers : db'.members = db.members)
    (hcollections : db'.collections = db.collections) (hfiles : db'.files = db.files)
    (hsequence : db'.filesSequence = db.filesSequence) : Limited db' where
  memberships i := by
    unfold CatalogTables.memberships
    rw [hmembers]
    exact h.memberships i
  collections := hcollections ▸ h.collections
  numbered r hr := hsequence ▸ h.numbered r (hfiles ▸ hr)
  sequence := hsequence ▸ h.sequence

/-- Raising the catalog's revision keeps the limits. -/
theorem bump (hdb : Limited db) (h : db.bump = .ok db') : Limited db' := by
  rw [CatalogTables.bump_ok h]
  exact hdb.congr rfl rfl rfl rfl

/-- Queueing keeps the limits. -/
theorem queue {ids : List Nat} (hdb : Limited db) (h : db.queue ids = .ok db') : Limited db' := by
  rw [CatalogTables.queue_ok h]
  exact hdb.congr rfl rfl rfl rfl

/-- Storing filters keeps the limits, as their number is checked. -/
theorem stores (hdb : Limited db) (h : Stores db db') : Limited db' := by
  obtain ⟨savedFilters, rfl⟩ := h
  exact hdb.congr rfl rfl rfl rfl

/-- A collection is inserted where their number is checked before. -/
theorem insertCollection {row : CollectionRow} (hdb : Limited db)
    (hcount : db.collections.rows.length < 4096)
    (h : db.insertCollection row = .ok db') : Limited db' := by
  obtain ⟨collections, hcollections, rfl⟩ := CatalogTables.insertCollection_ok h
  refine ⟨hdb.memberships, ?_, hdb.numbered, hdb.sequence⟩
  show collections.rows.length ≤ _
  rw [Table.rows_insert (UniqueTable.insert_eq_some hcollections), List.length_append]
  exact hcount

/-- Renaming a collection keeps the limits. -/
theorem updateCollection {row : CollectionRow} (hdb : Limited db)
    (h : db.updateCollection row = .ok db') : Limited db' := by
  simp only [CatalogTables.updateCollection, bind_ok, orFail_ok, pure_ok] at h
  obtain ⟨_, -, collections, hcollections, _, -, rfl⟩ := h
  refine ⟨hdb.memberships, ?_, hdb.numbered, hdb.sequence⟩
  show collections.rows.length ≤ _
  rw [UniqueTable.ofTable_eq_some hcollections]
  exact (List.length_map _).trans_le hdb.collections

/-- Removing a collection keeps the limits. -/
theorem removeCollection {key : Bytes} (hdb : Limited db)
    (h : db.removeCollection key = .ok db') : Limited db' := by
  simp only [CatalogTables.removeCollection, bind_ok, pure_ok] at h
  obtain ⟨_, -, _, -, rfl⟩ := h
  refine ⟨fun i => ?_, ?_, hdb.numbered, hdb.sequence⟩
  · refine le_trans ?_ (hdb.memberships i)
    unfold CatalogTables.memberships
    rw [(Keyset.orderBy_perm _).length_eq, (Keyset.orderBy_perm _).length_eq, List.length_map,
      List.length_map]
    exact (List.filter_sublist.filter _).length_le
  · exact (List.length_filter_le _ _).trans hdb.collections

/-- Raising revisions keeps the limits. -/
theorem raiseRevisions {ids : List Nat} (hdb : Limited db) (h : db.raiseRevisions ids = .ok db') :
    Limited db' := by
  have hrows := fun row => @raiseRevisions_rows db db' ids h row
  obtain ⟨files, -, rfl⟩ := CatalogTables.raiseRevisions_ok h
  refine ⟨hdb.memberships, hdb.collections, fun row hrow => ?_, hdb.sequence⟩
  obtain ⟨r, hr, hid, -⟩ := hrows row hrow
  exact hid ▸ hdb.numbered r hr

/-- Updating a row keeps the limits. -/
theorem updateFile {physical : Physical} {revision id : Nat} {place : Bytes} (hdb : Limited db)
    (h : db.updateFile physical revision place id = .ok db') : Limited db' := by
  obtain ⟨files, hfiles, rfl⟩ := CatalogTables.updateFile_ok h
  refine ⟨hdb.memberships, hdb.collections, fun row hrow => ?_, hdb.sequence⟩
  obtain ⟨r, hr, rfl⟩ := (UniqueTable.mem_modify hfiles).1 hrow
  have hid := hdb.numbered r hr
  split
  · exact hid
  · exact hid

/-- A new row has the next number. -/
theorem insertFile {physical : Physical} {revision id : Nat} {key place : Bytes} (hdb : Limited db)
    (h : db.insertFile physical revision key place = .ok (id, db')) : Limited db' := by
  simp only [CatalogTables.insertFile, bind_ok, orFail_ok, failIf_ok, not_le, pure_ok,
    Prod.mk.injEq] at h
  obtain ⟨_, -, _, -, _, -, _, -, _, hlast, files, hfiles, -, rfl⟩ := h
  refine ⟨hdb.memberships, hdb.collections, fun row hrow => ?_, hlast⟩
  rcases (UniqueTable.mem_insert hfiles).1 hrow with hrow | rfl
  · exact (hdb.numbered row hrow).trans (Nat.le_succ _)
  · exact le_rfl

end Limited

/-- Annotating draws no number for a file. -/
theorem annotations_sequence {id : Nat} {place : Bytes} {m : FileMetadata}
    (h : annotations E db id place m = .ok db') : db'.filesSequence = db.filesSequence := by
  simp only [annotations, bind_ok] at h
  obtain ⟨text, -, d₁, h₁, d₂, h₂, d₃, h₃, d₄, h₄, d₅, h₅, h⟩ := h
  obtain ⟨files, -, rfl⟩ := CatalogTables.updateAnnotation_ok h₁
  obtain ⟨keywords, rfl⟩ := insertKeywords_ok h₂
  obtain ⟨fields, rfl⟩ := insertFields_ok h₃
  obtain ⟨members, -, -, rfl⟩ := insertMembers_ok h₄
  rw [CatalogTables.replaceSearch_ok h₅] at h
  rw [CatalogTables.queue_ok h]
  rfl

/-- Annotating with a checked number of collections keeps the limits. -/
theorem Limited.annotations {id : Nat} {place : Bytes} {m : FileMetadata} (hdb : Limited db)
    (hm : m.collections.length ≤ 128)
    (h : annotations E db id place m = .ok db') : Limited db' := by
  have hsequence := annotations_sequence h
  obtain ⟨text, hannotated⟩ := annotations_ok h
  refine ⟨fun i => ?_, hannotated.collections ▸ hdb.collections, fun row hrow => ?_,
    hsequence ▸ hdb.sequence⟩
  · by_cases hi : i = id
    · rw [hi, hannotated.memberships, (Keyset.orderBy_perm _).length_eq]
      exact hm
    · rw [hannotated.leaves.memberships i hi]
      exact hdb.memberships i
  · rw [UniqueTable.mem_iff_find, hannotated.files] at hrow
    obtain ⟨r, hr, -⟩ := Option.map_eq_some_iff.1 hrow
    obtain ⟨hmem, hid⟩ := UniqueTable.find_eq_some.1 hr
    exact hsequence ▸ hid ▸ hdb.numbered r hmem

/-! ## Registrations -/

/-- Restoring collections keeps the limits, and hands on a checked number of them. -/
theorem restoreCollections_limited {j : Companion} {m : FileMetadata} (hdb : Limited db)
    (h : restoreCollections E db j = .ok (m, db')) :
    Limited db' ∧ m.collections.length ≤ 128 := by
  simp only [restoreCollections, bind_ok, pure_ok, Prod.exists, Prod.mk.injEq] at h
  obtain ⟨d, remap, hfold, collections, -, m', hm, rfl, rfl⟩ := h
  refine ⟨?_, length_collections_le hm⟩
  refine foldlM_preserves (motive := fun s : CatalogTables × List (Bytes × Bytes) => Limited s.1)
    ?_ _ hdb hfold
  intro s c s' hs hstep
  simp only [restoreCollection, bind_ok] at hstep
  obtain ⟨folded, -, hstep⟩ := hstep
  split at hstep
  · rw [pure_ok] at hstep
    exact hstep ▸ hs
  · simp only [bind_ok, failIf_ok, not_le, pure_ok] at hstep
    obtain ⟨_, hcount, mid, hinsert, rfl⟩ := hstep
    exact hs.insertCollection hcount hinsert

/-- What is read from limited tables has a limited number of collections. -/
theorem entry_limited (hdb : Limited db) {row : FileRow} {f : CatalogFile}
    (h : entry E db row = .ok f) : f.metadata.collections.length ≤ 128 := by
  obtain ⟨_, _, -, -, rfl⟩ := entry_ok h
  exact hdb.memberships row.id

/-- Refreshing a known file keeps the limits. The metadata is given, or taken from a companion whose
collections are restored, or it is the file's own; the collections are counted in each case. -/
theorem refreshed_limited {relative : Bytes} {f : CatalogFile} {explicit : Option FileMetadata}
    {p : Proposal} (hdb : Limited db) (hf : f.metadata.collections.length ≤ 128)
    (h : refreshed E fs db relative f explicit = .ok p) :
    Limited p.tables ∧ p.metadata.collections.length ≤ 128 := by
  unfold refreshed at h
  split at h
  · simp only [bind_ok, pure_ok] at h
    obtain ⟨m, hm, rfl⟩ := h
    exact ⟨hdb, length_collections_le hm⟩
  · rw [bind_ok] at h
    obtain ⟨found, -, h⟩ := h
    split at h
    · rw [pure_ok] at h
      subst h
      exact ⟨hdb, hf⟩
    · split at h
      · simp only [bind_ok, pure_ok, Prod.exists] at h
        obtain ⟨m, d, hrestore, rfl⟩ := h
        exact restoreCollections_limited hdb hrestore
      · rw [pure_ok] at h
        subst h
        exact ⟨hdb, hf⟩

/-- Adopting an unknown file keeps the limits. The metadata is given, or taken from a companion, or
is that of a new file, which is in no collection. -/
theorem adopted_limited {relative : Bytes} {explicit : Option FileMetadata} {draws : KeyDraws}
    {p : Proposal} (hdb : Limited db) (h : adopted E fs db relative explicit draws = .ok p) :
    Limited p.tables ∧ p.metadata.collections.length ≤ 128 := by
  unfold adopted at h
  split at h
  · simp only [bind_ok, pure_ok] at h
    obtain ⟨m, hm, rfl⟩ := h
    exact ⟨hdb, length_collections_le hm⟩
  · rw [bind_ok] at h
    obtain ⟨found, -, h⟩ := h
    split at h
    · rw [pure_ok] at h
      subst h
      exact ⟨hdb, Nat.zero_le _⟩
    · simp only [bind_ok, Prod.exists] at h
      obtain ⟨m, d, hrestore, h⟩ := h
      have hlimited := restoreCollections_limited hdb hrestore
      split at h
      · rw [pure_ok] at h
        subst h
        exact hlimited
      · rw [pure_ok] at h
        subst h
        exact hlimited

/-- Describing a file keeps the limits. -/
theorem described_limited {id : Nat} {relative : Bytes} {p : Proposal} {file : CatalogFile}
    {mutated : Bool} (hmid : Limited mid) (hp : p.metadata.collections.length ≤ 128)
    (h : described E mid id relative p = .ok (file, mutated, db')) : Limited db' := by
  simp only [described, bind_ok, pure_ok, Prod.mk.injEq] at h
  obtain ⟨d, hannotated, f, -, text, -, -, -, rfl⟩ := h
  exact hmid.annotations hp hannotated

/-- A registration keeps the limits, on each of its ways. What a registration adds are a row,
memberships and restored collections, and each of these is counted before it is inserted. -/
theorem registration_limited {r : FileRegistration} {draws : KeyDraws} {file : CatalogFile}
    {mutated : Bool} (hdb : Limited db)
    (h : registration E fs db r draws = .ok (file, mutated, db')) : Limited db' := by
  simp only [registration, bind_ok] at h
  obtain ⟨relative, -, place, -, physical, -, found, hfound, h⟩ := h
  cases found with
  | some f =>
      simp only [bind_ok] at h
      obtain ⟨p, hp, h⟩ := h
      obtain ⟨own, -, hentry, -⟩ := registered_ok hfound
      obtain ⟨htables, hmetadata⟩ := refreshed_limited hdb (entry_limited hdb hentry) hp
      split at h
      · cases h
        exact htables
      · rw [bind_ok] at h
        obtain ⟨mid, hmid, h⟩ := h
        exact described_limited (htables.updateFile hmid) hmetadata h
  | none =>
      simp only [bind_ok, Prod.exists] at h
      obtain ⟨p, hp, id, mid, hmid, h⟩ := h
      obtain ⟨htables, hmetadata⟩ := adopted_limited hdb hp
      exact described_limited (htables.insertFile hmid) hmetadata h

/-- A batch of registrations keeps the limits, by induction on its entries. -/
theorem registerBatch_limited {entries : List FileRegistration} {draws : Nat → KeyDraws}
    {files : List CatalogFile} (hdb : Limited db)
    (h : registerBatch E fs db entries draws = .ok (files, db')) : Limited db' := by
  obtain ⟨batch, hbatch, -, hend⟩ := registerBatch_ok h
  have hfold : Limited batch.tables := by
    refine foldlM_preserves (motive := fun b : Batch => Limited b.tables) ?_ _ hdb hbatch
    intro b e b' hb hstep
    obtain ⟨file, mutated, hregistration, -, -⟩ := registerEntry_ok hstep
    exact registration_limited hb hregistration
  rcases hend with ⟨-, hbump⟩ | ⟨-, rfl⟩
  · exact hfold.bump hbump
  · exact hfold

/-! ## Steps -/

/-- **Every step keeps a catalog within its limits.** The counts of collections are checked in every
transaction that adds some, and numbers of rows are bounded by the engine. -/
theorem Limited.step {c c' : Catalog} {e : Event} (hc : Limited c.tables) (h : Step E c e c') :
    Limited c'.tables := by
  cases h with
  | register h => exact registerBatch_limited hc h
  | @create _ _ mid _ _ _ _ _ inherited _ _ _ _ _ _ hprepared hregister =>
      obtain ⟨-, -, -, hinherit⟩ := prepared_ok hprepared
      simp only [Catalog.register, bind_ok, pure_ok, Prod.exists, Prod.mk.injEq] at hregister
      obtain ⟨file, mutated, d, hregistration, d', hbump, -, rfl⟩ := hregister
      have hmid : Limited mid := by
        cases inherited with
        | none =>
            cases hinherit
            exact hc
        | some j => exact (restoreCollections_limited hc hinherit).1
      exact (registration_limited hmid hregistration).bump hbump
  | update hmetadata h =>
      simp only [Catalog.update, bind_ok] at h
      obtain ⟨file, -, _, -, place, -, physical, -, _, -, raised, hraised, mid, hmid, f, -, doc, -,
        hbump⟩ := h
      exact ((hc.raiseRevisions hraised).annotations (length_collections_le hmetadata) hmid).bump
        hbump
  | createCollection _ h =>
      simp only [addCollection, bind_ok, failIf_ok, not_le, pure_ok, Prod.mk.injEq] at h
      obtain ⟨_, hcount, folded, -, mid, hmid, bumped, hbump, -, rfl⟩ := h
      exact (hc.insertCollection hcount hmid).bump hbump
  | renameCollection _ h =>
      simp only [rename, bind_ok] at h
      obtain ⟨folded, -, renamed, hrenamed, raised, hraised, queued, hqueued, _, -, hbump⟩ := h
      exact (((hc.updateCollection hrenamed).raiseRevisions hraised).queue hqueued).bump hbump
  | removeCollection h =>
      simp only [dissolve, bind_ok] at h
      obtain ⟨raised, hraised, queued, hqueued, removed, hremoved, hbump⟩ := h
      exact (((hc.raiseRevisions hraised).queue hqueued).removeCollection hremoved).bump hbump
  | saveFilter h => exact hc.stores (storeFilter_ok h)
  | removeFilter h => exact hc.stores (dropFilter_ok h)
  | publish => exact hc.congr rfl rfl rfl rfl
  | interrupted => exact hc
  | unindexed => exact hc
  | directory => exact hc
  | staged => exact hc
  | present => rwa [prepare_tables]
  | outside => exact hc

/-- Every catalog that is reached is within its limits. -/
theorem Limited.reached {allowed : FileSystem → FileSystem → Prop} {c : Catalog}
    (h : Reached E allowed c) : Limited c.tables :=
  h.invariant (I := fun c => Limited c.tables) (fun id _ => .empty id)
    fun hc hstep _ => hc.step hstep

/-- A catalog has no more rows than there are numbers for them. -/
theorem Limited.length_files_le (h : Limited db) (hpositive : ∀ r ∈ db.files, 0 < r.id) :
    db.files.rows.length ≤ int64Max := by
  have hsubset : ∀ i ∈ db.files.rows.map FileRow.id, i ∈ List.range' 1 int64Max := by
    intro i hi
    obtain ⟨r, hr, rfl⟩ := List.mem_map.1 hi
    rw [List.mem_range'_1]
    exact ⟨hpositive r hr, Nat.lt_of_le_of_lt ((h.numbered r hr).trans h.sequence)
      (by omega)⟩
  have hle := (List.subperm_of_subset db.files.nodup hsubset).length_le
  rwa [List.length_map, List.length_range'] at hle

/-! ## Documents -/

/-- The documents of the files that are not pending fit into a companion. -/
def Fitting (E : CatalogLibraries) (db : CatalogTables) : Prop :=
  ∀ r ∈ db.files, ¬ db.Pending r.id → ∃ text, documentOf E db r = .ok text ∧
    text.length ≤ maximumMetadataBytes

/-- A commit keeps the documents that are not queued within their limit. -/
theorem Fitting.commits (hdb : Fitting E db) (hreferences : db.References)
    (h : Commits db db') : Fitting E db' := by
  obtain ⟨-, hkeeps⟩ := h hreferences
  intro r hr hnot
  obtain ⟨hr', hnot', hdocument⟩ := hkeeps.document hr hnot
  rw [hdocument]
  exact hdb r hr' hnot'

/-- A companion that is to be published is within the limit of metadata. -/
theorem publication_fits {key text : Bytes} {f : CatalogFile}
    (h : publication E fs db key = .ok (some (f, text))) :
    text.length ≤ maximumMetadataBytes := by
  simp only [publication, bind_ok] at h
  obtain ⟨_, -, f', -, h⟩ := h
  split at h
  · cases h
  · simp only [bind_ok] at h
    obtain ⟨place, -, physical, -, _, -, found, -, h⟩ := h
    cases found with
    | none =>
        simp only [bind_ok, pure_ok, Option.some.injEq, Prod.mk.injEq] at h
        obtain ⟨doc, hdoc, -, rfl⟩ := h
        exact (limitedDocument_ok.1 hdoc).2
    | some previous =>
        simp only [bind_ok, pure_ok, Option.some.injEq, Prod.mk.injEq] at h
        obtain ⟨_, -, doc, hdoc, -, rfl⟩ := h
        exact (limitedDocument_ok.1 hdoc).2

/-- **Every step keeps the documents of published files within their limit.** A document is checked
against the limit when it is published, and a file whose document changes is pending from then on.
-/
theorem Fitting.step {c c' : Catalog} {e : Event} (hc : Fitting E c.tables)
    (hreferences : c.tables.References) (h : Step E c e c') : Fitting E c'.tables := by
  cases h with
  | register h => exact hc.commits hreferences (registerBatch_commits h)
  | create _ hprepared hregister =>
      obtain ⟨-, -, -, hinherit⟩ := prepared_ok hprepared
      exact hc.commits hreferences ((inherit_commits hinherit).trans (register_commits hregister))
  | update _ h => exact hc.commits hreferences (update_commits h)
  | createCollection _ h => exact hc.commits hreferences (addCollection_commits h)
  | renameCollection _ h => exact hc.commits hreferences (rename_commits h)
  | removeCollection h => exact hc.commits hreferences (dissolve_commits h)
  | saveFilter h => exact hc.commits hreferences (storeFilter_ok h).commits
  | removeFilter h => exact hc.commits hreferences (dropFilter_ok h).commits
  | @publish _ _ text f _ h =>
      obtain ⟨s, hs, -, -, hindex, -, hdocument⟩ := publication_ok h
      intro r hr hnot
      show ∃ text', documentOf E (c.tables.dequeue f.index) r = .ok text' ∧ _
      rw [dequeue_documentOf]
      by_cases hid : r.id = f.index
      · obtain rfl : r = s := Table.eq_of_key_eq hr hs (hid.trans hindex)
        exact ⟨text, hdocument, publication_fits h⟩
      · exact hc r hr fun hpending => hnot (CatalogTables.pending_dequeue.2 ⟨hpending, hid⟩)
  | interrupted => exact hc
  | unindexed => exact hc
  | directory => exact hc
  | staged => exact hc
  | present => rwa [prepare_tables]
  | outside => exact hc

/-- In every catalog that is reached the documents that are not queued fit. -/
theorem Fitting.reached {allowed : FileSystem → FileSystem → Prop} {c : Catalog}
    (h : Reached E allowed c) : Fitting E c.tables := by
  have hboth : c.tables.References ∧ Fitting E c.tables := by
    refine h.invariant (I := fun c => c.tables.References ∧ Fitting E c.tables) ?_ ?_
    · exact fun id fs => ⟨fun m hm => (by cases hm), fun r hr => (by cases hr)⟩
    · exact fun hc hstep _ => ⟨(hstep.moves hc.1).1, hc.2.step hc.1 hstep⟩
  exact hboth.2

end Catalog

end FileProvider
